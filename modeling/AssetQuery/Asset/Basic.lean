import AssetQuery.Entries
import AssetQuery.Schema.Basic

/-!
# Assets

A system that can be asked about: what it is, what its commands print, which files it has, and what
it lets be done to it.
-/

namespace AssetQuery

/-- What kind of system an asset is. -/
structure Platform where
  name : String
  title : String
  arch : String
  release : String
  kind : String
  runtime : String
  family : List String
  deriving DecidableEq, Repr, Inhabited

/-- What comes of running a command. -/
structure CommandOutput where
  stdout : String
  stderr : String
  exitStatus : Int32
  deriving DecidableEq, Repr, Inhabited

namespace CommandOutput

/-- A command that prints a text and succeeds. -/
def printed (stdout : String) : CommandOutput := ⟨stdout, "", 0⟩

/-- A command that the asset does not have. -/
def notFound (command : String) : CommandOutput :=
  ⟨"", s!"sh: {command}: command not found\n", 127⟩

end CommandOutput

structure Asset where
  platform : Platform
  commands : Dict CommandOutput
  files : Dict String
  capabilities : List Capability
  deriving Inhabited

namespace Asset

def has (a : Asset) (capability : Capability) : Bool := a.capabilities.contains capability

def require (a : Asset) (capability : Capability) : Except ResourceError Unit :=
  if a.has capability then .ok () else .error (.unsupported capability)

/-- What a command prints, whether or not it may be run. -/
def output (a : Asset) (command : String) : CommandOutput :=
  (a.commands.find? command).getD (.notFound command)

/-- The content of a file, whether or not it may be read. -/
def file (a : Asset) (path : String) : Except Failure String :=
  match a.files.find? path with
  | some content => .ok content
  | none => .error (.text s!"file '{path}' not found")

end Asset

end AssetQuery
