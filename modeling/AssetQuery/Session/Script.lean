import AssetQuery.Asset.Basic
import AssetQuery.Data.Basic

/-!
# Scripts

What factories and providers do is written down as a script: a tree of requests to the session, each
followed by what is done with the reply. A script ends with a result or a failure; that the code of
a provider panics, which leaves the field to be computed for good, has no counterpart. Between runs
scripts share a memory, whose type is a parameter.
-/

namespace AssetQuery

/-- What a resource is known by. -/
structure Key where
  name : String
  id : String
  deriving DecidableEq, Repr, Inhabited

/-- What a factory or a provider does, with a memory of type `σ`. -/
inductive Script (σ α : Type) where
  | done (result : α)
  | fail (cause : Failure)
  /-- Look at the memory. -/
  | load (next : σ → Script σ α)
  /-- Change the memory. -/
  | save (memory : σ) (next : Script σ α)
  /-- Look at the asset. -/
  | look (next : Asset → Script σ α)
  /-- Run a command on the asset. -/
  | run (command : String) (next : Except ResourceError CommandOutput → Script σ α)
  /-- Read a field of a resource. -/
  | read (key : Key) (field : String) (next : Except ResourceError Data → Script σ α)
  | create (name : String) (args : Dict Data) (next : Except ResourceError Key → Script σ α)
  /-- Have the next read of a field compute it anew. -/
  | invalidate (key : Key) (field : String) (next : Script σ α)

namespace Script

variable {σ α β : Type}

/-- One script after the other. -/
def andThen (script : Script σ α) (f : α → Script σ β) : Script σ β :=
  match script with
  | done a => f a
  | fail cause => fail cause
  | load next => load fun memory => (next memory).andThen f
  | save memory next => save memory (next.andThen f)
  | look next => look fun asset => (next asset).andThen f
  | run command next => run command fun reply => (next reply).andThen f
  | read key field next => read key field fun reply => (next reply).andThen f
  | create name args next => create name args fun reply => (next reply).andThen f
  | invalidate key field next => invalidate key field (next.andThen f)

instance : Monad (Script σ) where
  pure := done
  bind := andThen

/-- Goes on with what is there, or fails. -/
def expect : Except ResourceError α → Script σ α
  | .ok a => done a
  | .error e => fail (.resource e)

/-- Goes on with what is there, or fails with a message. -/
def orFail (message : String) : Option α → Script σ α
  | some a => done a
  | none => fail (.text message)

/-- Runs a command that may be run. -/
def command (text : String) : Script σ CommandOutput := run text expect

/-- The content of a file. -/
def contentOf (path : String) : Script σ String :=
  look fun asset => do
    expect (asset.require .file)
    match asset.file path with
    | .ok content => done content
    | .error cause => fail cause

def hasFile (path : String) : Script σ Bool :=
  look fun asset => do
    expect (asset.require .file)
    return asset.files.contains path

end Script

/-- Computes the fields of the resources of one kind. -/
structure Provider (σ : Type) where
  /-- The id that a resource with some arguments has, if not one made from its arguments. -/
  id : Dict Data → Option String
  /-- The value of a field of a resource with some arguments. -/
  compute : Key → Dict Data → String → Script σ Data

/-- Creates a resource: gives the arguments that count in place of those passed, and the provider
of its fields. -/
abbrev Factory (σ : Type) := Dict Data → Script σ (Dict Data × Option (Provider σ))

end AssetQuery
