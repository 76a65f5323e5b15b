import AssetQuery.Entries
import AssetQuery.Ty.Basic

/-!
# Schemas and their errors

Declarations of resources: their fields, what may be seen of them, and the element type of those
that are lists. What can go wrong with resources, and why a piece of work has no result: a message,
or an error about resources, and what it happened on the way to.
-/

namespace AssetQuery

/-- A declared field of a resource. -/
structure Field where
  name : String
  typ : Ty
  /-- It must be supplied as an argument when the resource is created. -/
  isMandatory : Bool
  isPrivate : Bool
  /-- It leads from a resource to the child resource of the same name. -/
  isImplicit : Bool
  refs : List String
  deriving DecidableEq, Repr, Inhabited

/-- A field of which only the name and the type are declared. -/
def Field.plain (name : String) (typ : Ty) : Field := ⟨name, typ, false, false, false, []⟩

/-- The declaration of a resource. -/
structure ResourceInfo where
  id : String
  fields : Dict Field
  isPrivate : Bool
  /-- The element type of a list, which the field `list` holds. -/
  listType : Option Ty
  /-- The factory of the resource rewrites arguments. -/
  rewritesArgs : Bool
  title : Option String
  deriving DecidableEq, Inhabited

namespace ResourceInfo

def plain (id : String) : ResourceInfo := ⟨id, .empty, false, none, false, none⟩

def withField (info : ResourceInfo) (field : Field) : ResourceInfo :=
  { info with fields := info.fields.insert field.name field }

/-- Makes the resource a list of elements of a type. -/
def withListType (info : ResourceInfo) (elem : Ty) : ResourceInfo :=
  { info.withField (.plain "list" (.array elem)) with listType := some elem }

/-- The declaration with the names of fields filled in from their keys, and with the field `list`
if it declares a list without one. -/
def completed (info : ResourceInfo) : ResourceInfo :=
  let fields := info.fields.map fun key field =>
    if field.name.isEmpty then { field with name := key } else field
  match info.listType with
  | some elem =>
    if fields.contains "list" then { info with fields }
    else { info with fields := fields.insert "list" (.plain "list" (.array elem)) }
  | none => { info with fields }

end ResourceInfo

/-- Declarations by name. -/
structure Schema where
  resources : Dict ResourceInfo
  deriving DecidableEq, Inhabited

/-- What an asset lets be done to it. -/
inductive Capability where
  | runCommand
  | file
  deriving DecidableEq, Repr

def Capability.name : Capability → String
  | runCommand => "run-command"
  | file => "file"

/-- What goes wrong with resources, from their declaration to the reading of their fields. -/
inductive ResourceError where
  | unknownResource (name : String)
  | duplicateResource (name : String)
  | invalidName (name : String)
  | nameTooLong (length : Nat)
  | construction (resource cause : String)
  | fieldComputation (resource field cause : String)
  | unsupported (capability : Capability)
  | cyclic (resource field : String)
  | unknownField (resource field : String)
  | invalidSchema
  deriving DecidableEq, Repr

def ResourceError.message : ResourceError → String
  | unknownResource name => s!"resource '{name}' is not registered"
  | duplicateResource name =>
    s!"resource '{name}' is already defined; merging resource definitions is not supported"
  | invalidName name =>
    s!"the name '{name}' is invalid (empty or whitespace-only names are not allowed)"
  | nameTooLong length =>
    s!"resource name of {length} bytes exceeds the {maxNameLength} byte limit"
  | construction resource cause => s!"cannot create resource '{resource}': {cause}"
  | fieldComputation resource field cause =>
    s!"failed to compute field '{field}' of resource '{resource}': {cause}"
  | unsupported capability =>
    s!"operation not supported by the transport: missing capability '{capability.name}'"
  | cyclic resource field => s!"field '{field}' of resource '{resource}' depends on itself"
  | unknownField resource field => s!"resource '{resource}' has no field '{field}'"
  | invalidSchema => "cannot load resource schema: <json>"

inductive Failure where
  | text (message : String)
  | resource (e : ResourceError)
  /-- A failure on the way to something. -/
  | during (context : String) (cause : Failure)
  deriving DecidableEq, Repr

namespace Failure

def message : Failure → String
  | text s => s
  | resource e => e.message
  | during context cause => context ++ ": " ++ cause.message

/-- The circle of fields that a failure comes from. -/
def circle? : Failure → Option ResourceError
  | resource (.cyclic name field) => some (.cyclic name field)
  | during _ cause => cause.circle?
  | _ => none

end Failure

end AssetQuery
