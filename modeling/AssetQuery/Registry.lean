import AssetQuery.Schema.Basic
import AssetQuery.Text.Basic

/-!
# Registries

The declared resources, with the factories that create them. A dotted name belongs to a chain: its
parents are declared along with it where they are missing, and each links to the next by an implicit
field. What is public in a chain makes everything above it public.

A registry does not look into its factories; their type is a parameter.
-/

namespace AssetQuery

/-- A declared resource and its factory. -/
structure ResourceEntry (F : Type) where
  info : ResourceInfo
  factory : Option F

/-- The declared resources by name. -/
structure Registry (F : Type) where
  entries : Dict (ResourceEntry F)

/-- Whether a resource may have this name. -/
def validateName (name : String) : Except ResourceError Unit :=
  if (trim name.toList).isEmpty then .error (.invalidName name)
  else if maxNameLength < byteLength name then .error (.nameTooLong (byteLength name))
  else .ok ()

namespace Registry

variable {F : Type}

def empty : Registry F := ⟨.empty⟩

instance : Inhabited (Registry F) := ⟨empty⟩

def resource? (r : Registry F) (name : String) : Option (ResourceEntry F) := r.entries.find? name

def contains (r : Registry F) (name : String) : Bool := r.entries.contains name

def field? (r : Registry F) (resource field : String) : Option Field :=
  (r.resource? resource).bind fun entry => entry.info.fields.find? field

def names (r : Registry F) : List String := r.entries.keys

/-- The names that queries may refer to. -/
def publicNames (r : Registry F) : List String :=
  (r.entries.filter fun _ entry => !entry.info.isPrivate).keys

def fields (r : Registry F) (name : String) : Except ResourceError (Dict Field) :=
  match r.resource? name with
  | some entry => .ok entry.info.fields
  | none => .error (.unknownResource name)

def schema (r : Registry F) : Schema := ⟨r.entries.map fun _ entry => entry.info⟩

/-- The link from a resource to the child named by the next part of a dotted name. -/
def linkField (part child : String) (isPrivate : Bool) : Field :=
  { Field.plain part (.resource child) with isImplicit := true, isPrivate }

/-- A parent with a link to its child: one that is there is kept, but a public child is not hidden
by its parent or by the link. -/
def linked (info : ResourceInfo) (part child : String) (isPrivate : Bool) : ResourceInfo :=
  let link := (info.fields.find? part).getD (linkField part child isPrivate)
  { info with
    isPrivate := info.isPrivate && isPrivate
    fields := info.fields.insert part { link with isPrivate := link.isPrivate && isPrivate } }

/-- Declares, from `current` down, the parents that are missing from a chain and links each to the
next. -/
def linkChain (isPrivate : Bool) (current : String) : List String → Registry F → Registry F
  | [], r => r
  | part :: parts, r =>
    let child := current ++ "." ++ part
    let parent := (r.resource? current).getD
      ⟨{ ResourceInfo.plain current with isPrivate }, none⟩
    linkChain isPrivate child parts
      ⟨r.entries.insert current { parent with info := linked parent.info part child isPrivate }⟩

/-- Declares the parents of a resource. -/
def ensureChain (name : String) (isPrivate : Bool) (r : Registry F) : Registry F :=
  match Dotted.parts name with
  | [] => r
  | first :: parts => linkChain isPrivate first parts r

/-- Declares a resource and what is missing of its chain. -/
def addResource (r : Registry F) (info : ResourceInfo) : Except ResourceError (Registry F) := do
  validateName info.id
  if r.contains info.id then throw (.duplicateResource info.id)
  let declared : Registry F := ⟨r.entries.insert info.id ⟨info.completed, none⟩⟩
  return declared.ensureChain info.id info.isPrivate

/-- Declares resources up to the first that is refused. -/
def addResources (r : Registry F) : List ResourceInfo → Registry F × Except ResourceError Unit
  | [] => (r, .ok ())
  | info :: rest =>
    match r.addResource info with
    | .ok r => r.addResources rest
    | .error e => (r, .error e)

/-- Declares the resources of a schema in the order of their keys, up to the first that is refused.
A key is the name of a declaration without one. -/
def loadSchema (r : Registry F) (s : Schema) : Registry F × Except ResourceError Unit :=
  r.addResources <| s.resources.entries.map fun e =>
    if e.2.id.isEmpty then { e.2 with id := e.1 } else e.2

def addFactory (r : Registry F) (name : String) (factory : F) :
    Except ResourceError (Registry F) := do
  validateName name
  match r.resource? name with
  | some entry => return ⟨r.entries.insert name { entry with factory := some factory }⟩
  | none => throw (.unknownResource name)

/-- Takes over every resource of another registry, in the place of those of the same name. -/
def merge (r other : Registry F) : Registry F := ⟨r.entries.insertAll other.entries⟩

end Registry

end AssetQuery
