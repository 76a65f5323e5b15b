import AssetQuery.Entries
import AssetQuery.Json.Basic
import AssetQuery.Json.Number
import AssetQuery.Number.Text

/-!
# Reading values from JSON documents

Decoders for the shapes that data is written in. A decoder may enter only so many arrays and
objects; what it does not look at may be nested at will and hold any number and any string.
-/

namespace AssetQuery.Json

/-- Reads a value from a document, entering at most `room` levels of arrays and objects. -/
abbrev Decoder (α : Type) := (room : Nat) → Json → Option α

/-- The levels that the decoders of a text may enter. -/
def nestingLimit : Nat := 127

variable {α : Type}

namespace Decoder

def bool : Decoder Bool
  | _, .bool b => some b
  | _, _ => none

def text : Decoder String
  | _, .string s => unspell? s
  | _, _ => none

/-- A whole number between two bounds, written without point and exponent. -/
def whole (low high : Int) : Decoder Int
  | _, .number s =>
    match numeral? s with
    | some (.whole n) => if low ≤ n && n ≤ high then some n else none
    | _ => none
  | _, _ => none

def int64 : Decoder Int64 := fun room doc =>
  (whole Int64.minValue.toInt Int64.maxValue.toInt room doc).map Int64.ofInt

def int32 : Decoder Int32 := fun room doc =>
  (whole Int32.minValue.toInt Int32.maxValue.toInt room doc).map Int32.ofInt

def natBelow (bound : Nat) : Decoder Nat := fun room doc =>
  (whole 0 (bound - 1 : Int) room doc).map Int.toNat

def double : Decoder Double
  | _, .number s => (numeral? s).map Numeral.toDouble
  | _, _ => none

/-- `null`, or what else is decoded. -/
def nullable (item : Decoder α) : Decoder (Option α)
  | _, .null => some none
  | room, doc => (item room doc).map some

def list (item : Decoder α) : Decoder (List α)
  | room + 1, .array items => items.mapM (item room)
  | _, _ => none

/-- The members of an object, in the order they are written in. -/
def members (item : Decoder α) : Decoder (List (String × α))
  | room + 1, .object ms => ms.mapM fun m => do return (← unspell? m.1, ← item room m.2)
  | _, _ => none

end Decoder

/-- The documents that the fields of a record are given by. -/
structure Fields where
  room : Nat
  given : List (String × Json)

/-- The fields of a record: the members of an object, none of the fields twice, or an array of
fields in their order. Other members are passed over. -/
def Decoder.record (names : List String) : Decoder Fields
  | room + 1, .object ms => do
    let given ← ms.mapM fun m => do return (← unspell? m.1, m.2)
    let known := given.filter fun m => names.contains m.1
    if (known.map (·.1)).eraseDups.length = known.length then some ⟨room, known⟩ else none
  | room + 1, .array items =>
    if items.length ≤ names.length then some ⟨room, names.zip items⟩ else none
  | _, _ => none

namespace Fields

def required (fields : Fields) (name : String) (item : Decoder α) : Option α := do
  item fields.room (← fields.given.lookup name)

/-- A field that has a value where it is not given. -/
def orElse (fields : Fields) (name : String) (item : Decoder α) (default : α) : Option α :=
  match fields.given.lookup name with
  | some doc => item fields.room doc
  | none => some default

end Fields

/-- A document that names one of several variants: the name alone, or an object whose only member
is the variant and its content. -/
inductive Choice where
  | name (variant : String)
  | content (variant : String) (room : Nat) (doc : Json)

def Decoder.choice : Decoder Choice
  | _, .string s => (unspell? s).map .name
  | room + 1, .object [(s, doc)] => (unspell? s).map fun variant => .content variant room doc
  | _, _ => none

/-- Reads a whole text. -/
def Decoder.run (item : Decoder α) (text : String) : Option α := do
  item nestingLimit (← parse? text)

/-- The canonical spelling of a number. -/
def canonicalNumber? (spelling : String) : Option String :=
  (numeral? spelling).map fun
    | .whole n => toString n
    | .double x => NumberLayout.json.write x

mutual

/-- A document of at most `room` levels in canonical form: numbers and strings in their canonical
spelling, of the members of the same name the last one, members in the order of their names. -/
def canonical? (room : Nat) : Json → Option Json
  | .number s => (canonicalNumber? s).map .number
  | .string s => (unspell? s).map ofText
  | .array items =>
    match room with
    | 0 => none
    | room + 1 => (canonicalItems? room items).map .array
  | .object members =>
    match room with
    | 0 => none
    | room + 1 => (canonicalMembers? room members).map fun ms => ofMembers (Entries.ofList ms)
  | doc => some doc

def canonicalItems? (room : Nat) : List Json → Option (List Json)
  | [] => some []
  | item :: rest => do return (← item.canonical? room) :: (← canonicalItems? room rest)

def canonicalMembers? (room : Nat) : List (String × Json) → Option (List (String × Json))
  | [] => some []
  | (name, value) :: rest => do
    return (← unspell? name, ← value.canonical? room) :: (← canonicalMembers? room rest)

end

end AssetQuery.Json
