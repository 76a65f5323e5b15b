import AssetQuery.Text.Basic
import AssetQuery.Ty.Basic

/-!
# Type labels

The readable name of a type, as it stands in diagnostics, schemas and listings, and reading it
back. White space around a label, at every level of nesting, is ignored; a name that is no keyword
is that of a resource.
-/

namespace AssetQuery.Ty

def labelChars : Ty → List Char
  | nil => "null".toList
  | bool => "bool".toList
  | int => "int".toList
  | float => "float".toList
  | string => "string".toList
  | time => "time".toList
  | score => "score".toList
  | array elem => "[]".toList ++ elem.labelChars
  | map key value => "map[".toList ++ key.labelChars ++ "]".toList ++ value.labelChars
  | resource name => name.toList
  | functionLike => "function".toList
  | any => "any".toList
  | ref => "ref".toList
  | arrayLike => "array".toList
  | mapLike => "map".toList
  | resourceLike => "resource".toList

def label (t : Ty) : String := String.ofList t.labelChars

/-- The type that a label without structure names, the empty one excepted. -/
def ofName (name : String) : Ty :=
  match name with
  | "null" | "nil" => nil
  | "bool" => bool
  | "int" => int
  | "float" => float
  | "string" => string
  | "time" => time
  | "score" => score
  | "function" => functionLike
  | "any" => any
  | "ref" => ref
  | "array" => arrayLike
  | "map" => mapLike
  | "resource" => resourceLike
  | name => resource name

/-- Splits the text after `map[` at the bracket that closes the key, `depth` brackets being open
inside it. -/
def splitKey (depth : Nat) : List Char → Option (List Char × List Char)
  | [] => none
  | c :: rest =>
    if c = '[' then (splitKey (depth + 1) rest).map fun (key, value) => (c :: key, value)
    else if c = ']' then
      match depth with
      | 0 => some ([], rest)
      | depth + 1 => (splitKey depth rest).map fun (key, value) => (c :: key, value)
    else (splitKey depth rest).map fun (key, value) => (c :: key, value)

theorem eq_of_splitKey {depth : Nat} {text key value : List Char}
    (h : splitKey depth text = some (key, value)) : text = key ++ ']' :: value := by
  induction text generalizing depth key with
  | nil => simp [splitKey] at h
  | cons c rest ih =>
    simp only [splitKey] at h
    split at h
    · obtain ⟨⟨k, v⟩, hk, heq⟩ := Option.map_eq_some_iff.mp h
      cases heq
      simp [ih hk]
    · split at h
      · next hc =>
        cases depth with
        | zero => simp_all
        | succ depth =>
          obtain ⟨⟨k, v⟩, hk, heq⟩ := Option.map_eq_some_iff.mp h
          cases heq
          simp [ih hk]
      · obtain ⟨⟨k, v⟩, hk, heq⟩ := Option.map_eq_some_iff.mp h
        cases heq
        simp [ih hk]

/-- The three shapes that a trimmed label can have. -/
inductive LabelShape where
  | array (elem : List Char)
  | map (rest : List Char)
  | name (text : List Char)

def LabelShape.of : List Char → LabelShape
  | '[' :: ']' :: elem => .array elem
  | 'm' :: 'a' :: 'p' :: '[' :: rest => .map rest
  | text => .name text

private theorem LabelShape.length_lt_of_array {text elem : List Char}
    (h : LabelShape.of text = .array elem) : elem.length < text.length := by
  unfold LabelShape.of at h
  split at h
  · cases h
    show elem.length < elem.length + 1 + 1
    omega
  · cases h
  · cases h

theorem LabelShape.length_lt_of_map {text rest : List Char}
    (h : LabelShape.of text = .map rest) : rest.length < text.length := by
  unfold LabelShape.of at h
  split at h
  · cases h
  · cases h
    show rest.length < rest.length + 1 + 1 + 1 + 1
    omega
  · cases h

/-- The type that a label names. -/
def ofLabelChars (label : List Char) : Except TyError Ty :=
  match _hs : LabelShape.of (trim label) with
  | .array elem => do return array (← ofLabelChars elem)
  | .map rest =>
    match _hk : splitKey 0 rest with
    | none => .error (.invalid (.unterminatedKey (String.ofList (trim label))))
    | some (keyText, valueText) => do
      let key ← ofLabelChars keyText
      let value ← ofLabelChars valueText
      return map key value
  | .name [] => .error (.invalid .emptyLabel)
  | .name text => .ok (ofName (String.ofList text))
termination_by label.length
decreasing_by
  · have := LabelShape.length_lt_of_array _hs
    have := length_trim_le label
    omega
  · have := LabelShape.length_lt_of_map _hs
    have := length_trim_le label
    have := congrArg List.length (eq_of_splitKey _hk)
    simp at this
    omega
  · have := LabelShape.length_lt_of_map _hs
    have := length_trim_le label
    have := congrArg List.length (eq_of_splitKey _hk)
    simp at this
    omega

def ofLabel (label : String) : Except TyError Ty := ofLabelChars label.toList

/-- The element type of an array or the value type of a map, or an error that names
the type. -/
def child (t : Ty) : Except TyError Ty :=
  match t.child? with
  | some c => .ok c
  | none => .error (.notComposite t)

def key (t : Ty) : Except TyError Ty :=
  match t.key? with
  | some k => .ok k
  | none => .error (.notMap t)

end AssetQuery.Ty

namespace AssetQuery

def TyError.message : TyError → String
  | notComposite t => s!"type '{t.label}' has no child type"
  | notMap t => s!"type '{t.label}' has no key type"
  | invalid fault => s!"invalid type encoding: {fault.message}"
  | nameTooLong length =>
    s!"resource name of {length} bytes exceeds the {maxNameLength} byte limit"

end AssetQuery
