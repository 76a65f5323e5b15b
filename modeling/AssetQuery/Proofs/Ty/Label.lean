import AssetQuery.Ty.Label
import Mathlib.Data.List.DropRight

/-!
# Labels read back

The label of a type is read as that type if the names of the resources in it do not get in the way:
each is read as a name, and no key ends before its label does. Plain names never do: they are not
empty, have no white space at their ends and no brackets, and are no keywords. The names that
registries accept need not be plain.
-/

namespace AssetQuery

variable {named : String → Prop}

/-- A text that is not trimmed any further: it has a first and a last character, which are no white
space. -/
structure Trimmed (text : List Char) : Prop where
  first : text.head?.any fun c => !isBlank c
  last : text.getLast?.any fun c => !isBlank c

theorem Trimmed.nonempty {text : List Char} (h : Trimmed text) : text ≠ [] := by
  rintro rfl
  cases h.first

theorem Trimmed.trim_eq {text : List Char} (h : Trimmed text) : trim text = text := by
  have hfront : text.dropWhile isBlank = text := by
    obtain ⟨c, rest, rfl⟩ := List.exists_cons_of_ne_nil h.nonempty
    have hc : isBlank c = false := Bool.not_eq_true' _ ▸ h.first
    rw [List.dropWhile_cons, hc]
    rfl
  have hback : text.rdropWhile isBlank = text := by
    refine List.rdropWhile_eq_self_iff.mpr fun hne => ?_
    have hlast := h.last
    rw [List.getLast?_eq_getLast_of_ne_nil hne, Option.any_some, Bool.not_eq_true'] at hlast
    rw [hlast]
    exact Bool.false_ne_true
  rw [trim, hfront]
  exact hback

theorem trimmed_trim {text : List Char} (h : trim text ≠ []) : Trimmed (trim text) where
  first := by
    obtain ⟨c, rest, htrim⟩ := List.exists_cons_of_ne_nil h
    -- the first character is the first one after the white space in front
    obtain ⟨back, hfront⟩ : c :: rest <+: text.dropWhile isBlank :=
      htrim ▸ List.rdropWhile_prefix isBlank _
    have hne : text.dropWhile isBlank ≠ [] := hfront ▸ List.cons_ne_nil c _
    have hc := List.head_dropWhile_not isBlank hne
    simp only [← hfront, List.cons_append, List.head_cons] at hc
    simp [htrim, hc]
  last := by
    have hlast := List.rdropWhile_last_not isBlank (text.dropWhile isBlank) h
    rw [List.getLast?_eq_getLast_of_ne_nil h, Option.any_some, Bool.not_eq_true']
    exact Bool.eq_false_iff.mpr hlast

private theorem Trimmed.append {front back : List Char}
    (hfront : front.head?.any fun c => !isBlank c)
    (hback : Trimmed back) : Trimmed (front ++ back) where
  first := by
    cases front with
    | nil => cases hfront
    | cons c rest => exact hfront
  last := by rw [List.getLast?_append_of_ne_nil _ hback.nonempty]; exact hback.last

/-- Whether there are no brackets in a text. -/
def unbracketed (text : List Char) : Bool := text.all fun c => c != '[' && c != ']'

theorem unbracketed_iff {text : List Char} :
    unbracketed text ↔ ∀ c ∈ text, c ≠ '[' ∧ c ≠ ']' := by
  simp [unbracketed]

/-- Whether a name stands for a resource wherever it is in a label. -/
structure PlainName (name : String) : Prop where
  trimmed : Trimmed name.toList
  unbracketed : unbracketed name.toList
  resource : Ty.ofName name = .resource name

namespace Ty

/-- Whether the resources that a type names are all so. -/
def Names (named : String → Prop) : Ty → Prop
  | array elem => elem.Names named
  | map key value => key.Names named ∧ value.Names named
  | resource name => named name
  | _ => True

private theorem Names.imp {named' : String → Prop} (h : ∀ name, named name → named' name) {t : Ty}
    (ht : t.Names named) : t.Names named' := by
  induction t with
  | array elem ih => exact ih ht
  | map key value ihkey ihvalue => exact ⟨ihkey ht.1, ihvalue ht.2⟩
  | resource name => exact h name ht
  | _ => trivial

/-- The texts that name no resource in a label. -/
def keywords : List String :=
  ["null", "nil", "bool", "int", "float", "string", "time", "score", "function", "any", "ref",
    "array", "map", "resource"]

theorem ofName_of_not_mem {name : String} (h : name ∉ keywords) : ofName name = .resource name := by
  unfold ofName
  split
  all_goals first
    | rfl
    | exact absurd (by decide) h

/-- Whether the label of a type is read as that type. -/
def Labelled (t : Ty) : Prop := ofLabel t.label = .ok t

/-- Whether every bracket that a text opens is closed in it, as far as splitting can tell. -/
def Balanced (text : List Char) : Prop :=
  ∀ depth rest, splitKey depth (text ++ rest) =
    (splitKey depth rest).map fun (key, value) => (text ++ key, value)

section Balanced

variable {front back text : List Char}

theorem balanced_nil : Balanced [] := by
  intro depth rest
  simp

private theorem Balanced.append (hfront : Balanced front) (hback : Balanced back) :
    Balanced (front ++ back) := by
  intro depth rest
  rw [List.append_assoc, hfront, hback, Option.map_map]
  simp [Function.comp_def]

private theorem balanced_of_unbracketed (h : unbracketed text) : Balanced text := by
  induction text with
  | nil => exact balanced_nil
  | cons c rest ih =>
    obtain ⟨⟨hopen, hclose⟩, hrest⟩ := List.forall_mem_cons.mp (unbracketed_iff.mp h)
    intro depth after
    simp only [List.cons_append, splitKey, if_neg hopen, if_neg hclose]
    rw [ih (unbracketed_iff.mpr hrest), Option.map_map]
    rfl

private theorem Balanced.bracketed (h : Balanced text) : Balanced ('[' :: (text ++ [']'])) := by
  intro depth rest
  have hopen : splitKey depth ('[' :: (text ++ [']'] ++ rest)) =
      (splitKey (depth + 1) (text ++ [']'] ++ rest)).map
        fun (key, value) => ('[' :: key, value) := rfl
  have hclose : splitKey (depth + 1) (']' :: rest) =
      (splitKey depth rest).map fun (key, value) => (']' :: key, value) := rfl
  rw [List.cons_append, hopen, List.append_assoc, h, List.singleton_append, hclose]
  simp [Function.comp_def]

private theorem Balanced.splitKey_eq (h : Balanced text) (rest : List Char) :
    splitKey 0 (text ++ ']' :: rest) = some (text, rest) := by
  rw [h, show splitKey 0 (']' :: rest) = some ([], rest) from rfl, Option.map_some]
  simp

end Balanced

structure LegibleName (name : String) : Prop where
  trimmed : Trimmed name.toList
  shape : LabelShape.of name.toList = .name name.toList
  resource : ofName name = .resource name

/-- Whether the names in a type do not get in the way of reading its label: each is read as a name,
and a key closes the brackets that it opens, and no others. -/
def Legible : Ty → Prop
  | array elem => elem.Legible
  | map key value => key.Legible ∧ Balanced key.labelChars ∧ value.Legible
  | resource name => LegibleName name
  | _ => True

section Labels

theorem labelChars_map (key value : Ty) : (map key value).labelChars =
    "map".toList ++ ('[' :: (key.labelChars ++ [']']) ++ value.labelChars) := by
  show "map[".toList ++ key.labelChars ++ "]".toList ++ value.labelChars = _
  simp

private theorem labelChars_balanced {t : Ty} (h : t.Names PlainName) : Balanced t.labelChars := by
  induction t with
  | array elem ih => exact (Balanced.bracketed balanced_nil).append (ih h)
  | map key value ihkey ihvalue =>
    have hmap : Balanced "map".toList := balanced_of_unbracketed rfl
    have hkey := (ihkey h.1).bracketed
    rw [labelChars_map]
    exact hmap.append (hkey.append (ihvalue h.2))
  | resource name => exact balanced_of_unbracketed h.unbracketed
  | _ => exact balanced_of_unbracketed rfl

private theorem labelChars_trimmed {t : Ty} (h : t.Legible) : Trimmed t.labelChars := by
  induction t with
  | array elem ih => exact .append rfl (ih h)
  | map key value ihkey ihvalue =>
    rw [labelChars_map]
    exact .append rfl (.append rfl (ihvalue h.2.2))
  | resource name => exact h.trimmed
  | _ => exact ⟨rfl, rfl⟩

theorem shape_of_unbracketed {text : List Char} (h : unbracketed text) :
    LabelShape.of text = .name text := by
  have h := unbracketed_iff.mp h
  unfold LabelShape.of
  split
  · exact absurd rfl (h '[' List.mem_cons_self).1
  · exact absurd rfl (h '[' (by simp)).1
  · rfl

section Reading

variable {text : List Char}

private theorem ofLabelChars_name (htrimmed : Trimmed text) (h : LabelShape.of text = .name text) :
    ofLabelChars text = .ok (ofName (String.ofList text)) := by
  have hshape : LabelShape.of (trim text) = .name text := by
    rw [htrimmed.trim_eq, h]
  rw [ofLabelChars]
  split
  · simp_all
  · simp_all
  · next heq =>
    rw [hshape] at heq
    exact absurd (LabelShape.name.inj heq) htrimmed.nonempty
  · next heq =>
    rw [hshape] at heq
    rw [LabelShape.name.inj heq]

private theorem ofLabelChars_array {elem : List Char} (htrimmed : Trimmed text)
    (h : LabelShape.of text = .array elem) :
    ofLabelChars text = (do return array (← ofLabelChars elem)) := by
  rw [← htrimmed.trim_eq] at h
  rw [ofLabelChars]
  split
  · next heq =>
    rw [h] at heq
    cases heq
    rfl
  all_goals simp_all

private theorem ofLabelChars_map {rest key value : List Char} (htrimmed : Trimmed text)
    (h : LabelShape.of text = .map rest) (hsplit : splitKey 0 rest = some (key, value)) :
    ofLabelChars text =
      (do return map (← ofLabelChars key) (← ofLabelChars value)) := by
  rw [← htrimmed.trim_eq] at h
  rw [ofLabelChars]
  split
  · simp_all
  · next heq =>
    rw [h] at heq
    cases heq
    split <;> simp_all
  all_goals simp_all

end Reading

theorem labelled_of_legible {t : Ty} (h : t.Legible) : t.Labelled := by
  rw [Labelled, ofLabel, label, String.toList_ofList]
  induction t with
  | array elem ih =>
    have hshape : LabelShape.of (array elem).labelChars = .array elem.labelChars := rfl
    rw [ofLabelChars_array (labelChars_trimmed h) hshape, ih h]
    rfl
  | map key value ihkey ihvalue =>
    obtain ⟨hkey, hbalanced, hvalue⟩ := h
    have hsplit := hbalanced.splitKey_eq value.labelChars
    have hshape : LabelShape.of (map key value).labelChars =
        .map (key.labelChars ++ ']' :: value.labelChars) := by
      rw [labelChars_map, List.cons_append, List.append_assoc]
      rfl
    have htrimmed := labelChars_trimmed (t := map key value) ⟨hkey, hbalanced, hvalue⟩
    rw [ofLabelChars_map htrimmed hshape hsplit, ihkey hkey, ihvalue hvalue]
    rfl
  | resource name =>
    have hname := ofLabelChars_name h.trimmed h.shape
    rwa [String.ofList_toList, h.resource] at hname
  | _ => exact (ofLabelChars_name (labelChars_trimmed h) (shape_of_unbracketed rfl)).trans rfl

private theorem legible_of_plain {t : Ty} (h : t.Names PlainName) : t.Legible := by
  induction t with
  | array elem ih => exact ih h
  | map key value ihkey ihvalue => exact ⟨ihkey h.1, labelChars_balanced h.1, ihvalue h.2⟩
  | resource name => exact ⟨h.trimmed, shape_of_unbracketed h.unbracketed, h.resource⟩
  | _ => trivial

/-- The label of a type is read as that type if all names in it are plain. -/
theorem labelled_of_plain {t : Ty} (h : t.Names PlainName) : t.Labelled :=
  labelled_of_legible (legible_of_plain h)

/-- A type is read back from its label if the names of the resources in it are not empty and have no
white space at their ends and no brackets, and if none of them is a keyword. -/
theorem ofLabel_label {t : Ty} (h : t.Names fun name =>
    Trimmed name.toList ∧ unbracketed name.toList ∧ name ∉ keywords) :
    ofLabel t.label = .ok t := by
  have hplain : t.Names PlainName := h.imp fun name ⟨htrimmed, hunbracketed, hkeyword⟩ =>
    ⟨htrimmed, hunbracketed, ofName_of_not_mem hkeyword⟩
  exact labelled_of_plain hplain

/-- A map of maps whose keys are composed themselves, with names that almost are keywords. -/
theorem ofLabel_label_nested :
    let named (name : String) :=
      Trimmed name.toList ∧ unbracketed name.toList ∧ name ∉ keywords
    let t := map (map string (array (resource "Map"))) (map (array (resource "two words")) any)
    t.Names named ∧ t.label = "map[map[string][]Map]map[[]two words]any" ∧
      ofLabel t.label = .ok t := by
  intro named t
  have hnames : t.Names named :=
    ⟨⟨trivial, ⟨rfl, rfl⟩, rfl, by decide⟩, ⟨⟨rfl, rfl⟩, rfl, by decide⟩, trivial⟩
  exact ⟨hnames, rfl, ofLabel_label hnames⟩

end Labels

end Ty

end AssetQuery
