import AssetQuery.Proofs.Except
import AssetQuery.Proofs.Primitive.Json
import AssetQuery.Proofs.Ty.Label

/-!
# Types that were read are read again

Reading a label drops white space and takes an alias for the name that is written, but it keeps the
brackets as they are. So a key that is split off where its bracket closes is split off there again
from the label that is written, and a type that any label is read as is read from its own label.
-/

namespace AssetQuery.Ty

/-- The brackets of a text. -/
def brackets (text : List Char) : List Char := text.filter fun c => c == '[' || c == ']'

section Brackets

private theorem brackets_append (front back : List Char) :
    brackets (front ++ back) = brackets front ++ brackets back := List.filter_append _ _

private theorem brackets_dropWhile_isBlank (text : List Char) :
    brackets (text.dropWhile isBlank) = brackets text := by
  induction text with
  | nil => rfl
  | cons c rest ih =>
    rw [List.dropWhile_cons]
    split
    · next hc =>
      have hopen : c ≠ '[' := by
        rintro rfl
        cases hc
      have hclose : c ≠ ']' := by
        rintro rfl
        cases hc
      rw [ih]
      simp [brackets, hopen, hclose]
    · rfl

theorem brackets_trim (text : List Char) : brackets (trim text) = brackets text := by
  have hfront := brackets_dropWhile_isBlank text
  have hback := brackets_dropWhile_isBlank (text.dropWhile isBlank).reverse
  simp only [brackets, List.filter_reverse] at hfront hback ⊢
  rw [trim, List.filter_reverse, hback, List.reverse_reverse, hfront]

end Brackets

/-- How many brackets are open after a text, where `depth` are open before it. There is no number
if the text closes more brackets than are open. -/
def opened : (depth : Nat) → (text : List Char) → Option Nat
  | depth, [] => some depth
  | depth, c :: rest =>
    if c = '[' then opened (depth + 1) rest
    else if c = ']' then
      match depth with
      | 0 => none
      | depth + 1 => opened depth rest
    else opened depth rest

section Opened

variable {text key value : List Char}

private theorem opened_brackets (depth : Nat) (text : List Char) :
    opened depth (brackets text) = opened depth text := by
  -- the text is empty or starts with `[`, with one `]` too many, with another `]`, or otherwise
  fun_induction opened depth text with
  | case1 => rfl
  | case2 depth rest ih => simpa [brackets, opened] using ih
  | case3 => simp [brackets, opened]
  | case4 rest depth _ ih => simpa [brackets, opened] using ih
  | case5 depth c rest hopen hclose ih =>
    rw [← ih]
    simp [brackets, hopen, hclose]

private theorem opened_add {depth after : Nat} (h : opened depth text = some after) (around : Nat) :
    opened (depth + around) text = some (after + around) := by
  fun_induction opened depth text with
  | case1 =>
    cases h
    rfl
  | case2 depth rest ih =>
    have hdepth : depth + around + 1 = depth + 1 + around := by omega
    simpa [opened, hdepth] using ih h
  | case3 => cases h
  | case4 rest depth _ ih =>
    have hdepth : depth + 1 + around = depth + around + 1 := by omega
    simpa [opened, hdepth] using ih h
  | case5 depth c rest hopen hclose ih => simpa [opened, hopen, hclose] using ih h

private theorem splitKey_of_opened {depth after : Nat} (h : opened depth text = some after)
    (rest : List Char) :
    splitKey depth (text ++ rest) =
      (splitKey after rest).map fun (key, value) => (text ++ key, value) := by
  fun_induction opened depth text with
  | case1 =>
    cases h
    simp
  | case2 depth text ih => simp [splitKey, ih h, Function.comp_def]
  | case3 => cases h
  | case4 text depth _ ih => simp [splitKey, ih h, Function.comp_def]
  | case5 depth c text hopen hclose ih =>
    simp [splitKey, hopen, hclose, ih h, Function.comp_def]

private theorem balanced_of_opened (h : opened 0 text = some 0) : Balanced text := by
  intro depth rest
  have hdepth := opened_add h depth
  rw [Nat.zero_add] at hdepth
  exact splitKey_of_opened hdepth rest

private theorem exists_of_map_cons {c : Char} {o : Option (List Char × List Char)}
    (h : (o.map fun (key, value) => (c :: key, value)) = some (key, value)) :
    ∃ key', key = c :: key' ∧ o = some (key', value) := by
  obtain ⟨⟨key', value'⟩, hsplit, heq⟩ := Option.map_eq_some_iff.mp h
  cases heq
  exact ⟨key', rfl, hsplit⟩

private theorem opened_of_splitKey {depth : Nat} (h : splitKey depth text = some (key, value)) :
    opened depth key = some 0 := by
  -- the key ends in the third case, with a bracket that is not open
  fun_induction splitKey depth text generalizing key value with
  | case1 => cases h
  | case2 depth rest ih =>
    obtain ⟨key', rfl, hsplit⟩ := exists_of_map_cons h
    simpa [opened] using ih hsplit
  | case3 =>
    cases h
    rfl
  | case4 rest depth _ ih =>
    obtain ⟨key', rfl, hsplit⟩ := exists_of_map_cons h
    simpa [opened] using ih hsplit
  | case5 depth c rest hopen hclose ih =>
    obtain ⟨key', rfl, hsplit⟩ := exists_of_map_cons h
    simpa [opened, hopen, hclose] using ih hsplit

end Opened

section Labels

/-- The text that has a shape. -/
def LabelShape.chars : LabelShape → List Char
  | array elem => "[]".toList ++ elem
  | map rest => "map[".toList ++ rest
  | name text => text

theorem LabelShape.chars_of (text : List Char) : (LabelShape.of text).chars = text := by
  unfold LabelShape.of
  split <;> rfl

/-- What a label is read as, by the shape that it has without the white space around it. -/
inductive ReadAs : List Char → Ty → Prop
  | array {text elem : List Char} {t : Ty} : LabelShape.of (trim text) = .array elem →
    ReadAs elem t → ReadAs text (array t)
  | map {text rest key value : List Char} {t u : Ty} : LabelShape.of (trim text) = .map rest →
    splitKey 0 rest = some (key, value) → ReadAs key t → ReadAs value u → ReadAs text (map t u)
  | name {text : List Char} : LabelShape.of (trim text) = .name (trim text) → trim text ≠ [] →
    ReadAs text (ofName (String.ofList (trim text)))

theorem readAs_of_ofLabelChars {text : List Char} {t : Ty} (h : ofLabelChars text = .ok t) :
    ReadAs text t := by
  fun_induction ofLabelChars text generalizing t with
  | case1 text elem hshape ih =>
    obtain ⟨t, helem, h⟩ := Except.bind_eq_ok.mp h
    cases h
    exact .array hshape (ih helem)
  | case2 => cases h
  | case3 text rest hshape key value hsplit ihkey ihvalue =>
    obtain ⟨t, hkey, h⟩ := Except.bind_eq_ok.mp h
    obtain ⟨u, hvalue, h⟩ := Except.bind_eq_ok.mp h
    cases h
    exact .map hshape hsplit (ihkey hkey) (ihvalue hvalue)
  | case4 => cases h
  | case5 text name hname hshape =>
    cases h
    obtain rfl : trim text = name := by
      rw [← LabelShape.chars_of (trim text), hshape, LabelShape.chars]
    exact .name hshape fun h => hname h

variable {text : List Char}

private theorem brackets_shape (text : List Char) :
    brackets (LabelShape.of (trim text)).chars = brackets text := by
  rw [LabelShape.chars_of, brackets_trim]

private theorem brackets_ofName (name : String) :
    brackets (ofName name).labelChars = brackets name.toList := by
  by_cases hname : name ∈ keywords
  · have hkeywords : ∀ name ∈ keywords,
        brackets (ofName name).labelChars = brackets name.toList := by decide
    exact hkeywords name hname
  · rw [ofName_of_not_mem hname]
    rfl

private theorem ReadAs.brackets_labelChars {t : Ty} (h : ReadAs text t) :
    brackets t.labelChars = brackets text := by
  induction h with
  | @array text elem t hshape helem ih =>
    rw [← brackets_shape text, hshape]
    show brackets ("[]".toList ++ t.labelChars) = brackets ("[]".toList ++ elem)
    rw [brackets_append, brackets_append, ih]
  | @map text rest key value t u hshape hsplit hkey hvalue ihkey ihvalue =>
    rw [← brackets_shape text, hshape, eq_of_splitKey hsplit]
    show brackets ("map[".toList ++ t.labelChars ++ "]".toList ++ u.labelChars) =
      brackets ("map[".toList ++ (key ++ ("]".toList ++ value)))
    simp only [brackets_append, ihkey, ihvalue, List.append_assoc]
  | @name text hshape hne => rw [brackets_ofName, String.toList_ofList, brackets_trim]

private theorem legible_ofName {name : String} (htrimmed : Trimmed name.toList)
    (hshape : LabelShape.of name.toList = .name name.toList) : (ofName name).Legible := by
  by_cases hname : name ∈ keywords
  · have hkeywords : ∀ name ∈ keywords, (ofName name).Legible := by
      simp [keywords, ofName, Legible]
    exact hkeywords name hname
  · have hresource := ofName_of_not_mem hname
    rw [hresource]
    exact ⟨htrimmed, hshape, hresource⟩

/-- No name in a type that was read gets in the way of reading its label. -/
theorem ReadAs.legible {t : Ty} (h : ReadAs text t) : t.Legible := by
  induction h with
  | array hshape helem ih => exact ih
  | @map text rest key value t u hshape hsplit hkey hvalue ihkey ihvalue =>
    have hopened : opened 0 t.labelChars = some 0 := by
      rw [← opened_brackets, hkey.brackets_labelChars, opened_brackets]
      exact opened_of_splitKey hsplit
    exact ⟨ihkey, balanced_of_opened hopened, ihvalue⟩
  | name hshape hne =>
    apply legible_ofName
    · rw [String.toList_ofList]
      exact trimmed_trim hne
    · rw [String.toList_ofList]
      exact hshape

private theorem labelled_iff_legible {t : Ty} : t.Labelled ↔ t.Legible :=
  ⟨fun h => (readAs_of_ofLabelChars h).legible, labelled_of_legible⟩

/-- What becomes of a type that is written as its label and read again, a number of times. -/
def rewritten (t : Ty) : (times : Nat) → Except TyError Ty
  | 0 => .ok t
  | times + 1 => do ofLabel (← t.rewritten times).label

/-- A type that was read from any label is read from its own, also where that stands in JSON, and
however often it is written and read. -/
theorem ofLabel_stable {label : String} {t : Ty} (h : ofLabel label = .ok t) :
    ofLabel t.label = .ok t ∧ (∀ times, t.rewritten times = .ok t) ∧
      ∀ room, decoder room t.toJson = some t := by
  have hlabelled : t.Labelled := labelled_iff_legible.mpr (readAs_of_ofLabelChars h).legible
  refine ⟨hlabelled, fun times => ?_, fun room => ?_⟩
  · induction times with
    | zero => rfl
    | succ times ih =>
      rw [rewritten, ih]
      exact hlabelled
  · exact (restores_toJson room t).iff.mpr ⟨Nat.zero_le room, hlabelled⟩

/-- A label with white space, and brackets in names and in a key, and what is written for it. -/
theorem ofLabel_stable_boxes :
    let t := map (resource "a[b ]c") (array (resource "x]y"))
    ofLabel " map[ a[b ]c ]\t[] x]y" = .ok t ∧ t.label = "map[a[b ]c][]x]y" ∧
      ofLabel t.label = .ok t ∧ t.rewritten 7 = .ok t := by
  intro t
  have hread : ofLabel " map[ a[b ]c ]\t[] x]y" = .ok t := by decide +kernel
  obtain ⟨hagain, hrewritten, _⟩ := ofLabel_stable hread
  exact ⟨hread, rfl, hagain, hrewritten 7⟩

end Labels

end AssetQuery.Ty
