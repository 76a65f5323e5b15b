import AssetQuery.Json.Basic
import AssetQuery.Proofs.Json.Number
import AssetQuery.Proofs.Text.Separated
import Mathlib.Logic.Function.Basic

/-!
# Documents on one line

Which document it is, and where it ends, can be told from a text that starts with one that is
written on one line. Of numbers only the characters matter.
-/

namespace AssetQuery.Json

/-- Whether a character may stand in a number. -/
def isNumeric (c : Char) : Bool :=
  isDigit c || c = '-' || c = '+' || c = '.' || c = 'e' || c = 'E'

/-- Whether a text goes on with nothing that could belong to a number. -/
def Parted (text : List Char) : Prop := ∀ c ∈ text.head?, isNumeric c = false

/-- Whether a document is spelled so that its parts end where they do. -/
inductive Delimited : Json → Prop
  | null : Delimited .null
  | bool (b : Bool) : Delimited (.bool b)
  | number {spelling : String} : spelling.toList ≠ [] → (∀ c ∈ spelling.toList, isNumeric c) →
    Delimited (.number spelling)
  | string {spelling : String} : Closed spelling → Delimited (.string spelling)
  | array {items : List Json} : (∀ item ∈ items, Delimited item) → Delimited (.array items)
  | object {members : List (String × Json)} : (∀ m ∈ members, Closed m.1) →
    (∀ m ∈ members, Delimited m.2) → Delimited (.object members)

theorem spell_injective : Function.Injective spell := by
  intro s s' h
  have hread := congrArg unspell? h
  rw [unspell?_spell, unspell?_spell] at hread
  exact Option.some.inj hread

theorem ofText_injective : Function.Injective ofText := fun _ _ h =>
  spell_injective (Json.string.inj h)

theorem delimited_ofText (s : String) : (ofText s).Delimited := .string (closed_spell s)

theorem isNumeric_of_isDigit {c : Char} (h : isDigit c) : isNumeric c := by
  simp [isNumeric, h]

theorem isDigit_or_of_mem_toString (n : Int) : ∀ c ∈ (toString n).toList, isDigit c ∨ c = '-' := by
  intro c hc
  rw [toList_toString, List.mem_append] at hc
  rcases hc with hc | hc
  · split at hc
    · exact .inr (List.mem_singleton.mp hc)
    · cases hc
  · exact .inl (isDigit_of_mem_toDigits c hc)

theorem signed_injective {p p' : Prop} [Decidable p] [Decidable p'] {text text' : List Char}
    (h : text.head? ≠ some '-') (h' : text'.head? ≠ some '-')
    (heq : (if p then ['-'] else []) ++ text = (if p' then ['-'] else []) ++ text') :
    (p ↔ p') ∧ text = text' := by
  split at heq <;> split at heq
  · next hp hp' => exact ⟨iff_of_true hp hp', (List.cons.inj heq).2⟩
  · exact absurd (congrArg List.head? heq).symm h'
  · exact absurd (congrArg List.head? heq) h
  · next hp hp' => exact ⟨iff_of_false hp hp', heq⟩

theorem ofInt_injective : Function.Injective ofInt := by
  intro n n' h
  have hhead (n : Nat) : (Nat.toDigits 10 n).head? ≠ some '-' := by
    obtain ⟨c, cs, hdigits, hc⟩ := exists_toDigits_eq_cons n
    rw [hdigits]
    rintro ⟨⟩
    cases hc
  have heq := congrArg String.toList (Json.number.inj h)
  rw [toList_toString, toList_toString] at heq
  obtain ⟨hsign, hdigits⟩ := signed_injective (hhead _) (hhead _) heq
  have habs : n.natAbs = n'.natAbs := by
    rw [← Nat.ofDigitChars_ten_toDigits (n := n.natAbs), hdigits, Nat.ofDigitChars_ten_toDigits]
  omega

theorem delimited_ofInt (n : Int) : (ofInt n).Delimited := by
  obtain ⟨c, cs, hdigits, hc⟩ := exists_toDigits_eq_cons n.natAbs
  refine .number ?_ fun c hc => ?_
  · rw [toList_toString, hdigits]
    simp
  · rcases isDigit_or_of_mem_toString n c hc with hdigit | rfl
    · exact isNumeric_of_isDigit hdigit
    · rfl

theorem delimited_ofMembers {members : List (String × Json)}
    (h : ∀ m ∈ members, m.2.Delimited) : (ofMembers members).Delimited := by
  refine .object (fun m hm => ?_) fun m hm => ?_
  · obtain ⟨m, _, rfl⟩ := List.mem_map.mp hm
    exact closed_spell _
  · obtain ⟨member, hmember, rfl⟩ := List.mem_map.mp hm
    exact h member hmember

/-- A character for each kind of documents. -/
def lead : Json → Char
  | null => 'n'
  | bool _ => 't'
  | number _ => '0'
  | string _ => '"'
  | array _ => '['
  | object _ => '\x7b'

/-- The character for the kind of documents that start with some character. -/
def leadOf (c : Char) : Char := if isNumeric c then '0' else if c = 'f' then 't' else c

private theorem lead_ne_close (doc : Json) : doc.lead ≠ ']' := by
  cases doc <;> simp [lead]

theorem Delimited.exists_eq_cons {doc : Json} (h : doc.Delimited) :
    ∃ c cs, doc.compactChars = c :: cs ∧ leadOf c = doc.lead := by
  cases h with
  | null => exact ⟨'n', _, by rw [compactChars]; rfl, rfl⟩
  | bool b =>
    cases b with
    | false => exact ⟨'f', _, by rw [compactChars]; rfl, rfl⟩
    | true => exact ⟨'t', _, by rw [compactChars]; rfl, rfl⟩
  | @number spelling hne hall =>
    cases hchars : spelling.toList with
    | nil => exact absurd hchars hne
    | cons c cs =>
      refine ⟨c, cs, by rw [compactChars, hchars], ?_⟩
      rw [leadOf, if_pos (hall c (hchars ▸ List.mem_cons_self))]
      rfl
  | string => exact ⟨'"', _, by rw [compactChars, quote], rfl⟩
  | array => exact ⟨'[', _, by rw [compactChars], rfl⟩
  | object => exact ⟨'\x7b', _, by rw [compactChars], rfl⟩

private theorem Delimited.ne_close {doc : Json} (h : doc.Delimited) (more rest : List Char) :
    doc.compactChars ++ more ≠ ']' :: rest := by
  obtain ⟨c, cs, hchars, hc⟩ := h.exists_eq_cons
  rw [hchars]
  rintro ⟨⟩
  exact lead_ne_close doc hc.symm

/-- What is written of a member. -/
def memberChars (m : String × Json) : List Char := quote m.1 ++ ':' :: m.2.compactChars

private theorem compactItems_eq (items : List Json) :
    compactItems items = [','].intercalate (items.map compactChars) := by
  induction items with
  | nil => rw [compactItems, List.map_nil, List.intercalate_nil]
  | cons item items ih =>
    cases items with
    | nil => rw [compactItems, List.map_singleton, List.intercalate_singleton]
    | cons next items =>
      rw [List.map_cons] at ih
      rw [compactItems, ih, List.map_cons, List.map_cons, List.intercalate_cons_cons] <;> simp

private theorem compactMembers_eq (members : List (String × Json)) :
    compactMembers members = [','].intercalate (members.map memberChars) := by
  induction members with
  | nil => rw [compactMembers, List.map_nil, List.intercalate_nil]
  | cons m members ih =>
    cases members with
    | nil => rw [compactMembers, List.map_singleton, List.intercalate_singleton, memberChars]
    | cons next members =>
      rw [List.map_cons] at ih
      rw [compactMembers, ih, List.map_cons, List.map_cons, List.intercalate_cons_cons] <;>
        simp [memberChars]

theorem parted_cons {c : Char} (h : isNumeric c = false) (rest : List Char) :
    Parted (c :: rest) := by
  rintro _ ⟨⟩
  exact h

section Told

variable {doc doc' : Json} {rest rest' : List Char}

private theorem lead_eq (h : doc.Delimited) (h' : doc'.Delimited)
    (heq : doc.compactChars ++ rest = doc'.compactChars ++ rest') : doc.lead = doc'.lead := by
  obtain ⟨c, cs, hchars, hc⟩ := h.exists_eq_cons
  obtain ⟨c', cs', hchars', hc'⟩ := h'.exists_eq_cons
  rw [hchars, hchars', List.cons_append, List.cons_append] at heq
  rw [← hc, ← hc', (List.cons.inj heq).1]

theorem told_quote {name : String} (h : Closed name) : Told quote Closed (fun _ => True) name := by
  intro name' rest rest' h' _ _ heq
  simp only [quote, List.cons_append, List.append_assoc, List.nil_append] at heq
  have hend := h rest
  rw [(List.cons.inj heq).2, h' rest'] at hend
  obtain ⟨hsame, hrest⟩ := Prod.mk.inj (Option.some.inj hend)
  exact ⟨(String.toList_inj.mp hsame).symm, hrest.symm⟩

private theorem told_items {items items' : List Json} (h : ∀ item ∈ items, item.Delimited)
    (h' : ∀ item ∈ items', item.Delimited)
    (htold : ∀ item ∈ items, Told compactChars Delimited Parted item)
    (heq : compactItems items ++ ']' :: rest = compactItems items' ++ ']' :: rest') :
    items = items' ∧ rest = rest' := by
  cases items with
  | nil =>
    cases items' with
    | nil => exact ⟨rfl, (List.cons.inj heq).2⟩
    | cons item' items' =>
      rw [compactItems_eq (item' :: items'), intercalate_cons_append] at heq
      exact absurd heq.symm ((h' item' List.mem_cons_self).ne_close _ _)
  | cons item items =>
    cases items' with
    | nil =>
      rw [compactItems_eq (item :: items), intercalate_cons_append] at heq
      exact absurd heq ((h item List.mem_cons_self).ne_close _ _)
    | cons item' items' =>
      rw [compactItems_eq, compactItems_eq] at heq
      have hends (rest : List Char) : Parted (']' :: rest) ∧ ',' ∉ (']' :: rest).head? :=
        ⟨parted_cons rfl rest, by simp⟩
      obtain ⟨hsame, hrest⟩ := told_intercalate (fun _ _ _ => parted_cons rfl _)
        (fun item hitem => ⟨h item hitem, htold item hitem⟩) _ _ _
        ⟨List.cons_ne_nil _ _, h'⟩ (hends rest) (hends rest') heq
      exact ⟨hsame, (List.cons.inj hrest).2⟩

private theorem told_members {members members' : List (String × Json)}
    (h : ∀ m ∈ members, Closed m.1 ∧ m.2.Delimited)
    (h' : ∀ m ∈ members', Closed m.1 ∧ m.2.Delimited)
    (htold : ∀ m ∈ members, Told compactChars Delimited Parted m.2)
    (heq : compactMembers members ++ '\x7d' :: rest = compactMembers members' ++ '\x7d' :: rest') :
    members = members' ∧ rest = rest' := by
  have hmember : ∀ m ∈ members,
      Told memberChars (fun m => Closed m.1 ∧ m.2.Delimited) Parted m := by
    rintro ⟨name, value⟩ hm ⟨name', value'⟩ rest rest' ⟨hname', hvalue'⟩ hrest hrest' heq
    simp only [memberChars, List.append_assoc, List.cons_append] at heq
    obtain ⟨rfl, hpair⟩ := told_quote (h _ hm).1 name' _ _ hname' trivial trivial heq
    obtain ⟨rfl, hafter⟩ := htold _ hm value' rest rest' hvalue' hrest hrest'
      (List.cons.inj hpair).2
    exact ⟨rfl, hafter⟩
  cases members with
  | nil =>
    cases members' with
    | nil => exact ⟨rfl, (List.cons.inj heq).2⟩
    | cons m' members' =>
      rw [compactMembers_eq (m' :: members'), intercalate_cons_append, memberChars, quote] at heq
      cases heq
  | cons m members =>
    cases members' with
    | nil =>
      rw [compactMembers_eq (m :: members), intercalate_cons_append, memberChars, quote] at heq
      cases heq
    | cons m' members' =>
      rw [compactMembers_eq, compactMembers_eq] at heq
      have hends (rest : List Char) : Parted ('\x7d' :: rest) ∧ ',' ∉ ('\x7d' :: rest).head? :=
        ⟨parted_cons rfl rest, by simp⟩
      obtain ⟨hsame, hrest⟩ := told_intercalate (fun _ _ _ => parted_cons rfl _)
        (fun m hm => ⟨h m hm, hmember m hm⟩) _ _ _
        ⟨List.cons_ne_nil _ _, h'⟩ (hends rest) (hends rest') heq
      exact ⟨hsame, (List.cons.inj hrest).2⟩

theorem Delimited.told (h : doc.Delimited) : Told compactChars Delimited Parted doc := by
  induction h with
  | null =>
    intro doc' rest rest' h' _ _ heq
    have hlead := lead_eq .null h' heq
    cases h' with
    | null => exact ⟨rfl, List.append_cancel_left heq⟩
    | _ => simp [lead] at hlead
  | bool b =>
    intro doc' rest rest' h' _ _ heq
    have hlead := lead_eq (.bool b) h' heq
    cases h' with
    | bool b' =>
      obtain rfl : b = b' := by cases b <;> cases b' <;> simp [compactChars] at heq ⊢
      exact ⟨rfl, List.append_cancel_left heq⟩
    | _ => simp [lead] at hlead
  | number hne hall =>
    intro doc' rest rest' h' hrest hrest' heq
    have hlead := lead_eq (.number hne hall) h' heq
    cases h' with
    | number hne' hall' =>
      rw [compactChars, compactChars] at heq
      obtain ⟨hsame, hafter⟩ := told_of_forall hall _ _ _ hall' hrest hrest' heq
      exact ⟨congrArg Json.number (String.toList_inj.mp hsame), hafter⟩
    | _ => simp [lead] at hlead
  | string hclosed =>
    intro doc' rest rest' h' _ _ heq
    have hlead := lead_eq (.string hclosed) h' heq
    cases h' with
    | string hclosed' =>
      rw [compactChars, compactChars] at heq
      obtain ⟨hsame, hafter⟩ := told_quote hclosed _ _ _ hclosed' trivial trivial heq
      exact ⟨congrArg Json.string hsame, hafter⟩
    | _ => simp [lead] at hlead
  | array hitems ih =>
    intro doc' rest rest' h' _ _ heq
    have hlead := lead_eq (.array hitems) h' heq
    cases h' with
    | array hitems' =>
      simp only [compactChars, List.cons_append, List.append_assoc, List.nil_append] at heq
      obtain ⟨hsame, hafter⟩ := told_items hitems hitems' ih (List.cons.inj heq).2
      exact ⟨congrArg Json.array hsame, hafter⟩
    | _ => simp [lead] at hlead
  | object hnames hvalues ih =>
    intro doc' rest rest' h' _ _ heq
    have hlead := lead_eq (.object hnames hvalues) h' heq
    cases h' with
    | object hnames' hvalues' =>
      simp only [compactChars, List.cons_append, List.append_assoc, List.nil_append] at heq
      obtain ⟨hsame, hafter⟩ := told_members (fun m hm => ⟨hnames m hm, hvalues m hm⟩)
        (fun m hm => ⟨hnames' m hm, hvalues' m hm⟩) ih (List.cons.inj heq).2
      exact ⟨congrArg Json.object hsame, hafter⟩
    | _ => simp [lead] at hlead

end Told

end AssetQuery.Json
