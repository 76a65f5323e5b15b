import AssetQuery.Json.Basic
import AssetQuery.Proofs.Json.Number

/-!
# Documents read back

A document whose strings are closed and whose numbers are whole is read back from the text of many
lines that it is written as.
-/

namespace AssetQuery.Json

/-- Whether a document is spelled so that reading finds where its parts end. -/
inductive WellSpelled : Json → Prop
  | null : WellSpelled .null
  | bool (b : Bool) : WellSpelled (.bool b)
  | number (n : Int) : WellSpelled (ofInt n)
  | string {spelling : String} : Closed spelling → WellSpelled (.string spelling)
  | array {items : List Json} : (∀ item ∈ items, WellSpelled item) → WellSpelled (.array items)
  | object {members : List (String × Json)} : (∀ m ∈ members, Closed m.1) →
    (∀ m ∈ members, WellSpelled m.2) → WellSpelled (.object members)

theorem wellSpelled_ofText (s : String) : (ofText s).WellSpelled := .string (closed_spell s)

theorem wellSpelled_ofMembers {members : List (String × Json)}
    (h : ∀ m ∈ members, m.2.WellSpelled) : (ofMembers members).WellSpelled :=
  .object (List.forall_mem_map.mpr fun m _ => closed_spell m.1) (List.forall_mem_map.mpr h)

section Blanks

variable {c : Char} {text : List Char}

theorem skipBlanks_blank (h : isBlank c) : skipBlanks (c :: text) = skipBlanks text :=
  List.dropWhile_cons_of_pos h

theorem skipBlanks_of_not (h : isBlank c = false) : skipBlanks (c :: text) = c :: text :=
  List.dropWhile_cons_of_neg (by simp [h])

theorem skipBlanks_newLine (level : Nat) (text : List Char) :
    skipBlanks (newLine level ++ text) = skipBlanks text := by
  have hblanks (count : Nat) : skipBlanks (List.replicate count ' ' ++ text) = skipBlanks text := by
    induction count with
    | zero => rfl
    | succ count ih => rw [List.replicate_succ, List.cons_append, skipBlanks_blank rfl, ih]
  rw [newLine, List.cons_append, skipBlanks_blank rfl, hblanks]

end Blanks

theorem exists_toString_eq_cons (n : Int) :
    ∃ c cs, (toString n).toList = c :: cs ∧ (c = '-' ∨ isDigit c) := by
  rw [toList_toString]
  split
  · exact ⟨'-', _, rfl, .inl rfl⟩
  · obtain ⟨c, cs, hdigits, hc⟩ := exists_toDigits_eq_cons n.natAbs
    exact ⟨c, cs, hdigits, .inr hc⟩

theorem ne_of_number {c d : Char} (h : c = '-' ∨ isDigit c) (hd : (d = '-' || isDigit d) = false) :
    c ≠ d := by
  rintro rfl
  rcases h with rfl | h
  · cases hd
  · rw [h, Bool.or_true] at hd
    cases hd

theorem WellSpelled.exists_eq_cons {doc : Json} (h : doc.WellSpelled) (level : Nat) :
    ∃ c cs, doc.prettyChars level = c :: cs ∧ isBlank c = false ∧ c ≠ ']' := by
  cases h with
  | null => exact ⟨'n', _, by rw [prettyChars]; rfl, rfl, nofun⟩
  | bool b =>
    cases b with
    | false => exact ⟨'f', _, by rw [prettyChars]; rfl, rfl, nofun⟩
    | true => exact ⟨'t', _, by rw [prettyChars]; rfl, rfl, nofun⟩
  | number n =>
    obtain ⟨c, cs, hchars, hc⟩ := exists_toString_eq_cons n
    refine ⟨c, cs, by rw [ofInt, prettyChars, hchars], ?_, ne_of_number hc rfl⟩
    simp [Json.isBlank, ne_of_number (d := ' ') hc rfl, ne_of_number (d := '\n') hc rfl,
      ne_of_number (d := '\t') hc rfl, ne_of_number (d := '\r') hc rfl]
  | string => exact ⟨'"', _, by rw [prettyChars]; rfl, rfl, nofun⟩
  | @array items =>
    cases items with
    | nil => exact ⟨'[', _, by rw [prettyChars]; rfl, rfl, nofun⟩
    | cons item items => exact ⟨'[', _, by rw [prettyChars], rfl, nofun⟩
  | @object members =>
    cases members with
    | nil => exact ⟨'\x7b', _, by rw [prettyChars]; rfl, rfl, nofun⟩
    | cons m members => exact ⟨'\x7b', _, by rw [prettyChars], rfl, nofun⟩

/-- Whether a document is read off what it is written as, and from what follows, if enough steps are
left. -/
def ReadBack (doc : Json) : Prop :=
  ∀ level steps text rest, 2 * (doc.prettyChars level).length ≤ steps + 1 → EndsNumber rest →
    skipBlanks text = doc.prettyChars level ++ rest → value? steps text = some (doc, rest)

theorem endsNumber_newLine (level : Nat) (rest : List Char) :
    EndsNumber (newLine level ++ rest) := by
  rintro c ⟨⟩
  exact ⟨rfl, nofun, nofun, nofun⟩

private theorem endsNumber_prettyItems (level : Nat) (items : List Json) {rest : List Char}
    (h : EndsNumber rest) : EndsNumber (prettyItems level items ++ rest) := by
  cases items with
  | nil => rwa [prettyItems]
  | cons item items =>
    rw [prettyItems]
    rintro c ⟨⟩
    exact ⟨rfl, nofun, nofun, nofun⟩

private theorem endsNumber_prettyMembers (level : Nat) (members : List (String × Json))
    {rest : List Char}
    (h : EndsNumber rest) : EndsNumber (prettyMembers level members ++ rest) := by
  cases members with
  | nil => rwa [prettyMembers]
  | cons m members =>
    rw [prettyMembers]
    rintro c ⟨⟩
    exact ⟨rfl, nofun, nofun, nofun⟩

section Inside

variable {level outer steps : Nat} {text rest : List Char}

theorem ReadBack.part {doc : Json} (h : doc.ReadBack) (hspelled : doc.WellSpelled) {after : Nat}
    (hsteps : 2 * ((doc.prettyChars level).length + after) ≤ steps) (hrest : EndsNumber rest)
    (htext : skipBlanks text = doc.prettyChars level ++ rest) :
    ∃ k, steps = k + 1 ∧ 2 * after < k ∧ value? k text = some (doc, rest) := by
  obtain ⟨c, cs, hchars, _⟩ := hspelled.exists_eq_cons level
  have hpos : 0 < (doc.prettyChars level).length := hchars ▸ Nat.succ_pos _
  exact ⟨steps - 1, by omega, by omega, h level _ _ _ (by omega) hrest htext⟩

private theorem items?_pretty {item : Json} {items : List Json}
    (hspelled : ∀ i ∈ item :: items, i.WellSpelled) (h : ∀ i ∈ item :: items, i.ReadBack)
    (hsteps : 2 * ((item.prettyChars level).length + (prettyItems level items).length) ≤ steps)
    (htext : skipBlanks text =
      item.prettyChars level ++ (prettyItems level items ++ (newLine outer ++ ']' :: rest))) :
    items? steps text = some (item :: items, rest) := by
  induction items generalizing item steps text with
  | nil =>
    have hends := endsNumber_prettyItems level [] (endsNumber_newLine outer (']' :: rest))
    obtain ⟨k, rfl, _, hvalue⟩ := (h item List.mem_cons_self).part
      (hspelled item List.mem_cons_self) hsteps hends htext
    have hend : skipBlanks (prettyItems level [] ++ (newLine outer ++ ']' :: rest)) =
        ']' :: rest := by
      rw [prettyItems, List.nil_append, skipBlanks_newLine, skipBlanks_of_not rfl]
    rw [items?, hvalue]
    simp only [hend]
  | cons next items ih =>
    have hends := endsNumber_prettyItems level (next :: items)
      (endsNumber_newLine outer (']' :: rest))
    obtain ⟨k, rfl, hleft, hvalue⟩ := (h item List.mem_cons_self).part
      (hspelled item List.mem_cons_self) hsteps hends htext
    obtain ⟨hspelledNext, hnext⟩ :=
      And.intro (List.forall_mem_cons.mp hspelled).2 (List.forall_mem_cons.mp h).2
    simp only [prettyItems, List.length_cons, List.length_append] at hleft
    rw [items?, hvalue]
    simp only [prettyItems, List.cons_append, List.append_assoc, skipBlanks_of_not
      (show isBlank ',' = false from rfl)]
    rw [ih hspelledNext hnext (by omega) ?_, Option.map_some]
    obtain ⟨c, cs, hchars, hblank, _⟩ := (hspelledNext next List.mem_cons_self).exists_eq_cons level
    rw [skipBlanks_newLine, hchars, List.cons_append, skipBlanks_of_not hblank]

/-- The members of an object after the first has been read: what follows it decides how reading
goes on. -/
def afterMember (steps : Nat) (first : String × Json) (text : List Char) :
    Option (List (String × Json) × List Char) :=
  match skipBlanks text with
  | ',' :: rest => (members? steps rest).map fun (members, rest) => (first :: members, rest)
  | '\x7d' :: rest => some ([first], rest)
  | _ => none

private theorem members?_member {name : String} {value : Json} (hclosed : Closed name)
    (hspelled : value.WellSpelled) (h : value.ReadBack) {after : Nat}
    (hsteps : 2 * ((value.prettyChars level).length + after) ≤ steps) (hrest : EndsNumber rest)
    (htext : skipBlanks text = quote name ++ ':' :: ' ' :: (value.prettyChars level ++ rest)) :
    ∃ k, steps = k + 1 ∧ 2 * after < k ∧
      members? steps text = afterMember k (name, value) rest := by
  obtain ⟨c, cs, hchars, hblank, _⟩ := hspelled.exists_eq_cons level
  have hstart : skipBlanks (' ' :: (value.prettyChars level ++ rest)) =
      value.prettyChars level ++ rest := by
    rw [skipBlanks_blank rfl, hchars, List.cons_append, skipBlanks_of_not hblank]
  obtain ⟨k, rfl, hleft, hvalue⟩ := h.part hspelled hsteps hrest hstart
  refine ⟨k, rfl, hleft, ?_⟩
  rw [members?, htext, quote, List.cons_append, List.append_assoc]
  simp only [List.cons_append, List.nil_append, hclosed _, String.ofList_toList]
  rw [skipBlanks_of_not rfl]
  simp only [hvalue]
  rfl

private theorem members?_pretty {name : String} {value : Json} {members : List (String × Json)}
    (hclosed : ∀ m ∈ (name, value) :: members, Closed m.1)
    (hspelled : ∀ m ∈ (name, value) :: members, m.2.WellSpelled)
    (h : ∀ m ∈ (name, value) :: members, m.2.ReadBack)
    (hsteps : 2 * ((value.prettyChars level).length + (prettyMembers level members).length) ≤ steps)
    (htext : skipBlanks text = quote name ++ ':' :: ' ' :: (value.prettyChars level ++
      (prettyMembers level members ++ (newLine outer ++ '\x7d' :: rest)))) :
    members? steps text = some ((name, value) :: members, rest) := by
  induction members generalizing name value steps text with
  | nil =>
    have hends := endsNumber_prettyMembers level [] (endsNumber_newLine outer ('\x7d' :: rest))
    obtain ⟨k, rfl, _, hread⟩ := members?_member (hclosed _ List.mem_cons_self)
      (hspelled _ List.mem_cons_self) (h _ List.mem_cons_self) hsteps hends htext
    rw [hread, afterMember, prettyMembers, List.nil_append, skipBlanks_newLine,
      skipBlanks_of_not rfl]
    rfl
  | cons next members ih =>
    have hends := endsNumber_prettyMembers level (next :: members)
      (endsNumber_newLine outer ('\x7d' :: rest))
    obtain ⟨k, rfl, hleft, hread⟩ := members?_member (hclosed _ List.mem_cons_self)
      (hspelled _ List.mem_cons_self) (h _ List.mem_cons_self) hsteps hends htext
    simp only [prettyMembers, List.length_cons, List.length_append] at hleft
    rw [hread, afterMember, prettyMembers, List.cons_append, skipBlanks_of_not rfl]
    simp only [List.append_assoc, List.cons_append]
    rw [ih (List.forall_mem_cons.mp hclosed).2 (List.forall_mem_cons.mp hspelled).2
      (List.forall_mem_cons.mp h).2 (by omega) ?_, Option.map_some]
    rw [skipBlanks_newLine, quote, List.cons_append, skipBlanks_of_not rfl]

end Inside

theorem readBack_of_succ {doc : Json} (hspelled : doc.WellSpelled)
    (h : ∀ level k rest, 2 * (doc.prettyChars level).length ≤ k + 2 → EndsNumber rest →
      ∀ text, skipBlanks text = doc.prettyChars level ++ rest →
        value? (k + 1) text = some (doc, rest)) : doc.ReadBack := by
  intro level steps text rest hsteps hrest htext
  obtain ⟨c, cs, hchars, _⟩ := hspelled.exists_eq_cons level
  have hpos : 0 < (doc.prettyChars level).length := hchars ▸ Nat.succ_pos _
  obtain ⟨k, rfl⟩ : ∃ k, steps = k + 1 := ⟨steps - 1, by omega⟩
  exact h level k rest hsteps hrest text htext

private theorem readBack_number (n : Int) : (ofInt n).ReadBack := by
  refine readBack_of_succ (.number n) fun level k rest _ hrest text htext => ?_
  obtain ⟨c, cs, hchars, hc⟩ := exists_toString_eq_cons n
  have hread := number?_toString n hrest
  rw [value?, htext, ofInt, prettyChars]
  rw [hchars, List.cons_append] at hread ⊢
  have hne := fun d => ne_of_number (d := d) hc
  simp only [hne '[' rfl, hne '\x7b' rfl, hne '"' rfl, hne 'n' rfl, hne 't' rfl, hne 'f' rfl,
    if_false, hread, Option.map_some]
  rw [← hchars, String.ofList_toList]

private theorem readBack_array {items : List Json} (hspelled : ∀ i ∈ items, i.WellSpelled)
    (h : ∀ i ∈ items, i.ReadBack) : (array items).ReadBack := by
  refine readBack_of_succ (.array hspelled) fun level k rest hsteps _ text htext => ?_
  rw [value?, htext]
  cases items with
  | nil =>
    rw [prettyChars]
    rfl
  | cons item items =>
    rw [prettyChars] at hsteps ⊢
    simp only [List.length_cons, List.length_append] at hsteps
    obtain ⟨c, cs, hchars, hblank, hne⟩ :=
      (hspelled item List.mem_cons_self).exists_eq_cons (level + 1)
    have hstart : skipBlanks (newLine (level + 1) ++ (item.prettyChars (level + 1) ++
        (prettyItems (level + 1) items ++ (newLine level ++ ']' :: rest)))) =
        item.prettyChars (level + 1) ++ (prettyItems (level + 1) items ++
          (newLine level ++ ']' :: rest)) := by
      rw [skipBlanks_newLine, hchars, List.cons_append, skipBlanks_of_not hblank]
    have hitems : items? k _ = _ := items?_pretty hspelled h (by omega) hstart
    simp only [List.cons_append, List.append_assoc, if_true, List.nil_append, hitems]
    rw [hstart, hchars, List.cons_append]
    simp [hne]

private theorem readBack_object {members : List (String × Json)}
    (hclosed : ∀ m ∈ members, Closed m.1)
    (hspelled : ∀ m ∈ members, m.2.WellSpelled) (h : ∀ m ∈ members, m.2.ReadBack) :
    (object members).ReadBack := by
  refine readBack_of_succ (.object hclosed hspelled) fun level k rest hsteps _ text htext => ?_
  rw [value?, htext]
  cases members with
  | nil =>
    rw [prettyChars]
    rfl
  | cons m members =>
    obtain ⟨name, value⟩ := m
    rw [prettyChars] at hsteps ⊢
    simp only [List.length_cons, List.length_append] at hsteps
    have hstart : skipBlanks (newLine (level + 1) ++ (quote name ++ ':' :: ' ' ::
        (value.prettyChars (level + 1) ++ (prettyMembers (level + 1) members ++
          (newLine level ++ '\x7d' :: rest))))) = quote name ++ ':' :: ' ' ::
        (value.prettyChars (level + 1) ++ (prettyMembers (level + 1) members ++
          (newLine level ++ '\x7d' :: rest))) := by
      rw [skipBlanks_newLine, quote, List.cons_append, skipBlanks_of_not rfl]
    have hmembers : members? k _ = _ := members?_pretty hclosed hspelled h (by omega) hstart
    simp only [List.cons_append, List.append_assoc, List.nil_append, hmembers]
    rw [hstart, quote, List.cons_append]
    rfl

private theorem WellSpelled.readBack {doc : Json} (h : doc.WellSpelled) : doc.ReadBack := by
  induction h with
  | null =>
    refine readBack_of_succ .null fun level k rest _ _ text htext => ?_
    rw [value?, htext, prettyChars]
    rfl
  | bool b =>
    refine readBack_of_succ (.bool b) fun level k rest _ _ text htext => ?_
    rw [value?, htext]
    cases b with
    | false =>
      rw [prettyChars]
      rfl
    | true =>
      rw [prettyChars]
      rfl
  | number n => exact readBack_number n
  | string hclosed =>
    refine readBack_of_succ (.string hclosed) fun level k rest _ _ text htext => ?_
    rw [value?, htext, prettyChars, quote, List.cons_append, List.append_assoc]
    simp [hclosed _]
  | array hspelled ih => exact readBack_array hspelled ih
  | object hclosed hspelled ih => exact readBack_object hclosed hspelled ih

theorem parse?_pretty {doc : Json} (h : doc.WellSpelled) : parse? doc.pretty = some doc := by
  have hends : EndsNumber [] := nofun
  obtain ⟨c, cs, hchars, hblank, _⟩ := h.exists_eq_cons 0
  have hstart : skipBlanks (doc.prettyChars 0) = doc.prettyChars 0 ++ [] := by
    rw [List.append_nil, hchars, skipBlanks_of_not hblank]
  have hlength : doc.pretty.length = (doc.prettyChars 0).length := by
    rw [pretty, String.length_ofList]
  have hread := h.readBack 0 (2 * doc.pretty.length + 2) _ _ (by omega) hends hstart
  rw [parse?, pretty, String.toList_ofList, ← pretty, hread]
  rfl

end AssetQuery.Json
