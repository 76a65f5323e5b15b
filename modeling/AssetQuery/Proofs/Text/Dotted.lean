import AssetQuery.Text.Basic

/-!
# Names above a dotted name

A dotted name is reached from its first part by going down one part after the other. As no part has
a dot in it, what is above a name and its last part can be told from it.
-/

namespace AssetQuery.Dotted

/-- Whether a text is a single part of a name. -/
def IsPart (part : String) : Prop := '.' ∉ part.toList

instance (part : String) : Decidable (IsPart part) := inferInstanceAs (Decidable (_ ∉ _))

/-- The name that lies some parts below another. -/
def below (above : String) (parts : List String) : String :=
  parts.foldl (fun above part => above ++ "." ++ part) above

/-- Whether a name is another or is above it. -/
def Heads (above name : String) : Prop := name = above ∨ ∃ rest, name = above ++ "." ++ rest

private theorem not_mem_of_mem_splitChars {text part : List Char} (h : part ∈ splitChars text) :
    '.' ∉ part := by
  induction text generalizing part with
  | nil => simp_all [splitChars]
  | cons c rest ih =>
    rw [splitChars] at h
    split at h
    · rcases List.mem_cons.mp h with rfl | h
      · exact List.not_mem_nil
      · exact ih h
    · next hc =>
      cases hrest : splitChars rest with
      | nil => exact absurd hrest (splitChars_ne_nil rest)
      | cons first others =>
        rw [hrest] at h ih
        rcases List.mem_cons.mp h with rfl | h
        · exact List.not_mem_cons_of_ne_of_not_mem (Ne.symm hc) (ih List.mem_cons_self)
        · exact ih (List.mem_cons_of_mem _ h)

theorem isPart_of_mem_parts {name part : String} (h : part ∈ parts name) : IsPart part := by
  obtain ⟨chars, hchars, rfl⟩ := List.mem_map.mp h
  rw [IsPart, String.toList_ofList]
  exact not_mem_of_mem_splitChars hchars

theorem below_append (first above : String) (parts : List String) :
    below (first ++ above) parts = first ++ below above parts := by
  induction parts generalizing above with
  | nil => rfl
  | cons part rest ih =>
    have hpart : first ++ above ++ "." ++ part = first ++ (above ++ "." ++ part) := by
      simp only [String.append_assoc]
    simp only [below, List.foldl_cons, hpart]
    exact ih _

theorem join_cons (first : String) (parts : List String) :
    join (first :: parts) = below first parts := by
  induction parts generalizing first with
  | nil => simp [join, joinChars, below]
  | cons part rest ih =>
    have hjoin : join (first :: part :: rest) = first ++ "." ++ join (part :: rest) := by
      apply String.toList_inj.mp
      simp [join, joinChars]
    rw [hjoin, ih, ← below_append]
    rfl

theorem below_of_parts {name first : String} {rest : List String}
    (h : parts name = first :: rest) : below first rest = name := by
  rw [← join_cons, ← h, join_parts]

/-- Every name has a first part. -/
theorem exists_parts_eq_cons (name : String) : ∃ first rest, parts name = first :: rest := by
  refine List.exists_cons_of_ne_nil fun h => ?_
  exact splitChars_ne_nil _ (List.map_eq_nil_iff.mp h)

private theorem eq_of_append_chars {above above' part part' : List Char} (hpart : '.' ∉ part)
    (hpart' : '.' ∉ part') (h : above ++ '.' :: part = above' ++ '.' :: part') :
    above = above' ∧ part = part' := by
  -- if one of the names above were longer, the part after the other would have a dot in it
  have hlonger {part part' more : List Char} (hpart : '.' ∉ part)
      (h : '.' :: part = more ++ '.' :: part') : more = [] ∧ part = part' := by
    cases more with
    | nil => exact ⟨rfl, (List.cons.inj h).2⟩
    | cons c more =>
      refine absurd ?_ hpart
      rw [(List.cons.inj h).2]
      exact List.mem_append_right _ List.mem_cons_self
  rcases List.append_eq_append_iff.mp h with ⟨more, rfl, hmore⟩ | ⟨more, rfl, hmore⟩
  · obtain ⟨rfl, rfl⟩ := hlonger hpart hmore
    exact ⟨(List.append_nil _).symm, rfl⟩
  · obtain ⟨rfl, rfl⟩ := hlonger hpart' hmore
    exact ⟨List.append_nil _, rfl⟩

/-- What is above a name and its last part can be told from it. -/
theorem eq_of_append {above above' part part' : String} (hpart : IsPart part)
    (hpart' : IsPart part') (h : above ++ "." ++ part = above' ++ "." ++ part') :
    above = above' ∧ part = part' := by
  have hchars := congrArg String.toList h
  simp only [String.toList_append, List.append_assoc] at hchars
  obtain ⟨habove, hparts⟩ := eq_of_append_chars hpart hpart' hchars
  exact ⟨String.toList_inj.mp habove, String.toList_inj.mp hparts⟩

private theorem length_le_below (above : String) (parts : List String) :
    above.length ≤ (below above parts).length := by
  induction parts generalizing above with
  | nil => exact Nat.le_refl _
  | cons part rest ih =>
    refine Nat.le_trans ?_ (ih (above ++ "." ++ part))
    simp only [String.length_append]
    omega

theorem heads_below (above : String) (parts : List String) : Heads above (below above parts) := by
  induction parts generalizing above with
  | nil => exact .inl rfl
  | cons part rest ih =>
    have hrest : Heads (above ++ "." ++ part) (below above (part :: rest)) := ih _
    rcases hrest with heq | ⟨more, hmore⟩
    · exact .inr ⟨part, heq⟩
    · apply Or.inr
      exact ⟨part ++ "." ++ more, by simp only [hmore, String.append_assoc]⟩

private theorem not_lex_append (text more : List Char) : ¬List.Lex (· < ·) (text ++ more) text := by
  induction text with
  | nil => nofun
  | cons c text ih =>
    intro h
    cases h with
    | rel hlt => exact Std.lt_irrefl hlt
    | cons h => exact ih h

/-- A name comes in order before all that lies below it. -/
theorem Heads.not_lt {above name : String} (h : Heads above name) : ¬name < above := by
  rcases h with rfl | ⟨rest, rfl⟩
  · exact Std.lt_irrefl
  · intro hlt
    have hlex : List.Lex (· < ·) (above ++ "." ++ rest).toList above.toList := hlt
    rw [String.append_assoc, String.toList_append] at hlex
    exact not_lex_append _ _ hlex

theorem Heads.of_below {above part name : String} (h : Heads (above ++ "." ++ part) name) :
    Heads above name := by
  rcases h with rfl | ⟨rest, rfl⟩
  · exact .inr ⟨part, rfl⟩
  · exact .inr ⟨part ++ "." ++ rest, by simp only [String.append_assoc]⟩

theorem Heads.ne_of_below {above part name : String} (h : Heads (above ++ "." ++ part) name) :
    above ≠ name := by
  rintro rfl
  have hdot : ".".length = 1 := rfl
  rcases h with heq | ⟨rest, heq⟩
  · have hlength := congrArg String.length heq
    simp only [String.length_append] at hlength
    omega
  · have hlength := congrArg String.length heq
    simp only [String.length_append] at hlength
    omega

theorem ne_below_cons (above part : String) (rest : List String) :
    above ≠ below above (part :: rest) := by
  intro h
  have hlength := length_le_below (above ++ "." ++ part) rest
  rw [show below (above ++ "." ++ part) rest = above from h.symm] at hlength
  have hdot : ".".length = 1 := rfl
  simp only [String.length_append] at hlength
  omega

theorem below_concat (above part : String) (parts : List String) :
    below above (parts ++ [part]) = below above parts ++ "." ++ part := by
  simp [below]

private theorem below_below (above : String) (front back : List String) :
    below (below above front) back = below above (front ++ back) := by
  simp [below]

private theorem splitChars_append (above rest : List Char) :
    splitChars (above ++ '.' :: rest) = splitChars above ++ splitChars rest := by
  induction above with
  | nil => simp [splitChars]
  | cons c above ih =>
    simp only [List.cons_append, splitChars, ih]
    by_cases hc : c = '.'
    · simp [hc]
    · simp only [if_neg hc]
      cases habove : splitChars above with
      | nil => exact absurd habove (splitChars_ne_nil above)
      | cons part parts => simp

private theorem parts_append (above rest : String) :
    parts (above ++ "." ++ rest) = parts above ++ parts rest := by
  simp [parts, splitChars_append]

private theorem splitChars_of_not_mem {text : List Char} (h : '.' ∉ text) : splitChars text =
    [text] := by
  induction text with
  | nil => rfl
  | cons c rest ih =>
    obtain ⟨hc, hrest⟩ := not_or.mp (mt List.mem_cons.mpr h)
    rw [splitChars, if_neg (Ne.symm hc), ih hrest]

private theorem IsPart.parts_eq {part : String} (h : IsPart part) : parts part = [part] := by
  simp [parts, splitChars_of_not_mem h]

/-- What is above a name is reached by some of its parts, and the next of them leads on. -/
theorem Heads.exists_split {above part name first : String} {rest : List String}
    (h : Heads (above ++ "." ++ part) name) (hpart : IsPart part)
    (hparts : parts name = first :: rest) :
    ∃ front back, rest = front ++ part :: back ∧ above = below first front := by
  have hsplit : ∃ back, first :: rest = parts above ++ part :: back := by
    rw [← hparts]
    rcases h with rfl | ⟨more, rfl⟩
    · exact ⟨[], by rw [parts_append, hpart.parts_eq]⟩
    · exact ⟨parts more, by rw [parts_append, parts_append, hpart.parts_eq]; simp⟩
  obtain ⟨back, hsplit⟩ := hsplit
  obtain ⟨top, front, habove⟩ := exists_parts_eq_cons above
  rw [habove, List.cons_append] at hsplit
  obtain ⟨rfl, hrest⟩ := List.cons.inj hsplit
  exact ⟨front, back, hrest, (below_of_parts habove).symm⟩

/-- With each of its parts a name goes on from those that come before. -/
theorem heads_of_parts {name first part : String} {front back : List String}
    (h : parts name = first :: (front ++ part :: back)) :
    Heads (below first front ++ "." ++ part) name := by
  rw [← below_of_parts h, List.append_cons, ← below_below, below_concat]
  exact heads_below _ back

theorem Heads.exists_next {above name : String} (h : Heads above name) (hne : name ≠ above) :
    ∃ part, IsPart part ∧ Heads (above ++ "." ++ part) name := by
  obtain ⟨rest, rfl⟩ := h.resolve_left hne
  obtain ⟨part, others, hparts⟩ := exists_parts_eq_cons rest
  refine ⟨part, isPart_of_mem_parts (hparts ▸ List.mem_cons_self), ?_⟩
  rw [← below_of_parts hparts, ← below_append]
  exact heads_below _ _

private theorem isPart_or_exists_above (name : String) :
    IsPart name ∨ ∃ above part, IsPart part ∧ name = above ++ "." ++ part := by
  obtain ⟨first, rest, hparts⟩ := exists_parts_eq_cons name
  have hname := below_of_parts hparts
  have hpart {part : String} (h : part ∈ parts name) : IsPart part := isPart_of_mem_parts h
  rcases List.eq_nil_or_concat rest with rfl | ⟨init, last, rfl⟩
  · refine .inl (hname ▸ hpart ?_)
    rw [hparts]
    exact List.mem_cons_self
  · refine .inr ⟨below first init, last, hpart ?_, ?_⟩
    · rw [hparts]
      simp
    · rw [← hname, List.concat_eq_append, below_concat]

theorem Heads.exists_above {above name : String} (h : Heads above name) (hne : name ≠ above) :
    ∃ upper part, IsPart part ∧ name = upper ++ "." ++ part ∧ Heads above upper := by
  obtain ⟨rest, rfl⟩ := h.resolve_left hne
  rcases isPart_or_exists_above rest with hpart | ⟨upper, part, hpart, rfl⟩
  · exact ⟨above, rest, hpart, rfl, .inl rfl⟩
  · exact ⟨above ++ "." ++ upper, part, hpart, by simp only [String.append_assoc],
      .inr ⟨upper, rfl⟩⟩

end AssetQuery.Dotted
