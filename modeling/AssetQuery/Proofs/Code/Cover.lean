import AssetQuery.Proofs.Code.Checksum
import AssetQuery.Proofs.Code.Wire

/-!
# Reading what checksums cover

The lists in what a checksum covers follow each other without a mark at their ends. Still it can be
taken apart in one way only, if nothing that follows a list could be one more of its items, and
nothing that follows a map one more of its entries.
-/

namespace AssetQuery

/-- What may follow a value: an item after it, or the key of an entry. -/
inductive Follower where
  | item (p : Primitive)
  | entry (key : String)

namespace Primitive

/-- Whether no bytes are held, in a type for which they would be covered. -/
def isBare (p : Primitive) : Bool := p.bytes.isEmpty && p.typ != .ref && p.typ != .functionLike

/-- Whether what follows something of a type could as well be a part of it. -/
def typeTakesIn : Ty → Follower → Bool
  | .array elem, .item p => p.typ == elem
  | .array elem, .entry key => elem.encode.toOption == some (Utf8.encode key)
  | .map _ _, .item p => !p.isBare
  | .map _ _, .entry _ => true
  | _, _ => false

mutual

/-- Whether what follows a primitive could as well be a part of it, or of the last part of it. -/
def takesIn : Primitive → Follower → Bool
  | ⟨typ, _, items, entries⟩, next =>
    typeTakesIn typ next || itemsTakeIn items next || entriesTakeIn entries next

def itemsTakeIn : List Primitive → Follower → Bool
  | [], _ => false
  | p :: rest, next => if rest.isEmpty then p.takesIn next else itemsTakeIn rest next

def entriesTakeIn : List (String × Primitive) → Follower → Bool
  | [], _ => false
  | (_, p) :: rest, next => if rest.isEmpty then p.takesIn next else entriesTakeIn rest next

end

mutual

/-- Whether all lists and maps in a primitive end where it shows. -/
def delimited : Primitive → Bool
  | ⟨_, _, items, entries⟩ => itemsDelimited items && entriesDelimited entries

def itemsDelimited : List Primitive → Bool
  | [] => true
  | p :: rest => p.delimited && (rest.head?.all fun q => !p.takesIn (.item q)) &&
      itemsDelimited rest

def entriesDelimited : List (String × Primitive) → Bool
  | [] => true
  | (_, p) :: rest => p.delimited && (rest.head?.all fun e => !p.takesIn (.entry e.1)) &&
      entriesDelimited rest

end

private theorem takesIn_of_getLast? {ps : List Primitive} {next : Follower}
    (h : itemsTakeIn ps next = false) : ∀ p ∈ ps.getLast?, p.takesIn next = false := by
  induction ps with
  | nil => exact nofun
  | cons p rest ih =>
    rw [itemsTakeIn] at h
    cases rest with
    | nil =>
      rintro _ ⟨⟩
      exact h
    | cons q rest =>
      rw [List.getLast?_cons_cons]
      exact ih h

private theorem takesIn_of_getLast?_entries {es : List (String × Primitive)} {next : Follower}
    (h : entriesTakeIn es next = false) : ∀ e ∈ es.getLast?, e.2.takesIn next = false := by
  induction es with
  | nil => exact nofun
  | cons e rest ih =>
    rw [entriesTakeIn] at h
    cases rest with
    | nil =>
      rintro _ ⟨⟩
      exact h
    | cons f rest =>
      rw [List.getLast?_cons_cons]
      exact ih h

/-- Whether what a checksum covers of a primitive tells what it is. -/
structure Legible (p : Primitive) : Prop where
  delimited : p.delimited = true
  named : ∀ t ∈ p.types, ¬t.NameTooLong

theorem delimited_of_mem {ps : List Primitive} (h : itemsDelimited ps) {p : Primitive}
    (hp : p ∈ ps) : p.delimited := by
  induction ps with
  | nil => cases hp
  | cons q rest ih =>
    simp only [itemsDelimited, Bool.and_eq_true] at h
    rcases List.mem_cons.mp hp with rfl | hp
    · exact h.1.1
    · exact ih h.2 hp

private theorem delimited_of_mem_entries {es : List (String × Primitive)} (h : entriesDelimited es)
    {e : String × Primitive} (he : e ∈ es) : e.2.delimited := by
  induction es with
  | nil => cases he
  | cons f rest ih =>
    simp only [entriesDelimited, Bool.and_eq_true] at h
    rcases List.mem_cons.mp he with rfl | he
    · exact h.1.1
    · exact ih h.2 he

theorem Legible.typ {p : Primitive} (h : p.Legible) : ¬p.typ.NameTooLong := by
  obtain ⟨typ, bytes, items, entries⟩ := p
  exact (forall_types_iff.mp h.named).1

private theorem Legible.items {elem : Ty} {items : List Primitive}
    (h : (array elem items).Legible) : itemsDelimited items ∧ ∀ p ∈ items, p.Legible := by
  have hdelimited := h.delimited
  rw [array, Primitive.delimited, Bool.and_eq_true] at hdelimited
  exact ⟨hdelimited.1, fun p hp =>
    ⟨delimited_of_mem hdelimited.1 hp, (forall_types_iff.mp h.named).2.1 p hp⟩⟩

private theorem Legible.entries {key value : Ty} {entries : List (String × Primitive)}
    (h : (map key value entries).Legible) :
    entriesDelimited entries ∧ ∀ e ∈ entries, e.2.Legible := by
  have hdelimited := h.delimited
  rw [map, Primitive.delimited, Bool.and_eq_true] at hdelimited
  exact ⟨hdelimited.2, fun e he =>
    ⟨delimited_of_mem_entries hdelimited.2 he, (forall_types_iff.mp h.named).2.2 e he⟩⟩

end Primitive

namespace Chunk

/-- Whether the lists and maps in a chunk end where it shows. -/
def delimited (c : Chunk) : Bool :=
  c.primitive.all (·.delimited) && Primitive.itemsDelimited c.args

/-- Whether what a checksum covers of a chunk tells what it is. -/
structure Legible (c : Chunk) : Prop where
  delimited : c.delimited = true
  named : ∀ t ∈ c.types, ¬t.NameTooLong

private theorem Legible.constant {p : Primitive} (h : (ofPrimitive p).Legible) : p.Legible := by
  have hdelimited := h.delimited
  rw [Chunk.delimited, Bool.and_eq_true] at hdelimited
  exact ⟨hdelimited.1, (forall_types_iff.mp h.named).2 p rfl⟩

private theorem Legible.property {name : String} {t : Ty} (h : (property name t).Legible) :
    ¬t.NameTooLong :=
  (Primitive.forall_types_iff.mp ((forall_types_iff.mp h.named).2 _ rfl)).1

theorem Legible.call {name : String} {t : Ty} {binding : Ref} {ps : List Primitive}
    (h : (call name t binding ps).Legible) :
    ¬t.NameTooLong ∧ Primitive.itemsDelimited ps ∧ ∀ p ∈ ps, p.Legible := by
  have hdelimited := h.delimited
  rw [Chunk.delimited, Bool.and_eq_true] at hdelimited
  obtain ⟨htyp, hargs⟩ := FunctionCall.forall_types_iff.mp ((forall_types_iff.mp h.named).1 _ rfl)
  exact ⟨htyp, hdelimited.2, fun p hp =>
    ⟨Primitive.delimited_of_mem hdelimited.2 hp, hargs p hp⟩⟩

end Chunk

namespace Checksum

variable {names names' : Names} {R S : Bytes}

theorem length_lt_of_append {x y : Bytes} {n : Nat} (h : (x ++ y).length < n) : y.length < n := by
  rw [List.length_append] at h
  omega

section Pieces

theorem sized_cancel {b c : Bytes} (hlength : (sized b ++ R).length < 2 ^ 64)
    (h : sized b ++ R = sized c ++ S) : b = c ∧ R = S := by
  have hlength' : (sized c ++ S).length < 2 ^ 64 := h ▸ hlength
  rw [sized, sized, List.append_assoc, List.append_assoc] at h
  simp only [sized, List.length_append, length_littleEndian] at hlength hlength'
  obtain ⟨hnumber, h⟩ := List.append_inj h (by simp)
  have hb : ofLittleEndian (littleEndian 8 b.length) = b.length := ofLittleEndian_of_lt (by omega)
  have hc : ofLittleEndian (littleEndian 8 c.length) = c.length := ofLittleEndian_of_lt (by omega)
  have hcount : b.length = c.length := by rw [← hb, hnumber, hc]
  exact List.append_inj h hcount

theorem ofText_cancel {s t : String} (hlength : (ofText s ++ R).length < 2 ^ 64)
    (h : ofText s ++ R = ofText t ++ S) : s = t ∧ R = S := by
  obtain ⟨hbytes, hrest⟩ := sized_cancel hlength h
  have hread := congrArg Utf8.decode hbytes
  rw [Utf8.decode_encode, Utf8.decode_encode] at hread
  exact ⟨Except.ok.inj hread, hrest⟩

theorem ofTy_of_encode {t : Ty} {b : Bytes} (h : t.encode = .ok b) : ofTy t = sized b := by
  rw [ofTy, h]

theorem ofTy_cancel {t u : Ty} (ht : ¬t.NameTooLong) (hu : ¬u.NameTooLong)
    (hlength : (ofTy t ++ R).length < 2 ^ 64) (h : ofTy t ++ R = ofTy u ++ S) :
    t = u ∧ R = S := by
  obtain ⟨b, hb⟩ := (Ty.encode_succeeds_iff t).mpr ht
  obtain ⟨c, hc⟩ := (Ty.encode_succeeds_iff u).mpr hu
  rw [ofTy_of_encode hb] at h hlength
  rw [ofTy_of_encode hc] at h
  obtain ⟨rfl, hrest⟩ := sized_cancel hlength h
  have hread := (Ty.decode_encode hb).symm.trans (Ty.decode_encode hc)
  exact ⟨Except.ok.inj hread, hrest⟩

theorem ofTy_append_ne_nil (t : Ty) : ofTy t ++ R ≠ [] := by
  intro h
  have hlength := congrArg List.length (List.append_eq_nil_iff.mp h).1
  rw [ofTy] at hlength
  split at hlength <;> simp [ofText, sized] at hlength

end Pieces

section Shapes

private theorem ofPrimitive_flat {t : Ty} {bytes : Bytes} (ht : t.isFlat) :
    ofPrimitive names (.scalar t bytes) = ofTy t ++ sized bytes := by
  have hp : (Primitive.scalar t bytes).Constant := .flat ht
  have hpayload : payload names (.scalar t bytes) = sized bytes := payload_of_constant hp
  change ofTy t ++ payload names (.scalar t bytes) ++ [] ++ [] = _
  rw [hpayload, List.append_nil, List.append_nil]

private theorem ofPrimitive_array (elem : Ty) (items : List Primitive) :
    ofPrimitive names (.array elem items) =
      ofTy (.array elem) ++ (sized [] ++ ofItems names items) := by
  change ofTy (.array elem) ++ sized [] ++ ofItems names items ++ [] = _
  rw [List.append_nil, List.append_assoc]

private theorem ofPrimitive_map (key value : Ty) (entries : List (String × Primitive)) :
    ofPrimitive names (.map key value entries) =
      ofTy (.map key value) ++ (sized [] ++ ofEntries names entries) := by
  change ofTy (.map key value) ++ sized [] ++ [] ++ ofEntries names entries = _
  rw [List.append_nil, List.append_assoc]

theorem ofPrimitive_eq_append (names : Names) (p : Primitive) :
    ∃ S, ofPrimitive names p = ofTy p.typ ++ S := by
  obtain ⟨typ, bytes, items, entries⟩ := p
  exact ⟨payload names (.scalar typ bytes) ++ ofItems names items ++ ofEntries names entries, by
    rw [ofPrimitive]
    simp only [List.append_assoc]⟩

private theorem ofPrimitive_of_isBare (names : Names) {p : Primitive} (hp : p.isBare) :
    ∃ S, ofPrimitive names p = ofTy p.typ ++ (sized [] ++ S) := by
  obtain ⟨typ, bytes, items, entries⟩ := p
  simp only [Primitive.isBare, Bool.and_eq_true, List.isEmpty_iff, bne_iff_ne] at hp
  obtain ⟨⟨rfl, href⟩, hfunction⟩ := hp
  have hpayload : payload names (.scalar typ []) = sized [] := by
    rw [payload]
    split
    · next htyp => exact absurd htyp href
    · next htyp => exact absurd htyp hfunction
    · rfl
  exact ⟨ofItems names items ++ ofEntries names entries, by
    rw [ofPrimitive, hpayload]
    simp only [List.append_assoc]⟩

end Shapes

private theorem encode_ne_nil {t : Ty} {b : Bytes} (h : t.encode = .ok b) : b ≠ [] := by
  rintro rfl
  have hread := Ty.decode_encode h
  cases hread

/-- Whether some bytes begin with what follows. -/
def Begins (R : Bytes) : Follower → Prop
  | .item p => ¬p.typ.NameTooLong ∧ ∃ (names : Names) (S : Bytes), R = ofPrimitive names p ++ S
  | .entry key => ∃ S, R = ofText key ++ S

/-- Whether what comes after a primitive cannot be taken to be a part of it. -/
def Ends (p : Primitive) (R : Bytes) : Prop :=
  R = [] ∨ ∃ next, Begins R next ∧ p.takesIn next = false

theorem Ends.typ {typ : Ty} {bytes : Bytes} {items : List Primitive}
    {entries : List (String × Primitive)} (h : Ends ⟨typ, bytes, items, entries⟩ R) :
    R = [] ∨ ∃ next, Begins R next ∧ Primitive.typeTakesIn typ next = false := by
  rcases h with hnil | ⟨next, hbegins, htakes⟩
  · exact .inl hnil
  · rw [Primitive.takesIn, Bool.or_eq_false_iff, Bool.or_eq_false_iff] at htakes
    exact .inr ⟨next, hbegins, htakes.1.1⟩

private theorem Ends.last_item {elem : Ty} {items : List Primitive}
    (h : Ends (.array elem items) R) : ∀ p ∈ items.getLast?, Ends p R := by
  intro p hp
  rcases h with hnil | ⟨next, hbegins, htakes⟩
  · exact .inl hnil
  · rw [Primitive.array, Primitive.takesIn, Bool.or_eq_false_iff, Bool.or_eq_false_iff] at htakes
    exact .inr ⟨next, hbegins, Primitive.takesIn_of_getLast? htakes.1.2 p hp⟩

private theorem Ends.last_entry {key value : Ty} {entries : List (String × Primitive)}
    (h : Ends (.map key value entries) R) : ∀ e ∈ entries.getLast?, Ends e.2 R := by
  intro e he
  rcases h with hnil | ⟨next, hbegins, htakes⟩
  · exact .inl hnil
  · rw [Primitive.map, Primitive.takesIn, Bool.or_eq_false_iff] at htakes
    exact .inr ⟨next, hbegins, Primitive.takesIn_of_getLast?_entries htakes.2 e he⟩

theorem forall_getLast?_of_cons {α : Type} {P : α → Prop} {a : α} {l : List α}
    (h : ∀ x ∈ (a :: l).getLast?, P x) : ∀ x ∈ l.getLast?, P x := by
  cases l with
  | nil => rintro _ ⟨⟩
  | cons => rwa [List.getLast?_cons_cons] at h

/-- In a delimited list the items that are left, and what follows the list, are no part of the
first. -/
private theorem ends_next_item {p : Primitive} {rest : List Primitive}
    (hrest : Primitive.itemsDelimited (p :: rest)) (hnamed : ∀ q ∈ p :: rest, ¬q.typ.NameTooLong)
    (hR : ∀ q ∈ (p :: rest).getLast?, Ends q R) : Ends p (ofItems names rest ++ R) := by
  cases rest with
  | nil => exact hR p rfl
  | cons q rest =>
    simp only [Primitive.itemsDelimited, List.head?_cons, Option.all_some, Bool.and_eq_true,
      Bool.not_eq_true'] at hrest
    refine .inr ⟨.item q, ⟨hnamed q (List.mem_cons_of_mem _ List.mem_cons_self), names,
      ofItems names rest ++ R, ?_⟩, hrest.1.2⟩
    rw [ofItems, List.append_assoc]

private theorem ends_next_entry {e : String × Primitive} {rest : List (String × Primitive)}
    (hrest : Primitive.entriesDelimited (e :: rest))
    (hR : ∀ f ∈ (e :: rest).getLast?, Ends f.2 R) : Ends e.2 (ofEntries names rest ++ R) := by
  cases rest with
  | nil => exact hR e rfl
  | cons f rest =>
    simp only [Primitive.entriesDelimited, List.head?_cons, Option.all_some, Bool.and_eq_true,
      Bool.not_eq_true'] at hrest
    refine .inr ⟨.entry f.1, ⟨ofPrimitive names f.2 ++ (ofEntries names rest ++ R), ?_⟩,
      hrest.1.2⟩
    rw [ofEntries]
    simp only [List.append_assoc]

private theorem Ends.ne_item {elem : Ty} {items : List Primitive} (h : Ends (.array elem items) R)
    (hlength : R.length < 2 ^ 64) (helem : ¬elem.NameTooLong) (S : Bytes) : R ≠ ofTy elem ++ S := by
  intro hitem
  rcases h.typ with hnil | ⟨next, hbegins, htakes⟩
  · exact ofTy_append_ne_nil elem (hitem.symm.trans hnil)
  · cases next with
    | item p =>
      obtain ⟨hname, names, T, hp⟩ := hbegins
      obtain ⟨U, hU⟩ := ofPrimitive_eq_append names p
      rw [hU, List.append_assoc] at hp
      obtain ⟨rfl, _⟩ := ofTy_cancel helem hname (hitem ▸ hlength) (hitem.symm.trans hp)
      rw [Primitive.typeTakesIn, beq_self_eq_true] at htakes
      cases htakes
    | entry key =>
      obtain ⟨T, hkey⟩ := hbegins
      obtain ⟨b, hb⟩ := (Ty.encode_succeeds_iff elem).mpr helem
      rw [ofTy_of_encode hb] at hitem
      obtain ⟨rfl, _⟩ := sized_cancel (hitem ▸ hlength) (hitem.symm.trans hkey)
      rw [Primitive.typeTakesIn, hb, Except.toOption, beq_self_eq_true] at htakes
      cases htakes

private theorem Ends.ne_entry {key value : Ty} {entries : List (String × Primitive)}
    (h : Ends (.map key value entries) R) (hlength : R.length < 2 ^ 64) (name : String)
    {q : Primitive} (hq : ¬q.typ.NameTooLong) (S : Bytes) :
    R ≠ ofText name ++ (ofPrimitive names q ++ S) := by
  intro hentry
  rcases h.typ with hnil | ⟨next, hbegins, htakes⟩
  · have hnone := congrArg List.length (hnil.symm.trans hentry)
    simp only [ofText, sized, List.length_append, length_littleEndian, List.length_nil] at hnone
    omega
  · cases next with
    | item p =>
      -- after the type of what follows come no bytes, but after a key comes a type
      obtain ⟨hname, names', T, hp⟩ := hbegins
      rw [Primitive.typeTakesIn, Bool.not_eq_false'] at htakes
      obtain ⟨U, hU⟩ := ofPrimitive_of_isBare names' htakes
      obtain ⟨U', hU'⟩ := ofPrimitive_eq_append names q
      obtain ⟨b, hb⟩ := (Ty.encode_succeeds_iff p.typ).mpr hname
      obtain ⟨c, hc⟩ := (Ty.encode_succeeds_iff q.typ).mpr hq
      rw [hU, ofTy_of_encode hb, List.append_assoc, List.append_assoc] at hp
      rw [hU', ofTy_of_encode hc, List.append_assoc] at hentry
      obtain ⟨_, hrest⟩ := sized_cancel (hp ▸ hlength) (hp.symm.trans hentry)
      have hshort := length_lt_of_append (hp ▸ hlength)
      exact encode_ne_nil hc (sized_cancel hshort hrest).1.symm
    | entry key => cases htakes

/-- Lists of primitives are told apart if each primitive is, with what follows it, and what follows
the lists is no further item. -/
theorem ofItems_cancel {P : Primitive → Primitive → Prop} {ps qs : List Primitive}
    (heach : ∀ p ∈ ps, ∀ q ∈ qs, ∀ R S, Ends p R → Ends q S →
      (ofPrimitive names p ++ R).length < 2 ^ 64 →
      ofPrimitive names p ++ R = ofPrimitive names' q ++ S → P p q ∧ R = S)
    (hps : Primitive.itemsDelimited ps) (hqs : Primitive.itemsDelimited qs)
    (hnamed : ∀ p ∈ ps, ¬p.typ.NameTooLong) (hnamed' : ∀ q ∈ qs, ¬q.typ.NameTooLong)
    (hR : ∀ p ∈ ps.getLast?, Ends p R) (hS : ∀ q ∈ qs.getLast?, Ends q S)
    (hend : ∀ q ∈ qs, ∀ S', R ≠ ofTy q.typ ++ S') (hend' : ∀ p ∈ ps, ∀ R', S ≠ ofTy p.typ ++ R')
    (hlength : (ofItems names ps ++ R).length < 2 ^ 64)
    (h : ofItems names ps ++ R = ofItems names' qs ++ S) : List.Forall₂ P ps qs ∧ R = S := by
  induction ps generalizing qs with
  | nil =>
    cases qs with
    | nil => exact ⟨.nil, h⟩
    | cons q qs =>
      obtain ⟨U, hU⟩ := ofPrimitive_eq_append names' q
      rw [ofItems, ofItems, hU, List.append_assoc, List.append_assoc] at h
      exact absurd h (hend q List.mem_cons_self _)
  | cons p ps ih =>
    cases qs with
    | nil =>
      obtain ⟨U, hU⟩ := ofPrimitive_eq_append names p
      rw [ofItems, ofItems, hU, List.append_assoc, List.append_assoc] at h
      exact absurd h.symm (hend' p List.mem_cons_self _)
    | cons q qs =>
      rw [ofItems, List.append_assoc] at h hlength
      rw [ofItems, List.append_assoc] at h
      obtain ⟨hpq, hrest⟩ := heach p List.mem_cons_self q List.mem_cons_self _ _
        (ends_next_item hps hnamed hR) (ends_next_item hqs hnamed' hS) hlength h
      simp only [Primitive.itemsDelimited, Bool.and_eq_true] at hps hqs
      obtain ⟨hall, hRS⟩ := ih
        (fun p hp q hq => heach p (List.mem_cons_of_mem _ hp) q (List.mem_cons_of_mem _ hq))
        hps.2 hqs.2 (fun p hp => hnamed p (List.mem_cons_of_mem _ hp))
        (fun q hq => hnamed' q (List.mem_cons_of_mem _ hq)) (forall_getLast?_of_cons hR)
        (forall_getLast?_of_cons hS)
        (fun q hq => hend q (List.mem_cons_of_mem _ hq))
        (fun p hp => hend' p (List.mem_cons_of_mem _ hp)) (length_lt_of_append hlength) hrest
      exact ⟨.cons hpq hall, hRS⟩

/-- The entries of maps are told apart if each value is, with what follows it, and what follows the
maps is no further entry. -/
private theorem ofEntries_cancel {es fs : List (String × Primitive)}
    (heach : ∀ e ∈ es, ∀ f ∈ fs, ∀ R S, Ends e.2 R → Ends f.2 S →
      (ofPrimitive names e.2 ++ R).length < 2 ^ 64 →
      ofPrimitive names e.2 ++ R = ofPrimitive names' f.2 ++ S → e.2 = f.2 ∧ R = S)
    (hes : Primitive.entriesDelimited es) (hfs : Primitive.entriesDelimited fs)
    (hR : ∀ e ∈ es.getLast?, Ends e.2 R) (hS : ∀ f ∈ fs.getLast?, Ends f.2 S)
    (hend : ∀ f ∈ fs, ∀ S', R ≠ ofText f.1 ++ (ofPrimitive names' f.2 ++ S'))
    (hend' : ∀ e ∈ es, ∀ R', S ≠ ofText e.1 ++ (ofPrimitive names e.2 ++ R'))
    (hlength : (ofEntries names es ++ R).length < 2 ^ 64)
    (h : ofEntries names es ++ R = ofEntries names' fs ++ S) : es = fs ∧ R = S := by
  induction es generalizing fs with
  | nil =>
    cases fs with
    | nil => exact ⟨rfl, h⟩
    | cons f fs =>
      rw [ofEntries, ofEntries, List.append_assoc, List.append_assoc] at h
      exact absurd h (hend f List.mem_cons_self _)
  | cons e es ih =>
    cases fs with
    | nil =>
      rw [ofEntries, ofEntries, List.append_assoc, List.append_assoc] at h
      exact absurd h.symm (hend' e List.mem_cons_self _)
    | cons f fs =>
      obtain ⟨key, p⟩ := e
      obtain ⟨key', q⟩ := f
      rw [ofEntries, List.append_assoc, List.append_assoc] at h hlength
      rw [ofEntries, List.append_assoc, List.append_assoc] at h
      obtain ⟨rfl, hvalue⟩ := ofText_cancel hlength h
      have hlength := length_lt_of_append hlength
      obtain ⟨hpq, hrest⟩ := heach _ List.mem_cons_self _ List.mem_cons_self _ _
        (ends_next_entry hes hR) (ends_next_entry hfs hS) hlength hvalue
      simp only [Primitive.entriesDelimited, Bool.and_eq_true] at hes hfs
      obtain ⟨hsame, hRS⟩ := ih
        (fun e he f hf => heach e (List.mem_cons_of_mem _ he) f (List.mem_cons_of_mem _ hf))
        hes.2 hfs.2 (forall_getLast?_of_cons hR) (forall_getLast?_of_cons hS)
        (fun f hf => hend f (List.mem_cons_of_mem _ hf))
        (fun e he => hend' e (List.mem_cons_of_mem _ he)) (length_lt_of_append hlength) hrest
      obtain rfl : p = q := hpq
      exact ⟨hsame ▸ rfl, hRS⟩

theorem typ_cancel {p q : Primitive} (hp : p.Legible) (hq : q.Legible)
    (hlength : (ofPrimitive names p ++ R).length < 2 ^ 64)
    (h : ofPrimitive names p ++ R = ofPrimitive names' q ++ S) : p.typ = q.typ := by
  obtain ⟨U, hU⟩ := ofPrimitive_eq_append names p
  obtain ⟨U', hU'⟩ := ofPrimitive_eq_append names' q
  rw [hU, List.append_assoc] at h hlength
  rw [hU', List.append_assoc] at h
  exact (ofTy_cancel hp.typ hq.typ hlength h).1

theorem constant_cancel {p q : Primitive} (hp : p.Constant) (hq : q.Constant) (hpl : p.Legible)
    (hql : q.Legible) (hR : Ends p R) (hS : Ends q S)
    (hlength : (ofPrimitive names p ++ R).length < 2 ^ 64)
    (h : ofPrimitive names p ++ R = ofPrimitive names' q ++ S) : p = q ∧ R = S := by
  induction hp generalizing q R S with
  | @flat t bytes ht =>
    have htyp : t = q.typ := typ_cancel hpl hql hlength h
    cases hq with
    | @flat u bytes' hu =>
      obtain rfl : t = u := htyp
      rw [ofPrimitive_flat ht, List.append_assoc] at h hlength
      rw [ofPrimitive_flat ht, List.append_assoc] at h
      obtain ⟨rfl, hRS⟩ :=
        sized_cancel (length_lt_of_append hlength) (List.append_cancel_left h)
      exact ⟨rfl, hRS⟩
    | array => exact absurd (htyp ▸ ht) nofun
    | map => exact absurd (htyp ▸ ht) nofun
  | @array elem items htypes hitems ih =>
    have htyp : Ty.array elem = q.typ := typ_cancel hpl hql hlength h
    cases hq with
    | @flat u bytes hu => exact absurd (show (Ty.array elem).isFlat from htyp ▸ hu) nofun
    | @array elem' items' htypes' hitems' =>
      obtain rfl := Ty.array.inj htyp
      rw [ofPrimitive_array, List.append_assoc, List.append_assoc] at h hlength
      rw [ofPrimitive_array, List.append_assoc, List.append_assoc] at h
      have hrest := List.append_cancel_left (List.append_cancel_left h)
      have hlength := length_lt_of_append (length_lt_of_append hlength)
      obtain ⟨hdelimited, hlegible⟩ := hpl.items
      obtain ⟨hdelimited', hlegible'⟩ := hql.items
      have hRlength := length_lt_of_append hlength
      have hSlength := length_lt_of_append (hrest ▸ hlength)
      have helem : ¬elem.NameTooLong := hpl.typ
      obtain ⟨hall, hRS⟩ := ofItems_cancel (P := Eq)
        (fun p hp q hq R S hR hS => ih p hp (hitems' q hq) (hlegible p hp) (hlegible' q hq) hR hS)
        hdelimited hdelimited' (fun p hp => (hlegible p hp).typ) (fun q hq => (hlegible' q hq).typ)
        hR.last_item hS.last_item
        (fun q hq => htypes' q hq ▸ hR.ne_item hRlength helem)
        (fun p hp => htypes p hp ▸ hS.ne_item hSlength helem) hlength hrest
      exact ⟨congrArg _ (List.forall₂_eq_eq_eq ▸ hall), hRS⟩
    | map => cases htyp
  | @map value entries hentries ih =>
    have htyp : Ty.map .string value = q.typ := typ_cancel hpl hql hlength h
    cases hq with
    | @flat u bytes hu => exact absurd (show (Ty.map .string value).isFlat from htyp ▸ hu) nofun
    | array => cases htyp
    | @map value' entries' hentries' =>
      obtain ⟨_, rfl⟩ := Ty.map.inj htyp
      rw [ofPrimitive_map, List.append_assoc, List.append_assoc] at h hlength
      rw [ofPrimitive_map, List.append_assoc, List.append_assoc] at h
      have hrest := List.append_cancel_left (List.append_cancel_left h)
      have hlength := length_lt_of_append (length_lt_of_append hlength)
      obtain ⟨hdelimited, hlegible⟩ := hpl.entries
      obtain ⟨hdelimited', hlegible'⟩ := hql.entries
      have hRlength := length_lt_of_append hlength
      have hSlength := length_lt_of_append (hrest ▸ hlength)
      obtain ⟨rfl, hRS⟩ := ofEntries_cancel
        (fun e he f hf R S hR hS => ih e he (hentries' f hf) (hlegible e he) (hlegible' f hf) hR hS)
        hdelimited hdelimited' hR.last_entry hS.last_entry
        (fun f hf => hR.ne_entry hRlength f.1 (hlegible' f hf).typ)
        (fun e he => hS.ne_entry hSlength e.1 (hlegible e he).typ) hlength hrest
      exact ⟨rfl, hRS⟩

section Chunks

variable {a b : Code}

/-- Arguments that differ only in the numbers of chunks and blocks with the same checksums. -/
inductive SameArg (names names' : Names) : Primitive → Primitive → Prop
  | constant {p : Primitive} : p.Constant → SameArg names names' p p
  | chunk {r q : Ref} : names.chunk r = names'.chunk q → SameArg names names' (.ref r) (.ref q)
  | block {j k : Ref} : names.block j = names'.block k →
    SameArg names names' (.function j) (.function k)

theorem SameArg.eq_constant {p q : Primitive} (h : SameArg names names' p q) (hp : p.Constant) :
    q = p := by
  cases h with
  | constant => rfl
  | chunk => exact absurd rfl hp.typ_ne_ref
  | block => exact absurd rfl hp.typ_ne_functionLike

theorem SameArg.exists_ref {r : Ref} {q : Primitive} (h : SameArg names names' (.ref r) q) :
    ∃ r', q = .ref r' ∧ names.chunk r = names'.chunk r' := by
  generalize hp : Primitive.ref r = p at h
  cases h with
  | constant hconstant => exact absurd (congrArg Primitive.typ hp).symm hconstant.typ_ne_ref
  | chunk hsum =>
    obtain rfl := Primitive.scalar_int32Bytes_injective hp
    exact ⟨_, rfl, hsum⟩
  | block => cases congrArg Primitive.typ hp

theorem SameArg.exists_function {k : Ref} {q : Primitive}
    (h : SameArg names names' (.function k) q) :
    ∃ k', q = .function k' ∧ names.block k = names'.block k' := by
  generalize hp : Primitive.function k = p at h
  cases h with
  | constant hconstant =>
    exact absurd (congrArg Primitive.typ hp).symm hconstant.typ_ne_functionLike
  | chunk => cases congrArg Primitive.typ hp
  | block hid =>
    obtain rfl := Primitive.scalar_int32Bytes_injective hp
    exact ⟨_, rfl, hid⟩

private theorem arg_cancel {p q : Primitive} (hp : a.Uses p) (hq : b.Uses q) (hpl : p.Legible)
    (hql : q.Legible) (hR : Ends p R) (hS : Ends q S)
    (hlength : (ofPrimitive names p ++ R).length < 2 ^ 64)
    (h : ofPrimitive names p ++ R = ofPrimitive names' q ++ S) :
    SameArg names names' p q ∧ R = S := by
  have htyp := typ_cancel hpl hql hlength h
  rcases hp.kinds with hconstant | ⟨r, rfl, _⟩ | ⟨j, rfl, _⟩
  · rcases hq.kinds with hconstant' | ⟨r', rfl, _⟩ | ⟨j', rfl, _⟩
    · obtain ⟨rfl, hRS⟩ := constant_cancel hconstant hconstant' hpl hql hR hS hlength h
      exact ⟨.constant hconstant, hRS⟩
    · exact absurd htyp hconstant.typ_ne_ref
    · exact absurd htyp hconstant.typ_ne_functionLike
  · rcases hq.kinds with hconstant' | ⟨r', rfl, _⟩ | ⟨j', rfl, _⟩
    · exact absurd htyp.symm hconstant'.typ_ne_ref
    · rw [ofPrimitive_ref, List.append_assoc] at h hlength
      rw [ofPrimitive_ref, List.append_assoc] at h
      obtain ⟨hsame, hRS⟩ :=
        ofText_cancel (length_lt_of_append hlength) (List.append_cancel_left h)
      exact ⟨.chunk hsame, hRS⟩
    · cases htyp
  · rcases hq.kinds with hconstant' | ⟨r', rfl, _⟩ | ⟨j', rfl, _⟩
    · exact absurd htyp.symm hconstant'.typ_ne_functionLike
    · cases htyp
    · rw [ofPrimitive_function, List.append_assoc] at h hlength
      rw [ofPrimitive_function, List.append_assoc] at h
      obtain ⟨hsame, hRS⟩ :=
        ofText_cancel (length_lt_of_append hlength) (List.append_cancel_left h)
      exact ⟨.block hsame, hRS⟩

/-- Chunks that differ only in the numbers of chunks and blocks with the same checksums. -/
inductive SameChunk (names names' : Names) : Chunk → Chunk → Prop
  | constant {p : Primitive} : p.Constant →
    SameChunk names names' (.ofPrimitive p) (.ofPrimitive p)
  | property {name : String} {t : Ty} :
    SameChunk names names' (.property name t) (.property name t)
  | resource {name : String} {t : Ty} {ps qs : List Primitive} :
    List.Forall₂ (SameArg names names') ps qs →
    SameChunk names names' (.call name t 0 ps) (.call name t 0 qs)
  | call {name : String} {t : Ty} {binding binding' : Ref} {ps qs : List Primitive} :
    binding ≠ 0 → binding' ≠ 0 → names.chunk binding = names'.chunk binding' →
    List.Forall₂ (SameArg names names') ps qs →
    SameChunk names names' (.call name t binding ps) (.call name t binding' qs)

theorem SameChunk.eq_ofPrimitive {p : Primitive} {d : Chunk}
    (h : SameChunk names names' (.ofPrimitive p) d) : d = .ofPrimitive p := by
  generalize hc : Chunk.ofPrimitive p = c at h
  cases h with
  | constant => rfl
  | property => cases congrArg Chunk.kind hc
  | resource => cases congrArg Chunk.kind hc
  | call => cases congrArg Chunk.kind hc

theorem SameChunk.eq_property {name : String} {t : Ty} {d : Chunk}
    (h : SameChunk names names' (.property name t) d) : d = .property name t := by
  cases h
  rfl

theorem SameChunk.exists_resource {name : String} {t : Ty} {ps : List Primitive} {d : Chunk}
    (h : SameChunk names names' (.call name t 0 ps) d) :
    ∃ qs, d = .call name t 0 qs ∧ List.Forall₂ (SameArg names names') ps qs := by
  cases h with
  | resource hargs => exact ⟨_, rfl, hargs⟩
  | call hbinding => exact absurd rfl hbinding

theorem SameChunk.exists_call {name : String} {t : Ty} {binding : Ref} {ps : List Primitive}
    {d : Chunk} (h : SameChunk names names' (.call name t binding ps) d) (hbinding : binding ≠ 0) :
    ∃ binding' qs, d = .call name t binding' qs ∧ binding' ≠ 0 ∧
      names.chunk binding = names'.chunk binding' ∧
      List.Forall₂ (SameArg names names') ps qs := by
  cases h with
  | resource => exact absurd rfl hbinding
  | call _ hbinding' hreceiver hargs => exact ⟨_, _, rfl, hbinding', hreceiver, hargs⟩

private theorem args_cancel {ps qs : List Primitive} (hps : ∀ p ∈ ps, a.Uses p)
    (hqs : ∀ q ∈ qs, b.Uses q) (hpl : Primitive.itemsDelimited ps ∧ ∀ p ∈ ps, p.Legible)
    (hql : Primitive.itemsDelimited qs ∧ ∀ q ∈ qs, q.Legible)
    (hlength : (ofItems names ps).length < 2 ^ 64)
    (h : ofItems names ps = ofItems names' qs) : List.Forall₂ (SameArg names names') ps qs := by
  rw [← List.append_nil (ofItems names ps), ← List.append_nil (ofItems names' qs)] at h
  rw [← List.append_nil (ofItems names ps)] at hlength
  exact (ofItems_cancel
    (fun p hp q hq R S hR hS => arg_cancel (hps p hp) (hqs q hq) (hpl.2 p hp) (hql.2 q hq) hR hS)
    hpl.1 hql.1 (fun p hp => (hpl.2 p hp).typ) (fun q hq => (hql.2 q hq).typ)
    (fun _ _ => .inl rfl) (fun _ _ => .inl rfl)
    (fun q _ _ => (ofTy_append_ne_nil q.typ).symm) (fun p _ _ => (ofTy_append_ne_nil p.typ).symm)
    hlength h).1

private theorem ofText_ne_ofItems {sum : String} {ps : List Primitive}
    (hsum : (Utf8.encode sum).length ≠ 1) (hfirst : ∀ p ∈ ps.head?, p.typ = .string)
    (hlength : (ofItems names ps).length < 2 ^ 64) : ofItems names ps ≠ ofText sum ++ S := by
  intro h
  cases ps with
  | nil =>
    have hnone := congrArg List.length h
    simp only [ofItems, ofText, sized, List.length_append, length_littleEndian,
      List.length_nil] at hnone
    omega
  | cons p rest =>
    obtain ⟨U, hU⟩ := ofPrimitive_eq_append names p
    have htyp : p.typ = .string := hfirst p rfl
    have hstring : ofTy .string = sized [6] := rfl
    rw [ofItems, hU, htyp, hstring, List.append_assoc] at h hlength
    obtain ⟨hone, _⟩ := sized_cancel hlength h
    exact hsum (by rw [← hone]; rfl)

private theorem ofKind_injective {k l : ChunkKind} (h : ofKind k = ofKind l) : k = l := by
  cases k <;> cases l <;> first | rfl | cases h

theorem tail_cancel {k l : UInt8} {x y : Bytes} (hlength : (k :: x).length < 2 ^ 64)
    (h : k :: x = l :: y) : x.length < 2 ^ 64 ∧ x = y := by
  rw [List.length_cons] at hlength
  exact ⟨by omega, (List.cons.inj h).2⟩

private theorem call_cancel {name name' : String} {t t' : Ty} {binding binding' : Ref}
    {ps qs : List Primitive} (hcl : (Chunk.call name t binding ps).Legible)
    (hdl : (Chunk.call name' t' binding' qs).Legible)
    (hlength : (ofChunk names (.call name t binding ps)).length < 2 ^ 64)
    (h : ofChunk names (.call name t binding ps) = ofChunk names' (.call name' t' binding' qs)) :
    name = name' ∧ t = t' ∧
      (((if 0 < binding.toInt then ofText (names.chunk binding) else []) ++
        ofItems names ps).length < 2 ^ 64) ∧
      (if 0 < binding.toInt then ofText (names.chunk binding) else []) ++ ofItems names ps =
        (if 0 < binding'.toInt then ofText (names'.chunk binding') else []) ++
          ofItems names' qs := by
  rw [ofChunk_call] at h hlength
  rw [ofChunk_call] at h
  obtain ⟨hlength, h⟩ := tail_cancel hlength h
  obtain ⟨hname, h⟩ := ofText_cancel hlength h
  have hlength := length_lt_of_append hlength
  obtain ⟨htyp, h⟩ := ofTy_cancel hcl.call.1 hdl.call.1 hlength h
  exact ⟨hname, htyp, length_lt_of_append hlength, h⟩

/-- Chunks are told apart, but for the numbers in them, if no checksum is a single byte. -/
theorem chunk_cancel {c d : Chunk} (hc : a.Form c) (hd : b.Form d) (hcl : c.Legible)
    (hdl : d.Legible) (hlong : ∀ r, (a.chunk? r).isSome → (Utf8.encode (names.chunk r)).length ≠ 1)
    (hlong' : ∀ q, (b.chunk? q).isSome → (Utf8.encode (names'.chunk q)).length ≠ 1)
    (hlength : (ofChunk names c).length < 2 ^ 64) (h : ofChunk names c = ofChunk names' d) :
    SameChunk names names' c d := by
  have hlength' : (ofChunk names' d).length < 2 ^ 64 := h ▸ hlength
  have hkind : c.kind = d.kind := ofKind_injective (List.cons.inj h).1
  cases hc with
  | @constant p hp =>
    cases hd with
    | @constant q hq =>
      rw [ofChunk_constant] at h hlength
      rw [ofChunk_constant] at h
      obtain ⟨hlength, h⟩ := tail_cancel hlength h
      obtain ⟨_, h⟩ := ofText_cancel hlength h
      have hlength := length_lt_of_append hlength
      rw [← List.append_nil (ofPrimitive names p)] at h hlength
      rw [← List.append_nil (ofPrimitive names' q)] at h
      obtain ⟨rfl, _⟩ := constant_cancel hp hq hcl.constant hdl.constant (.inl rfl) (.inl rfl)
        hlength h
      exact .constant hp
    | property => cases hkind
    | resource => cases hkind
    | call => cases hkind
  | @property name t =>
    cases hd with
    | constant => cases hkind
    | @property name' t' =>
      rw [ofChunk_property_eq] at h hlength
      rw [ofChunk_property_eq] at h
      obtain ⟨hlength, h⟩ := tail_cancel hlength h
      obtain ⟨rfl, hrest⟩ := ofText_cancel hlength h
      have hlength := length_lt_of_append hlength
      obtain ⟨rfl, _⟩ := ofTy_cancel hcl.property hdl.property hlength hrest
      exact .property
    | resource => cases hkind
    | call => cases hkind
  | @resource name t ps hps hfirst =>
    cases hd with
    | constant => cases hkind
    | property => cases hkind
    | @resource name' t' qs hqs hfirst' =>
      obtain ⟨rfl, rfl, hlength, h⟩ := call_cancel hcl hdl hlength h
      exact .resource (args_cancel hps hqs hcl.call.2 hdl.call.2 hlength h)
    | @call name' t' binding qs hbinding hqs =>
      obtain ⟨_, _, hlength, h⟩ := call_cancel hcl hdl hlength h
      rw [if_pos (Code.earlier_of_isSome hbinding).1] at h
      exact absurd h (ofText_ne_ofItems (hlong' _ hbinding) hfirst hlength)
  | @call name t binding ps hbinding hps =>
    cases hd with
    | constant => cases hkind
    | property => cases hkind
    | @resource name' t' qs hqs hfirst =>
      obtain ⟨_, _, hlength, h⟩ := call_cancel hdl hcl hlength' h.symm
      rw [if_pos (Code.earlier_of_isSome hbinding).1] at h
      exact absurd h (ofText_ne_ofItems (hlong _ hbinding) hfirst hlength)
    | @call name' t' binding' qs hbinding' hqs =>
      obtain ⟨rfl, rfl, hlength, h⟩ := call_cancel hcl hdl hlength h
      rw [if_pos (Code.earlier_of_isSome hbinding).1] at h hlength
      rw [if_pos (Code.earlier_of_isSome hbinding').1] at h
      obtain ⟨hreceiver, h⟩ := ofText_cancel hlength h
      have hlength := length_lt_of_append hlength
      have hne {code : Code} {r : Ref} (hr : (code.chunk? r).isSome) : r ≠ 0 := by
        rintro rfl
        cases hr
      exact .call (hne hbinding) (hne hbinding') hreceiver
        (args_cancel hps hqs hcl.call.2 hdl.call.2 hlength h)

end Chunks

end Checksum

end AssetQuery
