import AssetQuery.Code.Basic
import AssetQuery.Code.Wire
import Mathlib.Data.Fintype.Pigeonhole
import Mathlib.Logic.Relation

/-!
# Following references

The type of a chunk is looked up by following references. In a code that was read, references may
lead anywhere: forward, to no chunk, to themselves, or round in a circle. The lookup comes to an end
exactly if it does not run into a circle, and gives the type of the chunk at which it ends.
-/

namespace AssetQuery

namespace Chunk

/-- What a chunk that is a reference refers with. -/
def reference? (c : Chunk) : Option Primitive :=
  match c.kind with
  | .function => none
  | .primitive | .property => c.primitive.filter fun p => p.typ = .ref

/-- The type that a chunk has by itself. -/
def ownType (c : Chunk) : Ty :=
  match c.kind with
  | .function => (c.function.map (·.typ)).getD .any
  | .primitive | .property => (c.primitive.map (·.typ)).getD .any

end Chunk

namespace Code

variable {code : Code} {r next q : Ref} {t : Ty}

/-- Whether a chunk is a reference to another. -/
def Refers (code : Code) (r next : Ref) : Prop :=
  ∃ c p, code.chunk? r = some c ∧ c.reference? = some p ∧ p.asRef = .ok next ∧ next ≠ r

/-- Whether following references goes no further than a chunk, and with which type: there is no such
chunk, or it is no reference, or one that cannot be read, or one to itself. -/
inductive Ends (code : Code) (r : Ref) : Ty → Prop
  | missing : code.chunk? r = none → Ends code r .any
  | chunk {c : Chunk} : code.chunk? r = some c → c.reference? = none → Ends code r c.ownType
  | unreadable {c : Chunk} {p : Primitive} {e : SerialError} : code.chunk? r = some c →
    c.reference? = some p → p.asRef = .error e → Ends code r .any
  | itself {c : Chunk} {p : Primitive} : code.chunk? r = some c → c.reference? = some p →
    p.asRef = .ok r → Ends code r .ref

/-- The recursion by which the type of a chunk is looked up, whether or not it comes to an end: a
chunk has the type with which following references ends there, or that of the chunk it is a
reference to. -/
inductive Types (code : Code) : Ref → Ty → Prop
  | here {r : Ref} {t : Ty} : code.Ends r t → Types code r t
  | further {r next : Ref} {t : Ty} : code.Refers r next → Types code next t → Types code r t

/-- Whether following references from a chunk leads to another, perhaps itself. -/
def Leads (code : Code) : Ref → Ref → Prop := Relation.ReflTransGen code.Refers

/-- Whether a chunk stands in a circle of references. -/
def Circles (code : Code) (r : Ref) : Prop := Relation.TransGen code.Refers r r

theorem typeStep_of_reference {c : Chunk} {p : Primitive} (hc : code.chunk? r = some c)
    (hp : c.reference? = some p) :
    code.typeStep r =
      match p.asRef with
      | .ok next => if next = r then .inl .ref else .inr next
      | .error _ => .inl .any := by
  obtain ⟨kind, id, function, primitive⟩ := c
  rw [typeStep, hc]
  cases kind with
  | function => cases hp
  | primitive | property =>
    obtain ⟨hprimitive, htyp⟩ := Option.filter_eq_some_iff.mp hp
    simp only at hprimitive
    subst hprimitive
    exact if_pos (of_decide_eq_true htyp)

theorem typeStep_of_refers (h : code.Refers r next) : code.typeStep r = .inr next := by
  obtain ⟨c, p, hc, hp, hnext, hne⟩ := h
  rw [typeStep_of_reference hc hp, hnext]
  exact if_neg hne

theorem typeStep_of_ends (h : code.Ends r t) : code.typeStep r = .inl t := by
  cases h with
  | missing hc => rw [typeStep, hc]
  | @chunk c hc hnone =>
    obtain ⟨kind, id, function, primitive⟩ := c
    rw [typeStep, hc]
    cases kind with
    | function => rfl
    | primitive | property =>
      cases primitive with
      | none => rfl
      | some p =>
        have htyp : p.typ ≠ .ref := by simpa [Chunk.reference?] using hnone
        exact if_neg htyp
  | unreadable hc hp he => rw [typeStep_of_reference hc hp, he]
  | itself hc hp hr =>
    rw [typeStep_of_reference hc hp, hr]
    exact if_pos rfl

theorem ends_or_refers (code : Code) (r : Ref) :
    (∃ t, code.Ends r t) ∨ ∃ next, code.Refers r next := by
  cases hc : code.chunk? r with
  | none => exact .inl ⟨_, .missing hc⟩
  | some c =>
    cases hp : c.reference? with
    | none => exact .inl ⟨_, .chunk hc hp⟩
    | some p =>
      cases hnext : p.asRef with
      | error e => exact .inl ⟨_, .unreadable hc hp hnext⟩
      | ok next =>
        by_cases hne : next = r
        · exact .inl ⟨_, .itself hc hp (hne ▸ hnext)⟩
        · exact .inr ⟨next, c, p, hc, hp, hnext, hne⟩

theorem Refers.unique (h : code.Refers r next) (h' : code.Refers r q) : next = q :=
  Sum.inr.inj ((typeStep_of_refers h).symm.trans (typeStep_of_refers h'))

theorem Ends.not_refers (h : code.Ends r t) : ¬code.Refers r next :=
  fun h' => nomatch (typeStep_of_ends h).symm.trans (typeStep_of_refers h')

private theorem Types.of_leads (h : code.Leads r q) (hq : code.Types q t) : code.Types r t := by
  induction h using Relation.ReflTransGen.head_induction_on with
  | refl => exact hq
  | head hstep _ ih => exact .further hstep ih

private theorem Types.not_circles (h : code.Types r t) : ¬code.Circles r := by
  induction h with
  | here hends =>
    intro hcircle
    obtain ⟨_, hstep, _⟩ := Relation.TransGen.head'_iff.mp hcircle
    exact hends.not_refers hstep
  | further hstep _ ih =>
    intro hcircle
    obtain ⟨_, hstep', hrest⟩ := Relation.TransGen.head'_iff.mp hcircle
    obtain rfl := hstep.unique hstep'
    exact ih (Relation.TransGen.tail' hrest hstep)

private theorem Ends.unique {u : Ty} (h : code.Ends r t) (h' : code.Ends r u) : t = u :=
  Sum.inl.inj ((typeStep_of_ends h).symm.trans (typeStep_of_ends h'))

private theorem Types.unique {u : Ty} (h : code.Types r t) (h' : code.Types r u) : t = u := by
  induction h with
  | here hends =>
    cases h' with
    | here hends' => exact hends.unique hends'
    | further hstep _ => exact absurd hstep hends.not_refers
  | further hstep _ ih =>
    cases h' with
    | here hends => exact absurd hstep hends.not_refers
    | further hstep' h' => exact ih (hstep.unique hstep' ▸ h')

private theorem Types.of_refers (h : code.Types r t) (hstep : code.Refers r next) :
    code.Types next t := by
  cases h with
  | here hends => exact absurd hstep hends.not_refers
  | further hstep' h => exact hstep.unique hstep' ▸ h

theorem Types.not_leads_circles (h : code.Types r t) (hleads : code.Leads r q) :
    ¬code.Circles q := by
  induction hleads using Relation.ReflTransGen.head_induction_on with
  | refl => exact h.not_circles
  | head hstep _ ih => exact ih (h.of_refers hstep)

section Lookup

/-- The chunk after another, if that is a reference. -/
def after (code : Code) (r : Ref) : Ref := (code.typeStep r).getRight?.getD r

private theorem after_of_refers (h : code.Refers r next) : code.after r = next := by
  rw [after, typeStep_of_refers h]
  rfl

theorem types_of_typeWithin {steps : Nat} (h : code.typeWithin steps r = some t) :
    code.Types r t := by
  induction steps generalizing r with
  | zero => cases h
  | succ steps ih =>
    rw [typeWithin] at h
    rcases ends_or_refers code r with ⟨u, hends⟩ | ⟨next, hstep⟩
    · rw [typeStep_of_ends hends] at h
      exact Option.some.inj h ▸ .here hends
    · rw [typeStep_of_refers hstep] at h
      exact .further hstep (ih h)

private theorem refers_of_typeWithin {steps : Nat} (h : code.typeWithin steps r = none) {i : Nat}
    (hi : i < steps) : code.Refers (code.after^[i] r) (code.after^[i + 1] r) := by
  induction steps generalizing r i with
  | zero => omega
  | succ steps ih =>
    rw [typeWithin] at h
    rcases ends_or_refers code r with ⟨u, hends⟩ | ⟨next, hstep⟩
    · rw [typeStep_of_ends hends] at h
      cases h
    · rw [typeStep_of_refers hstep] at h
      cases i with
      | zero =>
        rw [Function.iterate_one, after_of_refers hstep]
        exact hstep
      | succ i =>
        rw [Function.iterate_succ_apply, Function.iterate_succ_apply, after_of_refers hstep]
        exact ih h (by omega)

theorem transGen_after {i j : Nat} (hlt : i < j)
    (h : ∀ k < j, code.Refers (code.after^[k] r) (code.after^[k + 1] r)) :
    Relation.TransGen code.Refers (code.after^[i] r) (code.after^[j] r) := by
  induction j, hlt using Nat.le_induction with
  | base => exact .single (h i (by omega))
  | succ j _ ih => exact (ih fun k hk => h k (by omega)).tail (h j (by omega))

private theorem leads_after {j : Nat}
    (h : ∀ k < j, code.Refers (code.after^[k] r) (code.after^[k + 1] r)) :
    code.Leads r (code.after^[j] r) := by
  cases j with
  | zero => exact .refl
  | succ j => exact (transGen_after (Nat.succ_pos j) h).to_reflTransGen

private theorem Refers.exists_number (h : code.Refers r next) :
    ∃ k : Fin code.chunks.length, r.toInt = k.val + 1 := by
  obtain ⟨c, _, hc, _⟩ := h
  rw [chunk?, nth?] at hc
  split at hc
  · next hpos =>
    obtain ⟨hlt, _⟩ := List.getElem?_eq_some_iff.mp hc
    exact ⟨⟨r.toInt.toNat - 1, hlt⟩, by simp only; omega⟩
  · cases hc

theorem exists_circles (h : code.chunkType? r = none) : ∃ q, code.Leads r q ∧ code.Circles q := by
  have hsteps : ∀ i < code.chunks.length + 1,
      code.Refers (code.after^[i] r) (code.after^[i + 1] r) := fun i hi => refers_of_typeWithin h hi
  choose number hnumber using fun i : Fin (code.chunks.length + 1) =>
    (hsteps i i.isLt).exists_number
  have hround : ∀ i j : Fin (code.chunks.length + 1), i < j → number i = number j →
      ∃ q, code.Leads r q ∧ code.Circles q := by
    intro i j hlt hsame
    have hsame : code.after^[i.val] r = code.after^[j.val] r :=
      Int32.toInt_inj.mp (by rw [hnumber i, hnumber j, hsame])
    refine ⟨code.after^[j.val] r, leads_after fun k hk => hsteps k (by omega), ?_⟩
    have hcircle := transGen_after hlt fun k hk => hsteps k (by omega)
    rwa [hsame] at hcircle
  obtain ⟨i, j, hne, hsame⟩ := Fintype.exists_ne_map_eq_of_card_lt number (by simp)
  rcases lt_or_gt_of_ne hne with hlt | hlt
  · exact hround i j hlt hsame
  · exact hround j i hlt hsame.symm

/-- The lookup gives exactly what the recursion comes to. -/
theorem chunkType?_eq_some_iff : code.chunkType? r = some t ↔ code.Types r t := by
  refine ⟨types_of_typeWithin, fun h => ?_⟩
  cases hfound : code.chunkType? r with
  | none =>
    obtain ⟨q, hleads, hcircle⟩ := exists_circles hfound
    exact absurd hcircle (h.not_leads_circles hleads)
  | some u => exact congrArg some ((types_of_typeWithin hfound).unique h)

private theorem isSome_chunkType?_iff :
    (code.chunkType? r).isSome ↔ ∀ q, code.Leads r q → ¬code.Circles q := by
  constructor
  · intro h q hleads
    obtain ⟨t, ht⟩ := Option.isSome_iff_exists.mp h
    exact (types_of_typeWithin ht).not_leads_circles hleads
  · intro h
    cases hfound : code.chunkType? r with
    | none =>
      obtain ⟨q, hleads, hcircle⟩ := exists_circles hfound
      exact absurd hcircle (h q hleads)
    | some t => rfl

private theorem chunkType?_of_leads (hleads : code.Leads r q) (h : code.Ends q t) :
    code.chunkType? r = some t :=
  chunkType?_eq_some_iff.mpr (.of_leads hleads (.here h))

private theorem not_circles_of_backward
    (hbackward : ∀ q next, code.Refers q next → next.toInt < q.toInt) : ¬code.Circles r := by
  intro hcircle
  have hlt : ∀ q, Relation.TransGen code.Refers r q → q.toInt < r.toInt := by
    intro q h
    induction h with
    | single hstep => exact hbackward _ _ hstep
    | tail _ hstep ih => exact Int.lt_trans (hbackward _ _ hstep) ih
  exact Int.lt_irrefl _ (hlt r hcircle)

end Lookup

/-- The lookup of types, on any code, of a chunk and of a primitive. It is the recursion along
references, comes to an end exactly if these do not lead into a circle, which they never do if they
only point backward, and gives the type of the chunk at which the references end, or `any` if there
is no such chunk. -/
theorem types_unless_circles (code : Code) (r : Ref) (p : Primitive) :
    (∀ t, code.chunkType? r = some t ↔ code.Types r t) ∧
    ((code.chunkType? r).isSome ↔ ∀ q, code.Leads r q → ¬code.Circles q) ∧
    ((∀ q next, code.Refers q next → next.toInt < q.toInt) → (code.chunkType? r).isSome) ∧
    (∀ q c, code.Leads r q → code.chunk? q = some c → c.reference? = none →
      code.chunkType? r = some c.ownType) ∧
    (∀ q, code.Leads r q → code.chunk? q = none → code.chunkType? r = some .any) ∧
    (p.typ ≠ .ref → code.dereference? p = some p.typ) ∧
    (p.typ = .ref → p.asRef = .ok r → code.dereference? p = code.chunkType? r) ∧
    (p.typ = .ref → ∀ e, p.asRef = .error e → code.dereference? p = some .any) := by
  refine ⟨fun t => chunkType?_eq_some_iff, isSome_chunkType?_iff, fun hbackward => ?_,
    fun q c hleads hc hnone => chunkType?_of_leads hleads (.chunk hc hnone),
    fun q hleads hc => chunkType?_of_leads hleads (.missing hc), fun htyp => ?_,
    fun htyp hr => ?_, fun htyp e he => ?_⟩
  · exact isSome_chunkType?_iff.mpr fun q _ => not_circles_of_backward hbackward
  · rw [dereference?, if_neg htyp]
  · rw [dereference?, if_pos htyp, hr]
  · rw [dereference?, if_pos htyp, he]

/-- A chunk that is a reference to a later one, which is a reference to a number before it. -/
def detour : Code :=
  { Code.empty with
    chunks := [.ofPrimitive (.ref 3), .ofPrimitive (.int 7), .ofPrimitive (.ref 2)] }

theorem types_detour :
    detour.Leads 1 2 ∧ detour.chunkType? 1 = some .int ∧
      detour.dereference? (.ref 1) = some .int := by
  obtain ⟨_, _, _, hchunk, _, _, href, _⟩ := types_unless_circles detour 1 (.ref 1)
  have hfirst : detour.Refers 1 3 := ⟨_, _, rfl, rfl, rfl, by decide⟩
  have hsecond : detour.Refers 3 2 := ⟨_, _, rfl, rfl, rfl, by decide⟩
  have hleads : detour.Leads 1 2 := .tail (.single hfirst) hsecond
  have htype := hchunk 2 (.ofPrimitive (.int 7)) hleads rfl rfl
  exact ⟨hleads, htype, (href rfl rfl).trans htype⟩

/-- Two chunks that are references to each other. -/
def circle : Code :=
  { Code.empty with chunks := [.ofPrimitive (.ref 2), .ofPrimitive (.ref 1)] }

/-- A stored code in which chunks are references to each other is read, and they have no types. -/
theorem not_types_circle :
    (∃ bytes, Code.read bytes = .ok circle) ∧ circle.chunkType? 1 = none ∧
      ¬∃ t, circle.Types 1 t := by
  have hnone : circle.chunkType? 1 = none := by decide
  refine ⟨⟨[65, 81, 76, 67, 1, 0, 0, 0, 39, 0, 0, 0, 0, 2, 0, 3, 114, 101, 102, 0, 1, 1, 3, 4, 2,
    0, 0, 0, 0, 0, 0, 3, 114, 101, 102, 0, 1, 1, 3, 4, 1, 0, 0, 0, 0, 0, 0, 0, 0, 0, 0], rfl⟩,
    hnone, ?_⟩
  rintro ⟨t, ht⟩
  rw [← chunkType?_eq_some_iff, hnone] at ht
  cases ht

end Code

end AssetQuery
