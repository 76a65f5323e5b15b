import AssetQuery.Proofs.Eval.Plain
import Mathlib.Data.List.Forall2

/-!
# What plain evaluation ensures

What is to hold of the outcome of a recursion, if it comes to an end: of its result, or of the error
that it fails with. A step ensures it if its parts do.
-/

namespace AssetQuery

namespace Plain

variable {α β : Type}

/-- Whether a recursion, if it comes to an end, gives what it is to give or fails as it may. -/
def Ensures (may : EvalError → Prop) (x : Plain α) (post : α → Prop) : Prop :=
  ∀ o, x.run = some o → match o with
    | .ok a => post a
    | .error e => may e

variable {may : EvalError → Prop} {x : Plain α} {post : α → Prop} {post' : β → Prop}

theorem ensures_pure {a : α} (h : post a) : Ensures may (pure a) post := by
  intro o ho
  cases ho
  exact h

theorem ensures_throw {e : EvalError} (h : may e) : Ensures may (throw e : Plain α) post := by
  intro o ho
  cases ho
  exact h

theorem Ensures.bind {f : α → Plain β} (hx : Ensures may x post)
    (hf : ∀ a, post a → Ensures may (f a) post') : Ensures may (x >>= f) post' := by
  intro o ho
  rcases run_bind_eq_some.mp ho with ⟨a, ha, ho⟩ | ⟨e, he, rfl⟩
  · exact hf a (hx _ ha) o ho
  · exact hx _ he

theorem Ensures.imp {weaker : α → Prop} (hx : Ensures may x post) (h : ∀ a, post a → weaker a) :
    Ensures may x weaker := by
  intro o ho
  cases o with
  | ok a => exact h a (hx _ ho)
  | error e => exact hx _ ho

theorem ensures_true (h : ∀ e, may e) (x : Plain α) : Ensures may x fun _ => True := by
  intro o _
  cases o with
  | ok a => trivial
  | error e => exact h e

theorem ensures_ofSerial {x : Except SerialError α} (hok : ∀ a, x = .ok a → post a)
    (herror : ∀ e, may (.serial e)) : Ensures may (Eval.ofSerial x : Plain α) post := by
  cases x with
  | ok a => exact ensures_pure (hok a rfl)
  | error e => exact ensures_throw (herror e)

theorem ensures_ofExcept {x : Except EvalError α} (hok : ∀ a, x = .ok a → post a)
    (herror : ∀ e, x = .error e → may e) :
    Ensures may (MonadExcept.ofExcept x : Plain α) post := by
  cases x with
  | ok a => exact ensures_pure (hok a rfl)
  | error e => exact ensures_throw (herror e rfl)

theorem ensures_mapM {as : List α} {f : α → Plain β} {R : α → β → Prop}
    (h : ∀ a ∈ as, Ensures may (f a) (R a)) :
    Ensures may (as.mapM f) (List.Forall₂ R as) := by
  induction as with
  | nil =>
    rw [List.mapM_nil]
    exact ensures_pure .nil
  | cons a rest ih =>
    obtain ⟨ha, hrest⟩ := List.forall_mem_cons.mp h
    rw [List.mapM_cons]
    exact ha.bind fun b hb => (ih hrest).bind fun bs hbs => ensures_pure (.cons hb hbs)

section Blocks

variable {block : Value → Plain Row} {holds : Row → Prop} {items : List Value}

theorem ensures_keepItems (hwhere : ∀ fault, may (.invalidArgument "where" fault))
    (h : ∀ item ∈ items, Ensures may (block item) holds) :
    Ensures may (Builtin.keepItems block items) fun kept => kept ⊆ items := by
  induction items with
  | nil => exact ensures_pure (List.Subset.refl _)
  | cons item rest ih =>
    obtain ⟨hitem, hrest⟩ := List.forall_mem_cons.mp h
    rw [Builtin.keepItems]
    refine hitem.bind fun row _ => ?_
    split
    · exact ensures_throw (hwhere _)
    · refine (ih hrest).bind fun kept hkept => ensures_pure ?_
      split
      · exact List.cons_subset_cons _ hkept
      · exact List.subset_cons_of_subset _ hkept

theorem ensures_projectItems (h : ∀ item ∈ items, Ensures may (block item) holds) :
    Ensures may (Builtin.projectItems block items) fun rows =>
      ∀ v ∈ rows, ∃ row, holds row ∧ v = row.toValue := by
  induction items with
  | nil => exact ensures_pure (List.forall_mem_nil _)
  | cons item rest ih =>
    obtain ⟨hitem, hrest⟩ := List.forall_mem_cons.mp h
    rw [Builtin.projectItems]
    refine hitem.bind fun row hrow => (ih hrest).bind fun rows hrows => ensures_pure ?_
    exact List.forall_mem_cons.mpr ⟨⟨row, hrow, rfl⟩, hrows⟩

end Blocks

end Plain

end AssetQuery
