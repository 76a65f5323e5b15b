import AssetQuery.Eval.Basic
import AssetQuery.Proofs.Eval.Simulation

/-!
# Plain evaluation

What chunks evaluate to by recursion alone, without a limit to its depth and without remembering any
value. References may run in a circle, so that the recursion need not come to an end. What resources
hold is no matter of recursion over a code and is left to a parameter.

A recursion that comes to an end within some depth comes to the same end within any greater one. So
a chunk evaluates to one outcome at most.
-/

namespace AssetQuery

/-- The outcome of a recursion, if it comes to an end in time. -/
abbrev Plain (α : Type) := ExceptT EvalError Option α

/-- What a code may find outside itself: the fields that resources declare, and what creating
resources and reading their fields gives, if that is known. -/
structure Outside where
  declares : (resource field : String) → Bool
  create : String → Dict Data → Plain Data
  read : (name id field : String) → Plain Data

namespace Outside

/-- There are no resources. -/
def empty : Outside where
  declares _ _ := false
  create name _ := throw (.resource (.unknownResource name))
  read name id field := throw (.invalidArgument field (.notLoaded name id))

/-- There may be resources, of which only the declarations are known. -/
def declaring (declares : (resource field : String) → Bool) : Outside where
  declares := declares
  create _ _ := ExceptT.mk none
  read _ _ _ := ExceptT.mk none

end Outside

namespace Plain

/-- What the evaluation of a chunk asks for, where `value` gives the values of chunks. -/
def requests (outside : Outside) (frame : Frame) (value : Frame → Ref → Plain Data) :
    Requests Option where
  chunk := value frame
  target := value frame
  block := Eval.row value frame
  declares := outside.declares
  create := outside.create
  read := outside.read

/-- The value of a chunk, if the recursion goes no deeper than `depth`. -/
def value (outside : Outside) : (depth : Nat) → Frame → Ref → Plain Data
  | 0 => fun _ _ => ExceptT.mk none
  | depth + 1 => fun frame r => Eval.chunk (requests outside frame (value outside depth)) frame r

end Plain

/-- Whether the recursion from a chunk, where there are no resources, comes to an end with some
outcome. -/
def Frame.Evaluates (frame : Frame) (r : Ref) (outcome : Except EvalError Data) : Prop :=
  ∃ depth, (Plain.value .empty depth frame r).run = some outcome

namespace Plain

variable {α β : Type}

theorem run_bind_eq_some {x : Plain α} {f : α → Plain β} {o : Except EvalError β} :
    (x >>= f).run = some o ↔
      (∃ a, x.run = some (.ok a) ∧ (f a).run = some o) ∨
        ∃ e, x.run = some (.error e) ∧ o = .error e := by
  rw [ExceptT.run_bind]
  rcases x.run with _ | _ | a
  · simp
  · simp [eq_comm]
  · simp

theorem run_bind_of_ok {x : Plain α} {f : α → Plain β} {a : α} (h : x.run = some (.ok a)) :
    (x >>= f).run = (f a).run := by
  rw [ExceptT.run_bind, h]
  rfl

theorem run_bind_of_error {x : Plain α} {f : α → Plain β} {e : EvalError}
    (h : x.run = some (.error e)) : (x >>= f).run = some (.error e) := by
  rw [ExceptT.run_bind, h]
  rfl

/-- The recursion on the left comes to an end with the outcome on the right. -/
def ending : Eval.Simulation Option Id Unit where
  Rel x y := x.run = some (y ()).run
  rel_pure _ := rfl
  rel_throw _ := rfl
  rel_bind {α β x y f g} hx hf := by
    rw [ExceptT.run_bind (y ())]
    cases hy : (y ()).run with
    | ok a =>
      rw [run_bind_of_ok (hx.trans (congrArg some hy))]
      exact hf a
    | error e => exact run_bind_of_error (hx.trans (congrArg some hy))

/-- What comes to an end on the left comes to the same end on the right. -/
def extension : Eval.Simulation Option Option Unit where
  Rel x y := ∀ o, x.run = some o → (y ()).run = some o
  rel_pure _ _ h := h
  rel_throw _ _ h := h
  rel_bind {α β x y f g} hx hf o h := by
    rcases run_bind_eq_some.mp h with ⟨a, ha, hfa⟩ | ⟨e, he, rfl⟩
    · exact run_bind_eq_some.mpr (.inl ⟨a, hx _ ha, hf a _ hfa⟩)
    · exact run_bind_eq_some.mpr (.inr ⟨e, hx _ he, rfl⟩)

variable {outside : Outside}

private theorem value_succ {depth : Nat} {frame : Frame} {r : Ref} {o : Except EvalError Data}
    (h : (value outside depth frame r).run = some o) :
    (value outside (depth + 1) frame r).run = some o := by
  induction depth generalizing frame r o with
  | zero => cases h
  | succ depth ih =>
    have hreplies : extension.Replies (requests outside frame (value outside depth)) fun _ =>
        requests outside frame (value outside (depth + 1)) :=
      { chunk := fun _ _ h => ih h
        target := fun _ _ h => ih h
        block := fun r element _ => Eval.Simulation.rel_row frame r element fun _ _ _ _ h => ih h
        declares := fun _ => rfl
        create := fun _ _ _ h => h
        read := fun _ _ _ _ _ _ h => h }
    exact hreplies.rel_chunk frame r o h

theorem value_mono {depth depth' : Nat} (hle : depth ≤ depth') {frame : Frame} {r : Ref}
    {o : Except EvalError Data} (h : (value outside depth frame r).run = some o) :
    (value outside depth' frame r).run = some o := by
  induction hle with
  | refl => exact h
  | step _ ih => exact value_succ ih

theorem value_unique {depth depth' : Nat} {frame : Frame} {r : Ref} {o o' : Except EvalError Data}
    (h : (value outside depth frame r).run = some o)
    (h' : (value outside depth' frame r).run = some o') : o = o' := by
  have hmax := value_mono (Nat.le_max_left depth depth') h
  rw [value_mono (Nat.le_max_right depth depth') h'] at hmax
  exact (Option.some.inj hmax).symm

end Plain

/-- A chunk evaluates to one outcome at most. -/
theorem Frame.Evaluates.unique {frame : Frame} {r : Ref} {o o' : Except EvalError Data}
    (h : frame.Evaluates r o) (h' : frame.Evaluates r o') : o = o' := by
  obtain ⟨_, h⟩ := h
  obtain ⟨_, h'⟩ := h'
  exact Plain.value_unique h h'

end AssetQuery
