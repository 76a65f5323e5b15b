import AssetQuery.Eval.Basic

/-!
# Simulations of evaluation

Evaluation of a chunk is the same program in every monad. A relation between the computations of two
monads which holds of the same outcomes, and which going on from the same value keeps, holds of the
evaluations of a chunk if it holds of the replies to what they ask for. On the right there may be a
family of computations, such as one for each limit to the depth of a recursion.
-/

namespace AssetQuery.Eval

private theorem element_error (list : Ty) (item : Value) :
    (Builtin.element list item).error = none := by
  rw [Builtin.element]
  split <;> rfl

/-- A relation between computations of `m` and families of computations of `n`. -/
structure Simulation (m n : Type → Type) [Monad m] [Monad n] (ι : Type) where
  Rel : {α : Type} → ExceptT EvalError m α → (ι → ExceptT EvalError n α) → Prop
  rel_pure : ∀ {α : Type} (a : α), Rel (pure a) fun _ => pure a
  rel_throw : ∀ {α : Type} (e : EvalError), Rel (throw e : ExceptT EvalError m α) fun _ => throw e
  rel_bind : ∀ {α β : Type} {x : ExceptT EvalError m α} {y : ι → ExceptT EvalError n α}
    {f : α → ExceptT EvalError m β} {g : ι → α → ExceptT EvalError n β},
    Rel x y → (∀ a, Rel (f a) fun i => g i a) → Rel (x >>= f) fun i => y i >>= g i

namespace Simulation

variable {m n : Type → Type} [Monad m] [Monad n] {ι α β : Type}

/-- Replies to what the evaluation of a chunk asks for that are related. Fields need to be read
alike only if some resource declares them, and blocks to be run alike only on data that stands for
no failure. -/
structure Replies (S : Simulation m n ι) (q : Requests m) (q' : ι → Requests n) : Prop where
  chunk : ∀ r, S.Rel (q.chunk r) fun i => (q' i).chunk r
  target : ∀ r, S.Rel (q.target r) fun i => (q' i).target r
  block : ∀ r element, element.error = none →
    S.Rel (q.block r element) fun i => (q' i).block r element
  declares : ∀ i, (q' i).declares = q.declares
  create : ∀ name args, S.Rel (q.create name args) fun i => (q' i).create name args
  read : ∀ resource name id field, q.declares resource field = true →
    S.Rel (q.read name id field) fun i => (q' i).read name id field

variable {S : Simulation m n ι}

private theorem rel_ofExcept (x : Except EvalError α) :
    S.Rel (MonadExcept.ofExcept x) fun _ => MonadExcept.ofExcept x := by
  cases x with
  | ok a => exact S.rel_pure a
  | error e => exact S.rel_throw e

theorem rel_ofSerial (x : Except SerialError α) : S.Rel (ofSerial x) fun _ => ofSerial x := by
  cases x with
  | ok a => exact S.rel_pure a
  | error e => exact S.rel_throw (.serial e)

private theorem rel_loop {f : α → ExceptT EvalError m β} {g : ι → α → ExceptT EvalError n β}
    (h : ∀ a, S.Rel (f a) fun i => g i a) (as : List α) (bs : List β) :
    S.Rel (List.mapM.loop f as bs) fun i => List.mapM.loop (g i) as bs := by
  induction as generalizing bs with
  | nil => exact S.rel_pure _
  | cons a as ih => exact S.rel_bind (h a) fun b => ih (b :: bs)

theorem rel_mapM {f : α → ExceptT EvalError m β} {g : ι → α → ExceptT EvalError n β}
    (h : ∀ a, S.Rel (f a) fun i => g i a) (as : List α) :
    S.Rel (as.mapM f) fun i => as.mapM (g i) := rel_loop h as []

section Blocks

variable {block : Value → ExceptT EvalError m Row} {block' : ι → Value → ExceptT EvalError n Row}

private theorem rel_keepItems (h : ∀ item, S.Rel (block item) fun i => block' i item)
    (items : List Value) :
    S.Rel (Builtin.keepItems block items) fun i => Builtin.keepItems (block' i) items := by
  induction items with
  | nil => exact S.rel_pure _
  | cons item rest ih =>
    apply S.rel_bind (h item)
    intro row
    split
    · exact S.rel_throw _
    · exact S.rel_bind ih fun kept => S.rel_pure _

private theorem rel_projectItems (h : ∀ item, S.Rel (block item) fun i => block' i item)
    (items : List Value) :
    S.Rel (Builtin.projectItems block items) fun i => Builtin.projectItems (block' i) items := by
  induction items with
  | nil => exact S.rel_pure _
  | cons item rest ih =>
    apply S.rel_bind (h item)
    intro row
    exact S.rel_bind ih fun rows => S.rel_pure _

end Blocks

theorem rel_apply {block : Ref → Data → ExceptT EvalError m Row}
    {block' : ι → Ref → Data → ExceptT EvalError n Row} {receiver : Data}
    (h : ∀ r item, S.Rel (block r (Builtin.element receiver.typ item)) fun i =>
      block' i r (Builtin.element receiver.typ item))
    (name : String) (t : Ty) (args : List Data) :
    S.Rel (Builtin.apply block name t receiver args) fun i =>
      Builtin.apply (block' i) name t receiver args := by
  simp only [Builtin.apply]
  split
  · exact S.rel_pure _
  · split
    · exact S.rel_pure _
    · split
      · apply S.rel_bind (rel_ofExcept _)
        intro r
        apply S.rel_bind (rel_ofExcept _)
        intro items
        split
        · exact S.rel_bind (rel_keepItems (h r) items) fun kept => S.rel_pure _
        · exact S.rel_bind (rel_projectItems (h r) items) fun rows => S.rel_pure _
      · exact rel_ofExcept _

variable {q : Requests m} {q' : ι → Requests n}

theorem Replies.rel_operand (h : S.Replies q q') (p : Primitive) :
    S.Rel (operand q p) fun i => operand (q' i) p := by
  simp only [operand]
  split
  · exact S.rel_bind (rel_ofSerial _) fun r => h.chunk r
  · exact rel_ofSerial _

private theorem Replies.rel_namedArgs (h : S.Replies q q') (resource : String) (args : Dict Data)
    (ps : List Primitive) :
    S.Rel (namedArgs q resource args ps) fun i => namedArgs (q' i) resource args ps := by
  induction args, ps using namedArgs.induct with
  | case1 => exact S.rel_pure _
  | case2 => exact S.rel_throw _
  | case3 args name value rest ih =>
    apply S.rel_bind (rel_ofSerial _)
    intro name
    exact S.rel_bind (h.rel_operand value) fun data => ih name data

private theorem Replies.rel_call (h : S.Replies q q') (chunk : Chunk) :
    S.Rel (call q chunk) fun i => call (q' i) chunk := by
  simp only [call, readsField, h.declares]
  split
  · exact S.rel_bind (h.rel_namedArgs _ _ _) fun args => h.create _ _
  · apply S.rel_bind (h.chunk _)
    intro receiver
    split
    · exact S.rel_pure _
    · by_cases hreads : receiver.typ.resourceName?.any fun resource => q.declares resource chunk.id
      · obtain ⟨resource, _, hdeclares⟩ := (Option.any_eq_true _ _).mp hreads
        simp only [hreads, if_true]
        split
        · exact h.read resource _ _ _ hdeclares
        · exact S.rel_pure _
      · simp only [hreads]
        exact S.rel_bind (rel_mapM h.rel_operand _) fun args =>
          rel_apply (fun r _ => h.block r _ (element_error _ _)) _ _ _

private theorem Replies.rel_constant (h : S.Replies q q') (r : Ref) (p : Option Primitive) :
    S.Rel (constant q r p) fun i => constant (q' i) r p := by
  cases p with
  | none => exact S.rel_pure _
  | some p =>
    simp only [constant]
    split
    · apply S.rel_bind (rel_ofSerial _)
      intro target
      split
      · exact S.rel_throw _
      · exact h.target _
    · exact rel_ofSerial _

theorem Replies.rel_chunk (h : S.Replies q q') (frame : Frame) (r : Ref) :
    S.Rel (Eval.chunk q frame r) fun i => Eval.chunk (q' i) frame r := by
  simp only [Eval.chunk]
  split
  · exact S.rel_throw _
  · split
    · exact h.rel_constant _ _
    · split
      · exact S.rel_pure _
      · exact S.rel_throw _
    · exact h.rel_call _

theorem rel_row {value : Frame → Ref → ExceptT EvalError m Data}
    {value' : ι → Frame → Ref → ExceptT EvalError n Data} (frame : Frame) (r : Ref)
    (element : Data)
    (h : ∀ block, frame.code.function? r = some block → ∀ r,
      S.Rel (value (.ofBlock block element) r) fun i => value' i (.ofBlock block element) r) :
    S.Rel (row value frame r element) fun i => row (value' i) frame r element := by
  simp only [row]
  split
  · exact S.rel_throw _
  · next block hblock =>
    exact rel_mapM (fun r => S.rel_bind (h block hblock r) fun data => S.rel_pure _) _

/-- Where each frame has a simulation of its own, runs of a block by itself are related if the
values of chunks are. -/
theorem rel_row_within {S : Frame → Simulation m n ι} {frame : Frame}
    {within : ExceptT EvalError m Row → ExceptT EvalError m Row}
    (hwithin : ∀ inner x y, (S inner).Rel x y → (S frame).Rel (within x) y)
    {value : Frame → Ref → ExceptT EvalError m Data}
    {value' : ι → Frame → Ref → ExceptT EvalError n Data}
    (h : ∀ frame r, (S frame).Rel (value frame r) fun i => value' i frame r) (r : Ref)
    (element : Data) :
    (S frame).Rel (within (row value frame r element)) fun i => row (value' i) frame r element := by
  cases hblock : frame.code.function? r with
  | none =>
    apply hwithin frame
    apply rel_row
    intro block hsome
    cases hblock.symm.trans hsome
  | some block =>
    apply hwithin (.ofBlock block element)
    apply rel_row
    intro block' hsome r
    cases hblock.symm.trans hsome
    exact h _ r

end Simulation

end AssetQuery.Eval
