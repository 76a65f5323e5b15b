import AssetQuery.Eval.Execution

/-!
# Execution by several workers

The entry points of a code are jobs that workers share out among themselves, so that several may be
under way at a time. They have two things in common, the session and what is remembered of the code,
at which they take turns as a schedule says. To read a field takes one turn, in which the resource
is locked, and so does to create a resource, to look up the value of a chunk and to keep it. A run
of a block has a memory of its own. How many workers there are only limits which schedules come
about.
-/

namespace AssetQuery

/-- What is done in turns at something shared. -/
inductive Turns (π α : Type) where
  | done (a : α)
  | stuck
  /-- What a turn makes of what is shared, and how it goes on from there. -/
  | turn (effect : π → π) (next : π → Turns π α)

namespace Turns

variable {π α β : Type}

def andThen (x : Turns π α) (f : α → Turns π β) : Turns π β :=
  match x with
  | done a => f a
  | stuck => stuck
  | turn effect next => turn effect fun shared => (next shared).andThen f

instance : Monad (Turns π) where
  pure := done
  bind := andThen

/-- A step that takes one turn. -/
def once (step : π → Option (α × π)) : Turns π α :=
  turn (fun shared => (step shared).elim shared (·.2))
    fun shared => (step shared).elim stuck fun o => done o.1

/-- All turns that are left, without those of others in between. -/
def finish : Turns π α → StateT π Option α
  | done a => fun shared => some (a, shared)
  | stuck => fun _ => none
  | turn effect next => fun shared => (next shared).finish (effect shared)

/-- A turn of the job in some place. There is none if that has come to its end. -/
def step (state : List (Turns π α) × π) (i : Nat) : List (Turns π α) × π :=
  match state.1[i]? with
  | some (turn effect next) => (state.1.set i (next state.2), effect state.2)
  | _ => state

/-- Jobs at work by a schedule, which says whose turn it is. -/
def interleave (schedule : List Nat) (state : List (Turns π α) × π) : List (Turns π α) × π :=
  schedule.foldl step state

end Turns

variable {σ α : Type}

/-- A step of an execution among others. In the run of a block it has values of its own. -/
abbrev Joint (σ α : Type) :=
  ExceptT EvalError (StateT (Option (List (Ref × Data))) (Turns (Progress σ))) α

namespace Joint

/-- A step of an execution that takes one turn. -/
def once (x : Execution σ α) : Joint σ α := fun own => do return (← Turns.once x, own)

def remembered (r : Ref) : Joint σ (Option Data) := fun own =>
  match own with
  | some values => return (.ok (values.lookup r), some values)
  | none => once (Execution.remembered r) none

def keep (r : Ref) (data : Data) : Joint σ PUnit := fun own =>
  match own with
  | some values => return (.ok ⟨⟩, some ((r, data) :: values))
  | none => once (Execution.keep r data) none

/-- Starts without the values of chunks and leaves those that were there as they were. -/
def isolated (x : Joint σ α) : Joint σ α := fun own => do
  let (reply, _) ← x (some [])
  return (reply, own)

/-- What a worker does that is not alone with the session. -/
def means (s : Setting σ) :
    Means (StateT (Option (List (Ref × Data))) (Turns (Progress σ))) where
  maxDepth := s.config.maxDepth
  visit _ _ x := x
  remember r := Eval.remember (remembered r) (keep r)
  isolated := isolated
  declares resource field := (s.registry.field? resource field).isSome
  create name args := once (Execution.create s name args)
  read name id field := once (Execution.read s name id field)

/-- The evaluation of an entry point. -/
def job (s : Setting σ) (frame : Frame) (r : Ref) : Turns (Progress σ) (Except EvalError Data) := do
  let (reply, _) ← (means s).value (s.config.maxDepth + 1) frame r none
  return reply

end Joint

/-- Executes a code by workers that have turns as scheduled. What is left after that is done job by
job. -/
def Setting.executeJointly (s : Setting σ) (schedule : List Nat) (code : Code) (props : Dict Data) :
    Work σ (List (Ref × Answer)) := fun session => do
  let jobs := code.entrypoints.map (Joint.job s ⟨code, props⟩)
  let (jobs, progress) := Turns.interleave schedule (jobs, ⟨[], session⟩)
  let (outcomes, after) ← jobs.mapM Turns.finish progress
  let given := code.entrypoints.zipWith (fun r outcome => (r, answerOf code r outcome)) outcomes
  return (given.foldl (fun acc (r, answer) => putAnswer r answer acc) [], after.session)

end AssetQuery
