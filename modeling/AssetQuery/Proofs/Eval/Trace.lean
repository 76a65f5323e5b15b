import AssetQuery.Proofs.Eval.Execution
import AssetQuery.Proofs.Eval.Simulation

/-!
# Executions with their visits

An execution that writes down which chunks it evaluates, each in its frame, and what becomes of
them. Without what is written down it is the execution itself, so that what holds of all visits
holds of every chunk that an execution reaches.
-/

namespace AssetQuery

open Eval (Simulation)

variable {σ α β : Type}

/-- The evaluation of a chunk in a frame, and what it came to. -/
structure Visit where
  frame : Frame
  r : Ref
  outcome : Except EvalError Data

/-- A step of an execution that adds to the visits made so far. -/
abbrev Traced (σ α : Type) := ExceptT EvalError (StateT (Progress σ × List Visit) Option) α

namespace Traced

/-- A step in which no chunk is evaluated. -/
def silent (x : Execution σ α) : Traced σ α := fun before => do
  let (reply, after) ← x before.1
  return (reply, after, before.2)

/-- Starts without the values of chunks and leaves those that were there as they were. -/
def isolated (x : Traced σ α) : Traced σ α := fun before => do
  let (reply, after) ← x ({ before.1 with values := [] }, before.2)
  return (reply, { after.1 with values := before.1.values }, after.2)

def remember (r : Ref) (x : Traced σ Data) : Traced σ Data :=
  Eval.remember (return (← get).1.values.lookup r)
    (fun data => modify fun state =>
      ({ state.1 with values := (r, data) :: state.1.values }, state.2)) x

/-- Writes down what becomes of a chunk. -/
def visit (frame : Frame) (r : Ref) (x : Traced σ Data) : Traced σ Data := fun before => do
  let (reply, after) ← x before
  return (reply, after.1, ⟨frame, r, reply⟩ :: after.2)

def means (s : Setting σ) : Means (StateT (Progress σ × List Visit) Option) where
  maxDepth := s.config.maxDepth
  visit := visit
  remember := remember
  isolated := isolated
  declares resource field := (s.registry.field? resource field).isSome
  create name args := silent (Execution.create s name args)
  read name id field := silent (Execution.read s name id field)

def requests (s : Setting σ) (frame : Frame) (value target : Frame → Ref → Traced σ Data) :
    Requests (StateT (Progress σ × List Visit) Option) := (means s).requests frame value target

/-- The value of a chunk, written down. -/
def value (s : Setting σ) (levels : Nat) (frame : Frame) (r : Ref) : Traced σ Data :=
  (means s).value levels frame r

theorem bind_ok {x : Traced σ α} {f : α → Traced σ β} {before after : Progress σ × List Visit}
    {a : α} (h : x before = some (.ok a, after)) : (x >>= f) before = f a after := by
  show (x before).bind _ = _
  rw [h]
  rfl

/-- Two steps go wrong in the first or go on to the second. -/
theorem eq_some_of_bind {x : Traced σ α} {f : α → Traced σ β}
    {before after : Progress σ × List Visit} {reply : Except EvalError β}
    (h : (x >>= f) before = some (reply, after)) :
    (∃ e, reply = .error e ∧ x before = some (.error e, after)) ∨
      ∃ a mid, x before = some (.ok a, mid) ∧ f a mid = some (reply, after) := by
  obtain ⟨⟨outcome, mid⟩, hx, hf⟩ := Option.bind_eq_some_iff.mp h
  cases outcome with
  | error e =>
    cases hf
    exact .inl ⟨e, rfl, hx⟩
  | ok a => exact .inr ⟨a, mid, hx, hf⟩

theorem remember_of_some {r : Ref} {x : Traced σ Data} {state : Progress σ × List Visit}
    {data : Data} (h : state.1.values.lookup r = some data) :
    remember r x state = some (.ok data, state) := by
  refine (bind_ok rfl).trans ?_
  rw [h]
  rfl

theorem remember_of_none {r : Ref} {x : Traced σ Data} {state : Progress σ × List Visit}
    (h : state.1.values.lookup r = none) :
    remember r x state = (do
      let data ← x
      modify fun state => ({ state.1 with values := (r, data) :: state.1.values }, state.2)
      return data : Traced σ Data) state := by
  refine (bind_ok rfl).trans ?_
  rw [h]

theorem value_succ (s : Setting σ) (levels : Nat) (frame : Frame) (r : Ref) :
    value s (levels + 1) frame r =
      visit frame r (remember r
        (Eval.chunk (requests s frame (value s levels) (value s (levels - 1))) frame r)) :=
  (means s).value_succ levels frame r

end Traced

namespace Setting

/-- The answers to entry points, in order, with the visits that are made for them. -/
def tracedAnswers (s : Setting σ) (frame : Frame) :
    List Ref → StateT (Progress σ × List Visit) Option (List (Ref × Answer))
  | [] => return []
  | r :: rest => do
    let outcome ← (Traced.value s (s.config.maxDepth + 1) frame r).run
    return (r, answerOf frame.code r outcome) :: (← s.tracedAnswers frame rest)

/-- An execution with its visits. -/
def trace (s : Setting σ) (code : Code) (props : Dict Data) (session : Session σ) :
    Option ((List (Ref × Answer) × Session σ) × List Visit) := do
  let (given, after) ← s.tracedAnswers ⟨code, props⟩ code.entrypoints (⟨[], session⟩, [])
  return ((given.foldl (fun acc (r, answer) => putAnswer r answer acc) [], after.1.session),
    after.2)

end Setting

/-- What became of an entry point, with the visits that were made for it. -/
structure Run where
  r : Ref
  outcome : Except EvalError Data
  visits : List Visit

def Run.answer (code : Code) (run : Run) : Answer := Setting.answerOf code run.r run.outcome

namespace Setting

/-- The runs of entry points, in order. -/
def runs (s : Setting σ) (frame : Frame) : List Ref → Progress σ → Option (List Run × Progress σ)
  | [], progress => some ([], progress)
  | r :: rest, progress => do
    let (outcome, after, visits) ← Traced.value s (s.config.maxDepth + 1) frame r (progress, [])
    let (others, last) ← s.runs frame rest after
    return (⟨r, outcome, visits⟩ :: others, last)

end Setting

namespace Traced

/-- On the right are visits beside what is on the left. -/
def erasing (σ : Type) :
    Simulation (StateT (Progress σ) Option) (StateT (Progress σ × List Visit) Option) Unit where
  Rel x y := ∀ state, (y () state).map (fun o => (o.1, o.2.1)) = x state.1
  rel_pure _ _ := rfl
  rel_throw _ _ := rfl
  rel_bind {α β x y f g} hx hf state := by
    show ((y () state).bind _).map _ = (x state.1).bind _
    rw [← hx state]
    rcases y () state with _ | ⟨_ | a, after⟩
    · rfl
    · rfl
    · exact hf a after

variable {s : Setting σ}

private theorem erasing_silent (x : Execution σ α) : (erasing σ).Rel x fun _ => silent x := by
  intro state
  show ((x state.1).bind _).map _ = _
  cases x state.1 <;> rfl

private theorem erasing_isolated {x : Execution σ α} {y : Unit → Traced σ α}
    (h : (erasing σ).Rel x y) : (erasing σ).Rel (Execution.isolated x) fun i => isolated (y i) := by
  intro state
  show ((y () _).bind _).map _ = (x { state.1 with values := [] }).bind _
  rw [← h ({ state.1 with values := [] }, state.2)]
  rcases y () ({ state.1 with values := [] }, state.2) with _ | ⟨reply, after⟩
  · rfl
  · rfl

private theorem erasing_remember {r : Ref} {x : Execution σ Data} {y : Unit → Traced σ Data}
    (h : (erasing σ).Rel x y) :
    (erasing σ).Rel (Execution.remember r x) fun i => remember r (y i) := by
  intro state
  show (remember r (y ()) state).map _ = _
  cases hlookup : state.1.values.lookup r with
  | some data =>
    rw [remember_of_some hlookup, Execution.remember_of_some hlookup]
    rfl
  | none =>
    rw [remember_of_none hlookup, Execution.remember_of_none hlookup]
    have hkeep (data : Data) : (erasing σ).Rel
        (do
          modify fun progress => { progress with values := (r, data) :: progress.values }
          return data : Execution σ Data)
        fun _ => (do
          modify fun state => ({ state.1 with values := (r, data) :: state.1.values }, state.2)
          return data : Traced σ Data) := fun _ => rfl
    exact (erasing σ).rel_bind h hkeep state

private theorem erasing_visit {frame : Frame} {r : Ref} {x : Execution σ Data}
    {y : Unit → Traced σ Data}
    (h : (erasing σ).Rel x y) : (erasing σ).Rel x fun i => visit frame r (y i) := by
  intro state
  show ((y () state).bind _).map _ = _
  rw [← h state]
  cases y () state <;> rfl

private theorem erasing_requests {x target : Frame → Ref → Execution σ Data}
    {y target' : Frame → Ref → Traced σ Data}
    (hx : ∀ frame r, (erasing σ).Rel (x frame r) fun _ => y frame r)
    (htarget : ∀ frame r, (erasing σ).Rel (target frame r) fun _ => target' frame r)
    (frame : Frame) :
    (erasing σ).Replies (Execution.requests s frame x target) fun _ =>
      requests s frame y target' where
  chunk := hx frame
  target := htarget frame
  block r element _ := erasing_isolated
    (Simulation.rel_row frame r element fun _ _ => hx (.ofBlock _ element))
  declares _ := rfl
  create _ _ := erasing_silent _
  read _ _ _ _ _ := erasing_silent _

theorem erasing_value (s : Setting σ) (levels : Nat) (frame : Frame) (r : Ref) :
    (erasing σ).Rel (Execution.value s levels frame r) fun _ => value s levels frame r := by
  induction levels using Nat.strongRecOn generalizing frame r with
  | _ levels ih =>
    cases levels with
    | zero => exact erasing_visit ((erasing σ).rel_throw _)
    | succ levels =>
      rw [Execution.value_succ]
      simp only [value_succ]
      have hreplies := erasing_requests (s := s) (ih levels (by omega))
        (ih (levels - 1) (by omega)) frame
      exact erasing_visit (erasing_remember (hreplies.rel_chunk frame r))

end Traced

namespace Setting

private theorem tracedAnswers_erased (s : Setting σ) (frame : Frame) (rs : List Ref)
    (state : Progress σ × List Visit) :
    (s.tracedAnswers frame rs state).map (fun o => (o.1, o.2.1)) = s.answers frame rs state.1 := by
  induction rs generalizing state with
  | nil => rfl
  | cons r rest ih =>
    have hvalue : (Traced.value s (s.config.maxDepth + 1) frame r state).map
        (fun o => (o.1, o.2.1)) = Execution.value s (s.config.maxDepth + 1) frame r state.1 :=
      Traced.erasing_value s _ frame r state
    show ((Traced.value s _ frame r state).bind _).map _ =
      (Execution.value s _ frame r state.1).bind _
    rw [← hvalue]
    rcases Traced.value s (s.config.maxDepth + 1) frame r state with _ | ⟨outcome, after⟩
    · rfl
    · show ((s.tracedAnswers frame rest after).bind _).map _ = (s.answers frame rest after.1).bind _
      rw [← ih after]
      rcases s.tracedAnswers frame rest after with _ | ⟨given, last⟩
      · rfl
      · rfl

private theorem answers_eq_runs (s : Setting σ) (frame : Frame) (rs : List Ref)
    (progress : Progress σ) : s.answers frame rs progress =
      (s.runs frame rs progress).map fun o =>
        (o.1.map fun run => (run.r, run.answer frame.code), o.2) := by
  induction rs generalizing progress with
  | nil => rfl
  | cons r rest ih =>
    have hvalue : (Traced.value s (s.config.maxDepth + 1) frame r (progress, [])).map
        (fun o => (o.1, o.2.1)) = Execution.value s (s.config.maxDepth + 1) frame r progress :=
      Traced.erasing_value s _ frame r (progress, [])
    show (Execution.value s _ frame r progress).bind _ =
      ((Traced.value s _ frame r (progress, [])).bind _).map _
    rw [← hvalue]
    rcases Traced.value s (s.config.maxDepth + 1) frame r (progress, []) with _ | ⟨outcome, after⟩
    · rfl
    · show (s.answers frame rest after.1).bind _ = ((s.runs frame rest after.1).bind _).map _
      rw [ih after.1]
      rcases s.runs frame rest after.1 with _ | ⟨others, last⟩
      · rfl
      · rfl

private theorem runs_refs {s : Setting σ} {frame : Frame} {rs : List Ref}
    {progress after : Progress σ}
    {runs : List Run} (h : s.runs frame rs progress = some (runs, after)) :
    runs.map (·.r) = rs := by
  induction rs generalizing progress runs with
  | nil =>
    cases h
    rfl
  | cons r rest ih =>
    obtain ⟨⟨outcome, mid, visits⟩, _, h⟩ := Option.bind_eq_some_iff.mp h
    obtain ⟨⟨others, last⟩, hothers, heq⟩ := Option.bind_eq_some_iff.mp h
    cases heq
    exact congrArg (r :: ·) (ih hothers)

/-- An execution answers each entry point by a run of it. -/
theorem exists_runs {s : Setting σ} {code : Code} {props : Dict Data} {session after : Session σ}
    {answers : List (Ref × Answer)} (h : s.execute code props session = some (answers, after)) :
    ∃ runs last, s.runs ⟨code, props⟩ code.entrypoints ⟨[], session⟩ = some (runs, last) ∧
      ∀ r ∈ code.entrypoints, ∃ run ∈ runs, run.r = r ∧
        answers.lookup r = some (run.answer code) := by
  obtain ⟨given, last, hgiven, rfl, _⟩ := execute_eq_some.mp h
  rw [answers_eq_runs] at hgiven
  obtain ⟨⟨runs, last⟩, hruns, heq⟩ := Option.map_eq_some_iff.mp hgiven
  cases heq
  refine ⟨runs, last, hruns, fun r hr => ?_⟩
  rcases lookup_foldl_putAnswer r (runs.map fun run => (run.r, run.answer code)) [] with
    ⟨e, he, rfl, hanswer⟩ | ⟨hnone, _⟩
  · obtain ⟨run, hrun, rfl⟩ := List.mem_map.mp he
    exact ⟨run, hrun, rfl, hanswer⟩
  · rw [← runs_refs hruns] at hr
    obtain ⟨run, hrun, rfl⟩ := List.mem_map.mp hr
    exact absurd rfl (hnone _ (List.mem_map_of_mem hrun))

/-- Without its visits a traced execution is the execution. -/
theorem trace_erased (s : Setting σ) (code : Code) (props : Dict Data) (session : Session σ) :
    (s.trace code props session).map (·.1) = s.execute code props session := by
  show ((s.tracedAnswers _ _ _).bind _).map _ = (s.answers _ _ _).bind _
  rw [← s.tracedAnswers_erased ⟨code, props⟩ code.entrypoints (⟨[], session⟩, [])]
  rcases s.tracedAnswers ⟨code, props⟩ code.entrypoints (⟨[], session⟩, []) with _ | ⟨given, after⟩
  · rfl
  · rfl

end Setting

end AssetQuery
