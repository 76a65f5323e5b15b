import AssetQuery.Eval.Turns
import AssetQuery.Proofs.Eval.Execution
import AssetQuery.Proofs.Eval.Simulation

/-!
# Turns

What every turn of a job keeps, whatever the other jobs did before it, holds under every schedule.
Where no turns are scheduled the jobs are done one after the other, and joint execution is that by a
worker who is alone.
-/

namespace AssetQuery

namespace Turns

variable {π α β : Type} {kept : π → Prop}

/-- Whether every turn leaves what is shared as it is to be, if it was so before, and the last one
comes to an end. -/
inductive Keeps (kept : π → Prop) : Turns π α → Prop
  | done (a : α) : Keeps kept (done a)
  | turn {effect : π → π} {next : π → Turns π α} :
    (∀ shared, kept shared → kept (effect shared)) →
    (∀ shared, kept shared → Keeps kept (next shared)) → Keeps kept (turn effect next)

theorem Keeps.bind {x : Turns π α} {f : α → Turns π β} (hx : Keeps kept x)
    (hf : ∀ a, Keeps kept (f a)) : Keeps kept (x >>= f) := by
  induction hx with
  | done a => exact hf a
  | turn heffect _ ih => exact .turn heffect ih

theorem keeps_once {step : π → Option (α × π)}
    (h : ∀ shared, kept shared → ∃ a after, step shared = some (a, after) ∧ kept after) :
    Keeps kept (once step) := by
  refine .turn (fun shared hkept => ?_) fun shared hkept => ?_ <;>
    obtain ⟨a, after, hstep, hafter⟩ := h shared hkept <;> rw [hstep]
  · exact hafter
  · exact .done a

structure AllKeep (kept : π → Prop) (state : List (Turns π α) × π) : Prop where
  jobs : ∀ job ∈ state.1, Keeps kept job
  shared : kept state.2

private theorem AllKeep.step {state : List (Turns π α) × π} (h : AllKeep kept state) (i : Nat) :
    AllKeep kept (step state i) := by
  obtain ⟨jobs, shared⟩ := state
  rw [Turns.step]
  split
  · next effect next hjob =>
    have hkeeps := h.jobs _ (List.mem_of_getElem? hjob)
    cases hkeeps with
    | turn heffect hnext =>
      refine ⟨fun job hmem => ?_, heffect shared h.shared⟩
      rcases List.mem_or_eq_of_mem_set hmem with hmem | rfl
      · exact h.jobs job hmem
      · exact hnext shared h.shared
  · exact h

theorem AllKeep.interleave {state : List (Turns π α) × π} (h : AllKeep kept state)
    (schedule : List Nat) : AllKeep kept (interleave schedule state) := by
  induction schedule generalizing state with
  | nil => exact h
  | cons i rest ih => exact ih (h.step i)

private theorem Keeps.finish {x : Turns π α} (hx : Keeps kept x) {shared : π}
    (hshared : kept shared) : ∃ a after, x.finish shared = some (a, after) ∧ kept after := by
  induction hx generalizing shared with
  | done a => exact ⟨a, shared, rfl, hshared⟩
  | turn heffect _ ih => exact ih shared hshared (heffect shared hshared)

theorem AllKeep.finish {jobs : List (Turns π α)} {shared : π} (h : AllKeep kept (jobs, shared)) :
    ∃ outcomes after, jobs.mapM Turns.finish shared = some (outcomes, after) ∧ kept after := by
  induction jobs generalizing shared with
  | nil => exact ⟨[], shared, rfl, h.shared⟩
  | cons job rest ih =>
    obtain ⟨a, mid, hfirst, hmid⟩ := (h.jobs job List.mem_cons_self).finish h.shared
    obtain ⟨outcomes, after, hrest, hafter⟩ :=
      ih ⟨fun other hother => h.jobs other (List.mem_cons_of_mem _ hother), hmid⟩
    refine ⟨a :: outcomes, after, ?_, hafter⟩
    rw [List.mapM_cons]
    show (job.finish shared).bind _ = _
    rw [hfirst]
    show (rest.mapM Turns.finish mid).bind _ = _
    rw [hrest]
    rfl

theorem finish_bind (x : Turns π α) (f : α → Turns π β) (shared : π) :
    (x >>= f).finish shared = (x.finish shared).bind fun o => (f o.1).finish o.2 := by
  induction x generalizing shared with
  | done a => rfl
  | stuck => rfl
  | turn effect next ih => exact ih shared (effect shared)

private theorem finish_once (step : π → Option (α × π)) (shared : π) :
    (once step).finish shared = step shared := by
  show (((step shared).elim stuck fun o => done o.1).finish ((step shared).elim shared (·.2))) = _
  cases step shared <;> rfl

end Turns

namespace Joint

open Eval (Simulation)

variable {σ α : Type} {own : Option (List (Ref × Data))}

/-- What a worker has before it: its own values, if it runs a block, in place of those shared. -/
def view (own : Option (List (Ref × Data))) (shared : Progress σ) : Progress σ :=
  own.elim shared fun values => { shared with values }

/-- An outcome as the worker leaves it that came to it with some shared values. -/
def leave (own : Option (List (Ref × Data))) (shared : Progress σ)
    (o : Except EvalError α × Progress σ) :
    (Except EvalError α × Option (List (Ref × Data))) × Progress σ :=
  match own with
  | none => ((o.1, none), o.2)
  | some _ => ((o.1, some o.2.values), { o.2 with values := shared.values })

/-- A worker that is left alone does what execution does. -/
def alone (σ : Type) :
    Simulation (StateT (Option (List (Ref × Data))) (Turns (Progress σ)))
      (StateT (Progress σ) Option) Unit where
  Rel x y := ∀ own shared, (x own).finish shared = (y () (view own shared)).map (leave own shared)
  rel_pure a own shared := by cases own <;> rfl
  rel_throw e own shared := by cases own <;> rfl
  rel_bind {α β x y f g} hx hf own shared := by
    refine (Turns.finish_bind _ _ _).trans ?_
    rw [hx own shared]
    show _ = ((y () (view own shared)).bind _).map _
    rcases y () (view own shared) with _ | ⟨_ | a, mid⟩
    · rfl
    · cases own <;> rfl
    · cases own with
      | none => exact hf a none mid
      | some values => exact hf a (some mid.values) { mid with values := shared.values }

theorem alone_once {x : Execution σ α} (h : ∀ progress : Progress σ, x progress =
      (x ⟨[], progress.session⟩).map fun o => (o.1, { o.2 with values := progress.values })) :
    (alone σ).Rel (once x) fun _ => x := by
  intro own shared
  refine (Turns.finish_bind _ _ _).trans ?_
  rw [Turns.finish_once]
  cases own with
  | none =>
    show (x shared).bind _ = (x shared).map _
    cases x shared <;> rfl
  | some values =>
    show (x shared).bind _ = (x { shared with values }).map _
    rw [h shared, h { shared with values }]
    cases x ⟨[], shared.session⟩ <;> rfl

private theorem alone_create (s : Setting σ) (name : String) (args : Dict Data) :
    (alone σ).Rel (once (Execution.create s name args)) fun _ => Execution.create s name args := by
  refine alone_once fun progress => ?_
  show ((s.create name args progress.session).bind _).bind _ =
    (((s.create name args progress.session).bind _).bind _).map _
  rcases s.create name args progress.session with _ | ⟨_ | _, _⟩ <;> rfl

private theorem alone_read (s : Setting σ) (name id field : String) :
    (alone σ).Rel (once (Execution.read s name id field)) fun _ =>
      Execution.read s name id field := by
  refine alone_once fun progress => ?_
  rw [Execution.read, Execution.run_get_bind, Execution.run_get_bind]
  dsimp only
  split
  · show (s.read ⟨name, id⟩ field progress.session).bind _ =
      ((s.read ⟨name, id⟩ field progress.session).bind _).map _
    cases s.read ⟨name, id⟩ field progress.session <;> rfl
  · rfl

private theorem alone_remembered (r : Ref) : (alone σ).Rel
    (remembered r) fun _ => Execution.remembered r := by
  intro own shared
  cases own <;> rfl

private theorem alone_keep (r : Ref) (data : Data) :
    (alone σ).Rel (keep r data) fun _ => Execution.keep r data := by
  intro own shared
  cases own <;> rfl

private theorem alone_isolated {x : Joint σ Row} {y : Unit → Execution σ Row}
    (h : (alone σ).Rel x y) : (alone σ).Rel (isolated x) fun i => Execution.isolated (y i) := by
  intro own shared
  refine (Turns.finish_bind _ _ _).trans ?_
  rw [h (some []) shared]
  cases own with
  | none =>
    show ((y () { shared with values := [] }).map _).bind _ =
      ((y () { shared with values := [] }).bind _).map _
    cases y () { shared with values := [] } <;> rfl
  | some values =>
    show ((y () { shared with values := [] }).map _).bind _ =
      ((y () { shared with values := [] }).bind _).map _
    cases y () { shared with values := [] } <;> rfl

private theorem alone_replies {s : Setting σ} {x target : Frame → Ref → Joint σ Data}
    {y target' : Frame → Ref → Execution σ Data}
    (hx : ∀ frame r, (alone σ).Rel (x frame r) fun _ => y frame r)
    (htarget : ∀ frame r, (alone σ).Rel (target frame r) fun _ => target' frame r) (frame : Frame) :
    (alone σ).Replies ((means s).requests frame x target) fun _ =>
      Execution.requests s frame y target' where
  chunk := hx frame
  target := htarget frame
  block r element _ := alone_isolated
    (Simulation.rel_row frame r element fun _ _ => hx (.ofBlock _ element))
  declares _ := rfl
  create := alone_create s
  read _ name id field _ := alone_read s name id field

private theorem alone_value (s : Setting σ) (levels : Nat) (frame : Frame) (r : Ref) :
    (alone σ).Rel ((means s).value levels frame r) fun _ => Execution.value s levels frame r := by
  induction levels using Nat.strongRecOn generalizing frame r with
  | _ levels ih =>
    cases levels with
    | zero => exact (alone σ).rel_throw _
    | succ levels =>
      rw [Means.value_succ]
      simp only [Execution.value_succ]
      have hreplies := alone_replies (s := s) (ih levels (by omega)) (ih (levels - 1) (by omega))
      apply (alone σ).rel_bind (alone_remembered r)
      rintro (_ | data)
      · exact (alone σ).rel_bind ((hreplies frame).rel_chunk frame r) fun data =>
          (alone σ).rel_bind (alone_keep r data) fun _ => (alone σ).rel_pure data
      · exact (alone σ).rel_pure data

private theorem finish_job (s : Setting σ) (frame : Frame) (r : Ref) (progress : Progress σ) :
    (job s frame r).finish progress =
      Execution.value s (s.config.maxDepth + 1) frame r progress := by
  refine (Turns.finish_bind _ _ _).trans ?_
  rw [alone_value s _ frame r none progress]
  show ((Execution.value s _ frame r progress).map _).bind _ = _
  cases Execution.value s (s.config.maxDepth + 1) frame r progress <;> rfl

end Joint

namespace Setting

variable {σ : Type}

private theorem answers_eq_jobs (s : Setting σ) (frame : Frame) (rs : List Ref)
    (progress : Progress σ) :
    s.answers frame rs progress = ((rs.map (Joint.job s frame)).mapM Turns.finish progress).map
      fun o => (rs.zipWith (fun r outcome => (r, answerOf frame.code r outcome)) o.1, o.2) := by
  induction rs generalizing progress with
  | nil => rfl
  | cons r rest ih =>
    rw [List.map_cons, List.mapM_cons]
    show (Execution.value s _ frame r progress).bind _ =
      (((Joint.job s frame r).finish progress).bind _).map _
    rw [Joint.finish_job]
    rcases Execution.value s (s.config.maxDepth + 1) frame r progress with _ | ⟨reply, mid⟩
    · rfl
    · show (s.answers frame rest mid).bind _ =
        (((rest.map (Joint.job s frame)).mapM Turns.finish mid).bind _).map _
      rw [ih mid]
      cases (rest.map (Joint.job s frame)).mapM Turns.finish mid <;> rfl

/-- Where no turns are scheduled, the entry points are evaluated one after the other. -/
theorem executeJointly_nil (s : Setting σ) (code : Code) (props : Dict Data) :
    s.executeJointly [] code props = s.execute code props := by
  funext session
  show (((code.entrypoints.map (Joint.job s ⟨code, props⟩)).mapM Turns.finish
    ⟨[], session⟩).bind _) = (s.answers ⟨code, props⟩ code.entrypoints ⟨[], session⟩).bind _
  rw [answers_eq_jobs]
  cases (code.entrypoints.map (Joint.job s ⟨code, props⟩)).mapM Turns.finish ⟨[], session⟩ <;> rfl

end Setting

end AssetQuery
