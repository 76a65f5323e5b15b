import AssetQuery.Proofs.Eval.Turns
import AssetQuery.Proofs.Session.Computations

/-!
# What executions keep

An execution does nothing to a session but by creating resources and reading fields. So a property
of sessions that these keep is kept by executions, and where these always have an outcome executions
have one too.
-/

namespace AssetQuery

variable {σ α β : Type}

/-- Whether work has an outcome on sessions that are as they are to be, and leaves them so. -/
def Work.Maintains (kept : Session σ → Prop) (w : Work σ α) : Prop :=
  ∀ session, kept session → ∃ reply after, w session = some (reply, after) ∧ kept after

namespace Work

variable {kept : Session σ → Prop}

theorem maintains_pure (a : α) : Maintains kept (pure a) :=
  fun session hkept => ⟨a, session, rfl, hkept⟩

theorem maintains_modify {f : Session σ → Session σ}
    (h : ∀ session, kept session → kept (f session)) : Maintains kept (modify f) :=
  fun session hkept => ⟨⟨⟩, f session, rfl, h session hkept⟩

theorem maintains_exists {ι : Type} {kept : ι → Session σ → Prop} {w : Work σ α}
    (h : ∀ i, Maintains (kept i) w) : Maintains (fun session => ∃ i, kept i session) w := by
  rintro session ⟨i, hkept⟩
  obtain ⟨reply, after, hrun, hafter⟩ := h i session hkept
  exact ⟨reply, after, hrun, i, hafter⟩

theorem Maintains.bind {w : Work σ α} {f : α → Work σ β} (hw : Maintains kept w)
    (hf : ∀ a, Maintains kept (f a)) : Maintains kept (w >>= f) := by
  intro session hkept
  obtain ⟨a, mid, hfirst, hmid⟩ := hw session hkept
  obtain ⟨b, after, hrest, hafter⟩ := hf a mid hmid
  exact ⟨b, after, by rw [run_bind hfirst, hrest], hafter⟩

end Work

structure Setting.Maintains (s : Setting σ) (kept : Session σ → Prop) : Prop where
  create : ∀ name args, Work.Maintains kept (s.create name args)
  read : ∀ key field, Work.Maintains kept (s.read key field)
  invalidate : ∀ key field, Work.Maintains kept (s.invalidate key field)

namespace Joint

open Eval (Simulation)

/-- Every turn keeps a property of sessions. There is nothing that the work is compared to. -/
def keeping (kept : Session σ → Prop) :
    Simulation (StateT (Option (List (Ref × Data))) (Turns (Progress σ)))
      (StateT (Option (List (Ref × Data))) (Turns (Progress σ))) Unit where
  Rel x _ := ∀ own, Turns.Keeps (fun progress => kept progress.session) (x own)
  rel_pure _ _ := .done _
  rel_throw _ _ := .done _
  rel_bind hx hf own := by
    refine (hx own).bind ?_
    rintro ⟨_ | a, own'⟩
    · exact .done _
    · exact hf a own'

variable {s : Setting σ} {kept : Session σ → Prop} {y : Unit → Joint σ α}

theorem keeping_once {x : Execution σ α} (h : ∀ progress : Progress σ, kept progress.session →
      ∃ reply after, x progress = some (reply, after) ∧ kept after.session) :
    (keeping kept).Rel (once x) y := by
  intro own
  exact (Turns.keeps_once h).bind fun _ => .done _

private theorem work_maintains {w : Work σ (Except ResourceError α)} (h : Work.Maintains kept w)
    (progress : Progress σ) (hkept : kept progress.session) :
    ∃ reply after, Execution.work w progress = some (reply, after) ∧ kept after.session := by
  obtain ⟨reply, after, hrun, hafter⟩ := h progress.session hkept
  refine ⟨reply.mapError .resource, { progress with session := after }, ?_, hafter⟩
  show (w progress.session).bind _ = _
  rw [hrun]
  rfl

private theorem keeping_remembered (r : Ref) : (keeping kept).Rel
    (remembered r) fun _ => remembered r := by
  intro own
  cases own with
  | none =>
    have hturn : (keeping kept).Rel (once (Execution.remembered r)) fun _ => remembered r :=
      keeping_once fun _ h => ⟨_, _, rfl, h⟩
    exact hturn none
  | some values => exact .done _

private theorem keeping_keep (r : Ref) (data : Data) :
    (keeping kept).Rel (keep r data) fun _ => keep r data := by
  intro own
  cases own with
  | none =>
    have hturn : (keeping kept).Rel (once (Execution.keep r data)) fun _ => keep r data :=
      keeping_once fun _ h => ⟨_, _, rfl, h⟩
    exact hturn none
  | some values => exact .done _

private theorem keeping_isolated {x : Joint σ α} (h : (keeping kept).Rel x y) :
    (keeping kept).Rel (isolated x) fun i => isolated (y i) := by
  intro own
  exact (h (some [])).bind fun _ => .done _

private theorem keeping_replies (hs : s.Maintains kept) {x target : Frame → Ref → Joint σ Data}
    (hx : ∀ frame r, (keeping kept).Rel (x frame r) fun _ => x frame r)
    (htarget : ∀ frame r, (keeping kept).Rel (target frame r) fun _ => target frame r)
    (frame : Frame) :
    (keeping kept).Replies ((means s).requests frame x target) fun _ =>
      (means s).requests frame x target where
  chunk := hx frame
  target := htarget frame
  block r element _ :=
    keeping_isolated (Simulation.rel_row frame r element fun _ _ => hx (.ofBlock _ element))
  declares _ := rfl
  create name args := keeping_once fun progress hkept => by
    obtain ⟨reply, after, hrun, hafter⟩ := work_maintains (hs.create name args) progress hkept
    cases reply with
    | error e => exact ⟨_, after, Execution.bind_error hrun, hafter⟩
    | ok key => exact ⟨_, after, Execution.bind_ok hrun, hafter⟩
  read _ name id field _ := keeping_once fun progress hkept => by
    rw [Execution.read, Execution.run_get_bind]
    split
    · exact work_maintains (hs.read ⟨name, id⟩ field) progress hkept
    · exact ⟨_, progress, rfl, hkept⟩

private theorem keeping_value (hs : s.Maintains kept) (levels : Nat) (frame : Frame) (r : Ref) :
    (keeping kept).Rel ((means s).value levels frame r) fun _ =>
      (means s).value levels frame r := by
  induction levels using Nat.strongRecOn generalizing frame r with
  | _ levels ih =>
    cases levels with
    | zero => exact (keeping kept).rel_throw _
    | succ levels =>
      rw [Means.value_succ]
      have hreplies := keeping_replies hs (ih levels (by omega)) (ih (levels - 1) (by omega))
      apply (keeping kept).rel_bind (keeping_remembered r)
      rintro (_ | data)
      · exact (keeping kept).rel_bind ((hreplies frame).rel_chunk frame r) fun data =>
          (keeping kept).rel_bind (keeping_keep r data) fun _ => (keeping kept).rel_pure data
      · exact (keeping kept).rel_pure data

private theorem keeps_job (hs : s.Maintains kept) (frame : Frame) (r : Ref) :
    Turns.Keeps (fun progress => kept progress.session) (job s frame r) := by
  have hvalue := keeping_value hs (s.config.maxDepth + 1) frame r
  exact (hvalue none).bind fun _ => .done _

end Joint

/-- Something that is done with a session. A code is executed by workers that have turns as
scheduled. -/
inductive Use where
  | operate (operation : Operation)
  | execute (schedule : List Nat) (code : Code) (props : Dict Data)

namespace Setting

def use (s : Setting σ) : Use → Work σ Unit
  | .operate operation => s.operate operation
  | .execute schedule code props => do let _ ← s.executeJointly schedule code props

/-- One use after the other. -/
def useAll (s : Setting σ) (uses : List Use) : Work σ Unit := uses.forM s.use

variable {s : Setting σ} {kept : Session σ → Prop}

private theorem Maintains.operate (hs : s.Maintains kept) (operation : Operation) :
    Work.Maintains kept (s.operate operation) := by
  cases operation with
  | create name args => exact (hs.create name args).bind fun _ => Work.maintains_pure _
  | read key field => exact (hs.read key field).bind fun _ => Work.maintains_pure _
  | invalidate key field => exact hs.invalidate key field

private theorem Maintains.executeJointly (hs : s.Maintains kept) (schedule : List Nat) (code : Code)
    (props : Dict Data) : Work.Maintains kept (s.executeJointly schedule code props) := by
  intro session hsession
  have hjobs : Turns.AllKeep (fun progress => kept progress.session)
      (code.entrypoints.map (Joint.job s ⟨code, props⟩), (⟨[], session⟩ : Progress σ)) :=
    ⟨List.forall_mem_map.mpr fun r _ => Joint.keeps_job hs _ r, hsession⟩
  obtain ⟨outcomes, after, hrun, hafter⟩ := (hjobs.interleave schedule).finish
  refine ⟨_, after.session, Option.bind_eq_some_iff.mpr ⟨(outcomes, after), hrun, rfl⟩, hafter⟩

theorem Maintains.useAll (hs : s.Maintains kept) (uses : List Use) :
    Work.Maintains kept (s.useAll uses) := by
  induction uses with
  | nil => exact Work.maintains_pure _
  | cons first rest ih =>
    have hfirst : Work.Maintains kept (s.use first) := by
      cases first with
      | operate operation => exact hs.operate operation
      | execute schedule code props =>
        exact (hs.executeJointly schedule code props).bind fun _ => Work.maintains_pure _
    exact hfirst.bind fun _ => ih

end Setting

end AssetQuery
