import AssetQuery.Proofs.Eval.Execution
import AssetQuery.Proofs.Eval.Plain

/-!
# Depth enough

Where plain evaluation comes to an end without asking for resources, execution ends in the same way,
whatever resources there are, unless it gives up at the limit to depth. It does not give up if there
are two levels for each step of the recursion.
-/

namespace AssetQuery

open Eval (Simulation)

variable {σ α : Type}

/-- What is remembered of a code is in keeping with recursions that come to an end. -/
def Frame.Agrees (frame : Frame) (outside : Outside) (values : List (Ref × Data)) : Prop :=
  ∀ r data, values.lookup r = some data →
    ∀ depth o, (Plain.value outside depth frame r).run = some o → o = .ok data

theorem Frame.agrees_nil (frame : Frame) (outside : Outside) : frame.Agrees outside [] :=
  fun _ _ h => by cases h

private theorem Frame.Agrees.cons {frame : Frame} {outside : Outside} {values : List (Ref × Data)}
    (h : frame.Agrees outside values) {r : Ref} {data : Data} {depth : Nat}
    (hr : (Plain.value outside depth frame r).run = some (.ok data)) :
    frame.Agrees outside ((r, data) :: values) := by
  intro q found hq
  rw [List.lookup_cons] at hq
  split at hq
  · next heq =>
    cases hq
    rw [eq_of_beq heq]
    exact fun _ _ ho => Plain.value_unique ho hr
  · exact h q found hq

/-- The resources that a setting declares, and no more known of them. -/
def Setting.outside (s : Setting σ) : Outside :=
  .declaring fun resource field => (s.registry.field? resource field).isSome

namespace Execution

/-- Execution follows a recursion that comes to an end: its outcome is the same, unless depth is not
ample and it gives up at the limit. -/
def following (s : Setting σ) (frame : Frame) (ample : Prop) :
    Simulation (StateT (Progress σ) Option) Option Unit where
  Rel x y := ∀ o, (y ()).run = some o →
    ∀ progress : Progress σ, frame.Agrees s.outside progress.values →
      ∃ reply after, x progress = some (reply, after) ∧ frame.Agrees s.outside after.values ∧
        after.session = progress.session ∧
        (reply = o ∨ ¬ample ∧ reply = .error (.depthExceeded s.config.maxDepth))
  rel_pure a o ho progress h := ⟨.ok a, progress, rfl, h, rfl, .inl (Option.some.inj ho)⟩
  rel_throw e o ho progress h := ⟨.error e, progress, rfl, h, rfl, .inl (Option.some.inj ho)⟩
  rel_bind {α β x y f g} hx hf o ho progress h := by
    rcases Plain.run_bind_eq_some.mp ho with ⟨a, ha, hfa⟩ | ⟨e, he, rfl⟩
    · obtain ⟨reply, after, hrun, hafter, hsession, hreply⟩ := hx _ ha progress h
      rcases hreply with rfl | ⟨hample, rfl⟩
      · obtain ⟨reply, last, hlast, hagrees, hsame, hreply⟩ := hf a _ hfa after hafter
        exact ⟨reply, last, by rw [bind_ok hrun, hlast], hagrees, hsame.trans hsession, hreply⟩
      · exact ⟨_, after, bind_error hrun, hafter, hsession, .inr ⟨hample, rfl⟩⟩
    · obtain ⟨reply, after, hrun, hafter, hsession, hreply⟩ := hx _ he progress h
      rcases hreply with rfl | ⟨hample, rfl⟩
      · exact ⟨_, after, bind_error hrun, hafter, hsession, .inl rfl⟩
      · exact ⟨_, after, bind_error hrun, hafter, hsession, .inr ⟨hample, rfl⟩⟩

variable {s : Setting σ} {frame : Frame} {ample : Prop}

private theorem following_imp {ample' : Prop} (himp : ample → ample') {x : Execution σ α}
    {y : Plain α} (h : (following s frame ample').Rel x fun _ => y) :
    (following s frame ample).Rel x fun _ => y := by
  intro o ho progress hprogress
  obtain ⟨reply, after, hrun, hafter, hsession, hreply⟩ := h o ho progress hprogress
  exact ⟨reply, after, hrun, hafter, hsession, hreply.imp id fun hr => ⟨hr.1 ∘ himp, hr.2⟩⟩

private theorem following_depthExceeded (h : ¬ample) (y : Plain α) :
    (following s frame ample).Rel (throw (.depthExceeded s.config.maxDepth)) fun _ => y :=
  fun _ _ progress hprogress => ⟨.error _, progress, rfl, hprogress, rfl, .inr ⟨h, rfl⟩⟩

theorem following_none (x : Execution σ α) :
    (following s frame ample).Rel x fun _ => ExceptT.mk none :=
  fun _ ho => by cases ho

private theorem following_isolated {inner : Frame} {x : Execution σ α} {y : Unit → Plain α}
    (h : (following s inner ample).Rel x y) :
    (following s frame ample).Rel (isolated x) y := by
  intro o ho progress hprogress
  obtain ⟨reply, after, hrun, _, hsession, hreply⟩ :=
    h o ho { progress with values := [] } (inner.agrees_nil _)
  refine ⟨reply, { after with values := progress.values }, ?_, hprogress, hsession, hreply⟩
  show (x { progress with values := [] }).bind _ = _
  rw [hrun]
  rfl

private theorem following_replies {x target : Frame → Ref → Execution σ Data}
    {y : Frame → Ref → Plain Data}
    (hx : ∀ frame r, (following s frame ample).Rel (x frame r) fun _ => y frame r)
    (htarget : ∀ frame r, (following s frame ample).Rel (target frame r) fun _ => y frame r)
    (frame : Frame) :
    (following s frame ample).Replies (requests s frame x target) fun _ =>
      Plain.requests s.outside frame y where
  chunk := hx frame
  target := htarget frame
  block r element _ := Simulation.rel_row_within (S := fun frame => following s frame ample)
    (fun _ _ _ => following_isolated) hx r element
  declares _ := rfl
  create _ _ := following_none _
  read _ _ _ _ _ := following_none _

private theorem following_remember {r : Ref} {x : Execution σ Data} {depth : Nat}
    (h : (following s frame ample).Rel x fun _ => Plain.value s.outside depth frame r) :
    (following s frame ample).Rel (remember r x) fun _ => Plain.value s.outside depth frame r := by
  intro o ho progress hprogress
  cases hlookup : progress.values.lookup r with
  | some data =>
    refine ⟨.ok data, progress, remember_of_some hlookup, hprogress, rfl, .inl ?_⟩
    exact (hprogress r data hlookup depth o ho).symm
  | none =>
    rw [remember_of_none hlookup]
    obtain ⟨reply, after, hrun, hafter, hsession, hreply⟩ := h o ho progress hprogress
    cases reply with
    | error e => exact ⟨.error e, after, bind_error hrun, hafter, hsession, hreply⟩
    | ok data =>
      have hdata : .ok data = o := hreply.resolve_right fun h => by cases h.2
      subst hdata
      refine ⟨.ok data, { after with values := (r, data) :: after.values }, ?_,
        hafter.cons ho, hsession, .inl rfl⟩
      rw [bind_ok hrun]
      rfl

private theorem following_value (depth levels : Nat) (frame : Frame) (r : Ref) :
    (following s frame (2 * depth ≤ levels)).Rel (value s levels frame r) fun _ =>
      Plain.value s.outside depth frame r := by
  -- a chunk that is only a reference takes two levels for a single step of the recursion
  induction levels using Nat.strongRecOn generalizing depth frame r with
  | _ levels ih =>
    cases depth with
    | zero => exact following_none _
    | succ depth =>
      cases levels with
      | zero => exact following_depthExceeded (by omega) _
      | succ levels =>
        rw [value_succ]
        apply following_remember
        have himp : 2 * (depth + 1) ≤ levels + 1 → 2 * depth ≤ levels := by omega
        have himp' : 2 * (depth + 1) ≤ levels + 1 → 2 * depth ≤ levels - 1 := by omega
        have hchunk (frame : Frame) (r : Ref) :=
          following_imp himp (ih levels (by omega) depth frame r)
        have htarget (frame : Frame) (r : Ref) :=
          following_imp himp' (ih (levels - 1) (by omega) depth frame r)
        exact (following_replies hchunk htarget frame).rel_chunk frame r

end Execution

/-- Execution of a code whose entry points come to an end by recursion to some depth: each is
answered by its outcome, or by giving up if the limit does not leave two levels for each step. -/
theorem Setting.execute_follows (s : Setting σ) {code : Code} {props : Dict Data} {depth : Nat}
    (h : ∀ r ∈ code.entrypoints, ∃ o,
      (Plain.value s.outside depth ⟨code, props⟩ r).run = some o) (session : Session σ) :
    ∃ answers, s.execute code props session = some (answers, session) ∧
      ∀ r ∈ code.entrypoints, ∀ o, (Plain.value s.outside depth ⟨code, props⟩ r).run = some o →
        answers.lookup r = some (answerOf code r o) ∨
        s.config.maxDepth + 1 < 2 * depth ∧
          answers.lookup r =
            some (answerOf code r (.error (.depthExceeded s.config.maxDepth))) := by
  obtain ⟨answers, after, hrun, ⟨_, hsession⟩, hall⟩ := execute_run
    (fun progress : Progress σ => (Frame.mk code props).Agrees s.outside progress.values ∧
      progress.session = session)
    (fun r reply => ∀ o, (Plain.value s.outside depth ⟨code, props⟩ r).run = some o →
      reply = o ∨ s.config.maxDepth + 1 < 2 * depth ∧
        reply = .error (.depthExceeded s.config.maxDepth))
    (fun r hr progress hprogress => by
      obtain ⟨o, ho⟩ := h r hr
      obtain ⟨reply, after, hvalue, hafter, hsame, hreply⟩ :=
        Execution.following_value depth (s.config.maxDepth + 1) _ r o ho progress hprogress.1
      refine ⟨reply, after, hvalue, ⟨hafter, hsame.trans hprogress.2⟩, fun o' ho' => ?_⟩
      rw [Option.some.inj (ho'.symm.trans ho)]
      exact hreply.imp id fun hr => ⟨by omega, hr.2⟩)
    session ⟨Frame.agrees_nil _ _, rfl⟩
  refine ⟨answers, by rw [hrun, hsession], fun r hr o ho => ?_⟩
  obtain ⟨reply, hreply, hlookup⟩ := hall r hr
  rcases hreply o ho with rfl | ⟨hshort, rfl⟩
  · exact .inl hlookup
  · exact .inr ⟨hshort, hlookup⟩

end AssetQuery
