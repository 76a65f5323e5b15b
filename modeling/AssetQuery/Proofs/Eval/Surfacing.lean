import AssetQuery.Proofs.Eval.Faultless
import AssetQuery.Proofs.Eval.Memory
import AssetQuery.Proofs.Eval.Trace
import Mathlib.Logic.Relation

/-!
# Errors that surface

Where there are no resources, an entry point fails if any chunk fails that is evaluated for it, as a
receiver, as an argument or in a block. A property may also stand for a failure. Such data surfaces
along receivers and references; functions take an argument by its value alone.
-/

namespace AssetQuery

open Eval (Simulation)

variable {σ α β : Type}

/-- Whether a chunk failed, or evaluated to data that stands for a failure. -/
def Amiss (outcome : Except EvalError Data) : Prop :=
  ∀ data, outcome = .ok data → data.error.isSome

private theorem amiss_error (e : EvalError) : Amiss (.error e) := nofun

theorem amiss_ok {data : Data} : Amiss (.ok data) ↔ data.error.isSome := by
  constructor
  · intro h
    exact h data rfl
  · rintro h _ ⟨⟩
    exact h

private theorem Setting.error_answerOf (code : Code) (r : Ref) {outcome : Except EvalError Data}
    (h : Amiss outcome) : (answerOf code r outcome).error.isSome := by
  cases outcome with
  | error e => rfl
  | ok data =>
    simp only [answerOf]
    split
    · next answer hanswer =>
      obtain ⟨p, _, hanswer⟩ := Except.bind_eq_ok.mp hanswer
      rw [← Except.ok.inj hanswer]
      exact amiss_ok.mp h
    · rfl

/-- Whether a chunk takes over what went amiss with another: the chunk that it is a call on, or that
it is a reference to. -/
inductive Code.Heeds (code : Code) (r q : Ref) : Prop
  | receiver {c : Chunk} (hchunk : code.chunk? r = some c) (hkind : c.kind = .function)
      (hbinding : c.binding = q) (hcall : q ≠ 0)
  | target {c : Chunk} {p : Primitive} (hchunk : code.chunk? r = some c)
      (hkind : c.kind = .primitive) (hconstant : c.primitive = some p) (htyp : p.typ = .ref)
      (href : p.asRef = .ok q) (hself : q ≠ r)

namespace Frame

variable {frame : Frame} {r q : Ref} {outcome : Except EvalError Data}

private theorem Evaluates.heeded (hr : frame.Evaluates r outcome) (h : frame.code.Heeds r q) :
    ∃ heeded, frame.Evaluates q heeded ∧ (Amiss heeded → Amiss outcome) := by
  obtain ⟨_ | depth, hr⟩ := hr
  · cases hr
  replace hr : (Eval.chunk (Plain.requests .empty frame (Plain.value .empty depth)) frame r).run =
    some outcome := hr
  cases h with
  | receiver hchunk hkind hbinding hcall =>
    simp only [Eval.chunk, hchunk, hkind, Eval.call, hbinding, if_neg hcall] at hr
    rcases Plain.run_bind_eq_some.mp hr with ⟨receiver, hreceiver, hr⟩ | ⟨e, he, rfl⟩
    · refine ⟨.ok receiver, ⟨depth, hreceiver⟩, fun hamiss => ?_⟩
      obtain ⟨error, herror⟩ := Option.isSome_iff_exists.mp (amiss_ok.mp hamiss)
      simp only [herror] at hr
      cases hr
      exact amiss_ok.mpr rfl
    · exact ⟨.error e, ⟨depth, he⟩, id⟩
  | target hchunk hkind hconstant htyp href hself =>
    simp only [Eval.chunk, hchunk, hkind, hconstant, Eval.constant, htyp, if_true, href,
      Eval.ofSerial, pure_bind, if_neg hself] at hr
    exact ⟨outcome, ⟨depth, hr⟩, id⟩

private theorem Evaluates.amiss (hr : frame.Evaluates r outcome)
    (hpath : Relation.ReflTransGen frame.code.Heeds r q) {found : Except EvalError Data}
    (hq : frame.Evaluates q found) (h : Amiss found) : Amiss outcome := by
  induction hpath using Relation.ReflTransGen.head_induction_on generalizing outcome with
  | refl => exact hr.unique hq ▸ h
  | head hheeds _ ih =>
    obtain ⟨heeded, hheeded, hup⟩ := hr.heeded hheeds
    exact hup (ih hheeded)

end Frame

/-- Whether a visit made from a frame is as plain evaluation has it. Other frames are those of
blocks, in which no property stands for a failure. -/
structure Visit.Faithful (frame : Frame) (v : Visit) : Prop where
  frame : v.frame = frame ∨ v.frame.Faultless
  evaluates : ∀ data, v.outcome = .ok data → v.frame.Evaluates v.r (.ok data)

private theorem Visit.Faithful.of_faultless {frame inner : Frame} {v : Visit} (h : v.Faithful inner)
    (hinner : inner.Faultless) : v.Faithful frame where
  frame := by
    rcases h.frame with hframe | hframe
    · exact .inr (hframe ▸ hinner)
    · exact .inr hframe
  evaluates := h.evaluates

/-- What a step made from a frame adds to the visits: they are faithful, and if a chunk failed, so
did the step. -/
def Frame.Raises (frame : Frame) (before : List Visit) (reply : Except EvalError α)
    (after : List Visit) : Prop :=
  ∃ made, after = made ++ before ∧ (∀ v ∈ made, v.Faithful frame) ∧
    ((∃ v ∈ made, ∃ e, v.outcome = .error e) → ∃ e, reply = .error e)

namespace Frame.Raises

variable {frame inner : Frame} {before mid after : List Visit} {reply : Except EvalError α}

theorem refl (frame : Frame) (before : List Visit) (reply : Except EvalError α) :
    frame.Raises before reply before :=
  ⟨[], rfl, nofun, nofun⟩

private theorem error {e : EvalError}
    (h : frame.Raises before (.error e : Except EvalError α) after) :
    frame.Raises before (.error e : Except EvalError β) after := by
  obtain ⟨made, hmade, hfaithful, _⟩ := h
  exact ⟨made, hmade, hfaithful, fun _ => ⟨e, rfl⟩⟩

private theorem trans {a : α} {last : Except EvalError β} (h : frame.Raises before (.ok a) mid)
    (hrest : frame.Raises mid last after) : frame.Raises before last after := by
  obtain ⟨made, rfl, hfaithful, hfails⟩ := h
  obtain ⟨more, rfl, hfaithful', hfails'⟩ := hrest
  refine ⟨more ++ made, (List.append_assoc _ _ _).symm, ?_, ?_⟩
  · intro v hv
    rcases List.mem_append.mp hv with hv | hv
    · exact hfaithful' v hv
    · exact hfaithful v hv
  · rintro ⟨v, hv, hfail⟩
    rcases List.mem_append.mp hv with hv | hv
    · exact hfails' ⟨v, hv, hfail⟩
    · -- the first step went well, so that none of its visits failed
      obtain ⟨_, he⟩ := hfails ⟨v, hv, hfail⟩
      cases he

private theorem of_faultless (h : inner.Raises before reply after) (hinner : inner.Faultless) :
    frame.Raises before reply after := by
  obtain ⟨made, hmade, hfaithful, hfails⟩ := h
  exact ⟨made, hmade, fun v hv => (hfaithful v hv).of_faultless hinner, hfails⟩

private theorem visit {r : Ref} {reply : Except EvalError Data}
    (h : frame.Raises before reply after)
    (hreply : ∀ data, reply = .ok data → frame.Evaluates r (.ok data)) :
    frame.Raises before reply (⟨frame, r, reply⟩ :: after) := by
  obtain ⟨made, rfl, hfaithful, hfails⟩ := h
  refine ⟨⟨frame, r, reply⟩ :: made, rfl, ?_, ?_⟩
  · exact List.forall_mem_cons.mpr ⟨⟨.inl rfl, hreply⟩, hfaithful⟩
  · rintro ⟨v, hv, e, he⟩
    rcases List.mem_cons.mp hv with rfl | hv
    · exact ⟨e, he⟩
    · exact hfails ⟨v, hv, e, he⟩

end Frame.Raises

namespace Traced

variable {s : Setting σ} {frame inner : Frame}

/-- On the left, what is remembered stays right, and what fails on the way fails the step. What is
on the right does not matter. -/
def raising (σ : Type) (frame : Frame) :
    Simulation (StateT (Progress σ × List Visit) Option) Option Unit where
  Rel x _ := ∀ state reply after, frame.Recalls state.1.values → x state = some (reply, after) →
    frame.Recalls after.1.values ∧ frame.Raises state.2 reply after.2
  rel_pure a := by
    rintro state _ _ hrecalls ⟨⟩
    exact ⟨hrecalls, .refl _ _ _⟩
  rel_throw e := by
    rintro state _ _ hrecalls ⟨⟩
    exact ⟨hrecalls, .refl _ _ _⟩
  rel_bind {α β x y f g} hx hf state reply after hrecalls hrun := by
    rcases eq_some_of_bind hrun with ⟨e, rfl, hfirst⟩ | ⟨a, mid, hfirst, hrest⟩
    · obtain ⟨hafter, hraises⟩ := hx _ _ _ hrecalls hfirst
      exact ⟨hafter, hraises.error⟩
    · obtain ⟨hmid, hraises⟩ := hx _ _ _ hrecalls hfirst
      obtain ⟨hafter, hmore⟩ := hf a _ _ _ hmid hrest
      exact ⟨hafter, hraises.trans hmore⟩

private theorem raising_isolated {x : Traced σ α} {y y' : Unit → Plain α} (hinner : inner.Faultless)
    (h : (raising σ inner).Rel x y) : (raising σ frame).Rel (isolated x) y' := by
  intro state reply after hrecalls hrun
  obtain ⟨⟨outcome, mid⟩, hx, heq⟩ := Option.bind_eq_some_iff.mp hrun
  cases heq
  exact ⟨hrecalls, (h _ _ _ inner.recalls_nil hx).2.of_faultless hinner⟩

private theorem raising_replies (hempty : s.registry = .empty)
    {x target : Frame → Ref → Traced σ Data} {y : Frame → Ref → Plain Data}
    (hx : ∀ frame r, (raising σ frame).Rel (x frame r) fun _ => y frame r)
    (htarget : ∀ frame r, (raising σ frame).Rel (target frame r) fun _ => y frame r)
    (frame : Frame) :
    (raising σ frame).Replies (requests s frame x target) fun _ =>
      Plain.requests .empty frame y where
  chunk := hx frame
  target := htarget frame
  block r element helement := by
    cases hblock : frame.code.function? r with
    | none =>
      rintro state reply after hrecalls hrun
      simp only [requests, Means.requests, Eval.row, hblock] at hrun
      cases hrun
      exact ⟨hrecalls, .refl _ _ _⟩
    | some block =>
      apply raising_isolated (Frame.faultless_ofBlock block helement)
      apply Simulation.rel_row
      intro found hfound q
      cases hblock.symm.trans hfound
      exact hx _ q
  declares _ := (Execution.declares_of_empty hempty).symm
  create name args := by
    intro state reply after hrecalls hrun
    obtain ⟨⟨outcome, mid⟩, hcreate, heq⟩ := Option.bind_eq_some_iff.mp hrun
    cases (Execution.create_of_empty hempty name args state.1).symm.trans hcreate
    cases heq
    exact ⟨hrecalls, .refl _ _ _⟩
  read resource name id field hdeclares := by
    cases hdeclares.symm.trans (congrFun (congrFun (Execution.declares_of_empty hempty) resource)
      field)

theorem evaluates_of_value (hempty : s.registry = .empty) {levels : Nat} {r : Ref}
    {state after : Progress σ × List Visit} {reply : Except EvalError Data}
    (hrecalls : frame.Recalls state.1.values)
    (hrun : value s levels frame r state = some (reply, after)) :
    frame.Recalls after.1.values ∧
      ∀ data, reply = .ok data → frame.Evaluates r (.ok data) := by
  have herased := erasing_value s levels frame r state
  simp only [hrun] at herased
  obtain ⟨reply', after', hsettled, hafter, -, hreply⟩ :=
    Execution.settling_value hempty levels frame r state.1 hrecalls
  cases herased.trans hsettled
  refine ⟨hafter, ?_⟩
  rintro data rfl
  obtain ⟨least, hleast⟩ := hreply.resolve_left (by simp)
  exact ⟨least, hleast least (Nat.le_refl _)⟩

private theorem raising_value (hempty : s.registry = .empty) (levels : Nat) (frame : Frame)
    (r : Ref) (y : Unit → Plain Data) : (raising σ frame).Rel (value s levels frame r) y := by
  induction levels using Nat.strongRecOn generalizing frame r with
  | _ levels ih =>
    intro state reply after hrecalls hrun
    obtain ⟨hafter, hreply⟩ := evaluates_of_value hempty hrecalls hrun
    refine ⟨hafter, ?_⟩
    cases levels with
    | zero =>
      cases hrun
      exact (Frame.Raises.refl _ _ _).visit hreply
    | succ levels =>
      rw [value_succ] at hrun
      obtain ⟨⟨outcome, mid⟩, hinner, heq⟩ := Option.bind_eq_some_iff.mp hrun
      cases heq
      refine Frame.Raises.visit ?_ hreply
      cases hlookup : state.1.values.lookup r with
      | some data =>
        cases (remember_of_some hlookup).symm.trans hinner
        exact .refl _ _ _
      | none =>
        rw [remember_of_none hlookup] at hinner
        have hreplies := raising_replies hempty (y := fun _ _ => y ())
          (fun frame r => ih levels (by omega) frame r)
          (fun frame r => ih (levels - 1) (by omega) frame r) frame
        rcases eq_some_of_bind hinner with ⟨e, rfl, hchunk⟩ | ⟨data, last, hchunk, hkeep⟩
        · exact (hreplies.rel_chunk frame r _ _ _ hrecalls hchunk).2
        · cases hkeep
          exact (hreplies.rel_chunk frame r _ _ _ hrecalls hchunk).2

end Traced

namespace Setting

variable {s : Setting σ} {frame : Frame}

private theorem runs_raise (hempty : s.registry = .empty) {rs : List Ref}
    {progress after : Progress σ} {runs : List Run} (hrecalls : frame.Recalls progress.values)
    (hruns : s.runs frame rs progress = some (runs, after)) :
    ∀ run ∈ runs, frame.Raises [] run.outcome run.visits ∧
      ∀ data, run.outcome = .ok data → frame.Evaluates run.r (.ok data) := by
  induction rs generalizing progress runs with
  | nil =>
    cases hruns
    exact nofun
  | cons r rest ih =>
    obtain ⟨⟨outcome, mid, visits⟩, hfirst, hruns⟩ := Option.bind_eq_some_iff.mp hruns
    obtain ⟨⟨others, last⟩, hothers, heq⟩ := Option.bind_eq_some_iff.mp hruns
    cases heq
    obtain ⟨hmid, hreply⟩ := Traced.evaluates_of_value hempty hrecalls hfirst
    have hraises := (Traced.raising_value hempty _ frame r (fun _ => throw (.invalidReference r))
      _ _ _ hrecalls hfirst).2
    exact List.forall_mem_cons.mpr ⟨⟨hraises, hreply⟩, ih hmid hothers⟩

/-- Whatever goes amiss with a chunk in a run, the run is amiss, but for data that stands for a
failure and is not heeded. -/
private theorem run_surfaces {run : Run} (hraises : frame.Raises [] run.outcome run.visits)
    (hrun : ∀ data, run.outcome = .ok data → frame.Evaluates run.r (.ok data)) {v : Visit}
    (hv : v ∈ run.visits) (hamiss : Amiss v.outcome) :
    Amiss run.outcome ∨ (∃ data, v.outcome = .ok data) ∧ v.frame = frame ∧
      ¬Relation.ReflTransGen frame.code.Heeds run.r v.r := by
  obtain ⟨made, hmade, hfaithful, hfails⟩ := hraises
  rw [List.append_nil] at hmade
  subst hmade
  cases houtcome : v.outcome with
  | error e =>
    obtain ⟨e, he⟩ := hfails ⟨v, hv, e, houtcome⟩
    rw [he]
    exact .inl (amiss_error e)
  | ok data =>
    have hvalue := (hfaithful v hv).evaluates data houtcome
    rw [houtcome] at hamiss
    have hframe : v.frame = frame := by
      apply (hfaithful v hv).frame.resolve_right
      intro hfaultless
      have hnone := hfaultless.evaluates hvalue
      simp [amiss_ok, hnone] at hamiss
    rw [hframe] at hvalue
    by_cases hpath : Relation.ReflTransGen frame.code.Heeds run.r v.r
    · left
      intro found hfound
      exact amiss_ok.mp ((hrun found hfound).amiss hpath hvalue hamiss)
    · exact .inr ⟨⟨data, rfl⟩, hframe, hpath⟩

/-- Where there are no resources, whatever goes amiss with a chunk in the run of an entry point is
an error of its answer, but for data that stands for a failure and is not heeded: it is that of a
chunk of the code itself, and the entry point has no path to it along receivers and references. -/
theorem errors_surface (hempty : s.registry = .empty) (code : Code) (props : Dict Data)
    (session : Session σ) :
    ∃ runs progress answers,
      s.runs ⟨code, props⟩ code.entrypoints ⟨[], session⟩ = some (runs, progress) ∧
      s.execute code props session = some (answers, session) ∧
      (∀ r ∈ code.entrypoints, ∃ run ∈ runs, run.r = r ∧
        answers.lookup r = some (run.answer code)) ∧
      ∀ run ∈ runs, ∀ v ∈ run.visits, Amiss v.outcome →
        (run.answer code).error.isSome ∨
          (∃ data, v.outcome = .ok data) ∧ v.frame = ⟨code, props⟩ ∧
            ¬Relation.ReflTransGen code.Heeds run.r v.r := by
  obtain ⟨answers, hexecute, _⟩ := execute_ends hempty code props session
  obtain ⟨runs, progress, hruns, hanswers⟩ := exists_runs hexecute
  refine ⟨runs, progress, answers, hruns, hexecute, hanswers, ?_⟩
  intro run hrun v hv hamiss
  obtain ⟨hraises, hreply⟩ := runs_raise hempty (Frame.recalls_nil _) hruns run hrun
  exact (run_surfaces hraises hreply hv hamiss).imp_left (error_answerOf code run.r)

/-- A property and a constant, one of which is compared with the other. -/
def comparedCode (receiver argument : Ref) : Code :=
  { Code.empty with
    chunks := [.property "p" .int, .ofPrimitive (.int 1),
      .call "==" .bool receiver [.ref argument]]
    entrypoints := [3] }

def failedProps : Dict Data := Dict.empty.insert "p" (.failed .int "boom")

/-- The property is the receiver, and the comparison fails with it. -/
theorem errors_surface_comparedCode :
    bareSetting.registry = .empty ∧
      ∃ answers answer,
        bareSetting.execute (comparedCode 1 2) failedProps (.new ()) = some (answers, .new ()) ∧
        answers.lookup 3 = some answer ∧ answer.error.isSome := by
  obtain ⟨runs, progress, answers, hruns, hexecute, hanswers, hsurface⟩ :=
    errors_surface (s := bareSetting) rfl (comparedCode 1 2) failedProps (.new ())
  let failure : Visit := ⟨⟨comparedCode 1 2, failedProps⟩, 1, .ok (.failed .int "boom")⟩
  have hvisits : ∀ run ∈ runs, run.r = 3 ∧ failure ∈ run.visits := by
    cases hruns
    exact List.forall_mem_singleton.mpr ⟨rfl, List.mem_cons_of_mem _ List.mem_cons_self⟩
  obtain ⟨run, hrun, _, hanswer⟩ := hanswers 3 (by decide)
  obtain ⟨hr, hvisit⟩ := hvisits run hrun
  have hheeds : (comparedCode 1 2).Heeds 3 1 := .receiver rfl rfl rfl (by decide)
  refine ⟨rfl, answers, _, hexecute, hanswer, ?_⟩
  rcases hsurface run hrun failure hvisit (amiss_ok.mpr rfl) with h | ⟨_, _, h⟩
  · exact h
  · exact absurd (hr ▸ .single hheeds) h

/-- The property is the argument. Its value, which is none, is compared, and the comparison does not
hold; the answer has no error. -/
theorem unheeded_comparedCode :
    bareSetting.registry = .empty ∧
      ∃ run progress answers answer,
        bareSetting.runs ⟨comparedCode 2 1, failedProps⟩ [3] ⟨[], .new ()⟩ =
          some ([run], progress) ∧
        (∃ v ∈ run.visits, v.r = 1 ∧ Amiss v.outcome) ∧
        bareSetting.execute (comparedCode 2 1) failedProps (.new ()) = some (answers, .new ()) ∧
        answers.lookup 3 = some answer ∧ answer.error = none := by
  let failure : Visit := ⟨⟨comparedCode 2 1, failedProps⟩, 1, .ok (.failed .int "boom")⟩
  refine ⟨rfl, _, _, _, _, rfl, ⟨failure, ?_, rfl, amiss_ok.mpr rfl⟩, rfl, rfl, rfl⟩
  exact List.mem_cons_of_mem _ List.mem_cons_self

end Setting

end AssetQuery
