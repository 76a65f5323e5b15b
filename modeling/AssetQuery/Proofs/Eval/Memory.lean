import AssetQuery.Proofs.Eval.Execution
import AssetQuery.Proofs.Eval.Plain

/-!
# Memory and the limit to depth

Where there are no resources, execution differs from plain evaluation only by giving up at the limit
to depth. The invariant is that what is remembered of a code are values that its chunks evaluate to.
It is kept also by evaluations that fail, and each run of a block has a memory of its own.
-/

namespace AssetQuery

open Eval (Simulation)

variable {σ α β : Type}

namespace Plain

/-- Whether recursions, one for each depth, come to some end from some depth on. -/
def Settles (y : Nat → Plain α) (o : Except EvalError α) : Prop :=
  ∃ least, ∀ depth, least ≤ depth → (y depth).run = some o

theorem Settles.const {x : Plain α} {o : Except EvalError α} (h : x.run = some o) :
    Settles (fun _ => x) o := ⟨0, fun _ _ => h⟩

private theorem Settles.bind_ok {y : Nat → Plain α} {g : Nat → α → Plain β} {a : α}
    {o : Except EvalError β} (hy : Settles y (.ok a)) (hg : Settles (fun depth => g depth a) o) :
    Settles (fun depth => y depth >>= g depth) o := by
  obtain ⟨n, hn⟩ := hy
  obtain ⟨m, hm⟩ := hg
  refine ⟨max n m, fun depth hd => run_bind_eq_some.mpr (.inl ⟨a, ?_, ?_⟩)⟩
  · exact hn depth (by omega)
  · exact hm depth (by omega)

private theorem Settles.bind_error {y : Nat → Plain α} {g : Nat → α → Plain β} {e : EvalError}
    (hy : Settles y (.error e)) : Settles (fun depth => y depth >>= g depth) (.error e) := by
  obtain ⟨n, hn⟩ := hy
  exact ⟨n, fun depth hd => run_bind_eq_some.mpr (.inr ⟨e, hn depth hd, rfl⟩)⟩

end Plain

/-- What is remembered of a code are values that its chunks evaluate to. -/
def Frame.Recalls (frame : Frame) (values : List (Ref × Data)) : Prop :=
  ∀ r data, values.lookup r = some data →
    Plain.Settles (fun depth => Plain.value .empty depth frame r) (.ok data)

theorem Frame.recalls_nil (frame : Frame) : frame.Recalls [] := fun _ _ h => by cases h

theorem Frame.Recalls.cons {frame : Frame} {values : List (Ref × Data)} (h : frame.Recalls values)
    {r : Ref} {data : Data}
    (hr : Plain.Settles (fun depth => Plain.value .empty depth frame r) (.ok data)) :
    frame.Recalls ((r, data) :: values) := by
  intro q found hq
  rw [List.lookup_cons] at hq
  split at hq
  · next heq =>
    cases hq
    rw [eq_of_beq heq]
    exact hr
  · exact h q found hq

namespace Execution

/-- Execution keeps to plain evaluation: it gives up at the limit to depth, or its outcome is that
of the recursion. Either way what is remembered stays right and the session is as it was. -/
def settling (s : Setting σ) (frame : Frame) :
    Simulation (StateT (Progress σ) Option) Option Nat where
  Rel x y := ∀ progress : Progress σ, frame.Recalls progress.values →
    ∃ reply after, x progress = some (reply, after) ∧ frame.Recalls after.values ∧
      after.session = progress.session ∧
      (reply = .error (.depthExceeded s.config.maxDepth) ∨ Plain.Settles y reply)
  rel_pure a progress h := ⟨.ok a, progress, rfl, h, rfl, .inr (.const rfl)⟩
  rel_throw e progress h := ⟨.error e, progress, rfl, h, rfl, .inr (.const rfl)⟩
  rel_bind {α β x y f g} hx hf progress h := by
    obtain ⟨reply, after, hrun, hafter, hsession, hreply⟩ := hx progress h
    cases reply with
    | error e =>
      refine ⟨.error e, after, bind_error hrun, hafter, hsession, ?_⟩
      rcases hreply with he | hsettles
      · exact .inl (by cases he; rfl)
      · exact .inr hsettles.bind_error
    | ok a =>
      have hsettles := hreply.resolve_left (by simp)
      obtain ⟨reply, last, hlast, hrecalls, hsame, hreply⟩ := hf a after hafter
      refine ⟨reply, last, ?_, hrecalls, hsame.trans hsession, ?_⟩
      · rw [bind_ok hrun, hlast]
      · exact hreply.imp id hsettles.bind_ok

private theorem settling_depthExceeded (s : Setting σ) (frame : Frame) (y : Nat → Plain α) :
    (settling s frame).Rel (throw (.depthExceeded s.config.maxDepth)) y :=
  fun progress h => ⟨.error _, progress, rfl, h, rfl, .inl rfl⟩

private theorem settling_isolated {s : Setting σ} {frame inner : Frame} {x : Execution σ α}
    {y : Nat → Plain α} (h : (settling s inner).Rel x y) :
    (settling s frame).Rel (isolated x) y := by
  intro progress hprogress
  obtain ⟨reply, after, hrun, _, hsession, hreply⟩ :=
    h { progress with values := [] } inner.recalls_nil
  refine ⟨reply, { after with values := progress.values }, ?_, hprogress, hsession, hreply⟩
  show (x { progress with values := [] }).bind _ = _
  rw [hrun]
  rfl

theorem create_of_empty {s : Setting σ} (hempty : s.registry = .empty) (name : String)
    (args : Dict Data) (progress : Progress σ) :
    create s name args progress = some (.error (.resource (.unknownResource name)), progress) := by
  have hcreate : s.create name args progress.session =
      some (.error (.unknownResource name), progress.session) := by
    show s.createStep (s.calls s.nesting) name args progress.session = _
    have hnone : s.registry.resource? name = none := by rw [hempty]; rfl
    simp only [Setting.createStep, hnone]
    rfl
  apply bind_error
  show (s.create name args progress.session).bind _ = _
  rw [hcreate]
  rfl

theorem settling_replies {s : Setting σ} (hempty : s.registry = .empty)
    {x target : Frame → Ref → Execution σ Data}
    (hx : ∀ frame r, (settling s frame).Rel (x frame r) fun depth =>
      Plain.value .empty depth frame r)
    (htarget : ∀ frame r, (settling s frame).Rel (target frame r) fun depth =>
      Plain.value .empty depth frame r) (frame : Frame) :
    (settling s frame).Replies (requests s frame x target) fun depth =>
      Plain.requests .empty frame (Plain.value .empty depth) where
  chunk := hx frame
  target := htarget frame
  block r element _ :=
    Simulation.rel_row_within (S := settling s) (fun _ _ _ => settling_isolated) hx r element
  declares _ := (declares_of_empty hempty).symm
  create name args progress h :=
    ⟨_, progress, create_of_empty hempty name args progress, h, rfl, .inr (.const rfl)⟩
  read resource name id field hdeclares := by
    cases hdeclares.symm.trans (congrFun (congrFun (declares_of_empty hempty) resource) field)

private theorem settling_remember {s : Setting σ} {frame : Frame} {r : Ref} {x : Execution σ Data}
    (h : (settling s frame).Rel x fun depth => Plain.value .empty (depth + 1) frame r) :
    (settling s frame).Rel (remember r x) fun depth => Plain.value .empty depth frame r := by
  intro progress hprogress
  cases hlookup : progress.values.lookup r with
  | some data =>
    exact ⟨.ok data, progress, remember_of_some hlookup, hprogress, rfl,
      .inr (hprogress r data hlookup)⟩
  | none =>
    rw [remember_of_none hlookup]
    obtain ⟨reply, after, hrun, hafter, hsession, hreply⟩ := h progress hprogress
    -- from some depth on it makes no difference to look one step further
    have hshift {o : Except EvalError Data}
        (ho : Plain.Settles (fun depth => Plain.value .empty (depth + 1) frame r) o) :
        Plain.Settles (fun depth => Plain.value .empty depth frame r) o := by
      obtain ⟨least, hleast⟩ := ho
      refine ⟨least + 1, fun depth hd => ?_⟩
      obtain ⟨depth, rfl⟩ : ∃ k, depth = k + 1 := ⟨depth - 1, by omega⟩
      exact hleast depth (by omega)
    cases reply with
    | error e => exact ⟨.error e, after, bind_error hrun, hafter, hsession, hreply.imp id hshift⟩
    | ok data =>
      have hsettles := hshift (hreply.resolve_left (by simp))
      refine ⟨.ok data, { after with values := (r, data) :: after.values }, ?_,
        hafter.cons hsettles, hsession, .inr hsettles⟩
      rw [bind_ok hrun]
      rfl

theorem settling_value {s : Setting σ} (hempty : s.registry = .empty) (levels : Nat)
    (frame : Frame) (r : Ref) :
    (settling s frame).Rel (value s levels frame r) fun depth =>
      Plain.value .empty depth frame r := by
  induction levels using Nat.strongRecOn generalizing frame r with
  | _ levels ih =>
    cases levels with
    | zero => exact settling_depthExceeded s frame _
    | succ levels =>
      rw [value_succ]
      apply settling_remember
      have hreplies := settling_replies hempty (ih levels (by omega)) (ih (levels - 1) (by omega))
      exact (hreplies frame).rel_chunk frame r

end Execution

namespace Setting

/-- Where there are no resources, execution comes to an end and leaves the session as it is, and an
entry point is given up or answered by the outcome of the recursion. -/
theorem execute_ends {s : Setting σ} (hempty : s.registry = .empty) (code : Code)
    (props : Dict Data) (session : Session σ) :
    ∃ answers, s.execute code props session = some (answers, session) ∧
      ∀ r ∈ code.entrypoints, ∃ reply, answers.lookup r = some (answerOf code r reply) ∧
        (reply = .error (.depthExceeded s.config.maxDepth) ∨
          (Frame.mk code props).Evaluates r reply) := by
  obtain ⟨answers, after, hrun, ⟨_, hsession⟩, hall⟩ := execute_run
    (fun progress : Progress σ => (Frame.mk code props).Recalls progress.values ∧
      progress.session = session)
    (fun r reply => reply = .error (.depthExceeded s.config.maxDepth) ∨
      (Frame.mk code props).Evaluates r reply)
    (fun r _ progress hprogress => by
      obtain ⟨reply, after, hvalue, hafter, hsame, hreply⟩ :=
        Execution.settling_value hempty _ _ r progress hprogress.1
      refine ⟨reply, after, hvalue, ⟨hafter, hsame.trans hprogress.2⟩, hreply.imp id ?_⟩
      rintro ⟨least, hleast⟩
      exact ⟨least, hleast least (Nat.le_refl _)⟩)
    session ⟨Frame.recalls_nil _, rfl⟩
  refine ⟨answers, by rw [hrun, hsession], fun r hr => ?_⟩
  obtain ⟨reply, hreply, hlookup⟩ := hall r hr
  exact ⟨reply, hlookup, hreply⟩

private theorem execute_single_ends {s : Setting σ} (hempty : s.registry = .empty) (code : Code)
    (props : Dict Data) (session : Session σ) (r : Ref) :
    ∃ reply, s.execute { code with entrypoints := [r] } props session =
        some ([(r, answerOf code r reply)], session) ∧
      (reply = .error (.depthExceeded s.config.maxDepth) ∨
        (Frame.mk code props).Evaluates r reply) := by
  obtain ⟨reply, after, hvalue, -, hsame, hreply⟩ := Execution.settling_value hempty
    (s.config.maxDepth + 1) _ r ⟨[], session⟩ (Frame.recalls_nil ⟨code, props⟩)
  have hsession : after.session = session := hsame
  refine ⟨reply, by rw [execute_single s hvalue, hsession], hreply.imp id ?_⟩
  rintro ⟨least, hleast⟩
  exact ⟨least, hleast least (Nat.le_refl _)⟩

/-- Where there are no resources, execution comes to an end and leaves the session as it is. An
entry point from which plain evaluation comes to an outcome is answered by that, or by giving up at
the limit to depth; one from which it goes on for ever is given up. So other entry points, failed
ones among them, make of an answer nothing but what it would be alone, giving up, or the outcome of
plain evaluation in place of giving up. -/
theorem execute_settles {s : Setting σ} (hempty : s.registry = .empty) (code : Code)
    (props : Dict Data) (session : Session σ) :
    ∃ answers, s.execute code props session = some (answers, session) ∧
      ∀ r ∈ code.entrypoints,
        (∀ outcome, (Frame.mk code props).Evaluates r outcome →
          answers.lookup r = some (answerOf code r outcome) ∨
          answers.lookup r =
            some (answerOf code r (.error (.depthExceeded s.config.maxDepth)))) ∧
        ((¬∃ outcome, (Frame.mk code props).Evaluates r outcome) →
          answers.lookup r =
            some (answerOf code r (.error (.depthExceeded s.config.maxDepth)))) ∧
        ∃ alone, s.execute { code with entrypoints := [r] } props session =
            some (alone, session) ∧
          (answers.lookup r = alone.lookup r ∨
            answers.lookup r =
              some (answerOf code r (.error (.depthExceeded s.config.maxDepth))) ∨
            alone.lookup r =
                some (answerOf code r (.error (.depthExceeded s.config.maxDepth))) ∧
              ∃ outcome, (Frame.mk code props).Evaluates r outcome ∧
                answers.lookup r = some (answerOf code r outcome)) := by
  obtain ⟨answers, hrun, hall⟩ := execute_ends hempty code props session
  refine ⟨answers, hrun, fun r hr => ?_⟩
  obtain ⟨reply, hlookup, hreply⟩ := hall r hr
  obtain ⟨single, halone, hsingle⟩ := execute_single_ends hempty code props session r
  refine ⟨fun outcome houtcome => ?_, fun hnone => ?_, _, halone, ?_⟩
  · rcases hreply with rfl | hreply
    · exact .inr hlookup
    · rw [houtcome.unique hreply]
      exact .inl hlookup
  · rcases hreply with rfl | hreply
    · exact hlookup
    · exact absurd ⟨reply, hreply⟩ hnone
  · rw [hlookup, List.lookup_cons_self]
    rcases hreply with rfl | hreply
    · exact .inr (.inl rfl)
    · rcases hsingle with rfl | hsingle
      · exact .inr (.inr ⟨rfl, reply, hreply, rfl⟩)
      · rw [hsingle.unique hreply]
        exact .inl rfl

/-- Two chunks that refer to each other, and a constant. -/
def circleCode : Code :=
  { Code.empty with
    chunks := [.ofPrimitive (.ref 2), .ofPrimitive (.ref 1), .ofPrimitive (.bool true)]
    entrypoints := [1, 3] }

private theorem value_circleCode (depth : Nat) :
    (Plain.value .empty depth ⟨circleCode, .empty⟩ 1).run = none ∧
      (Plain.value .empty depth ⟨circleCode, .empty⟩ 2).run = none := by
  induction depth with
  | zero => exact ⟨rfl, rfl⟩
  | succ depth ih => exact ⟨ih.2, ih.1⟩

/-- The circle is given up, and the constant after it is answered all the same. -/
theorem execute_circleCode :
    bareSetting.registry = .empty ∧
      ∃ answers, bareSetting.execute circleCode .empty (.new ()) = some (answers, .new ()) ∧
        answers.lookup 1 = some (answerOf circleCode 1 (.error (.depthExceeded 1024))) ∧
        (answers.lookup 3 = some (answerOf circleCode 3 (.ok (.bool true))) ∨
          answers.lookup 3 = some (answerOf circleCode 3 (.error (.depthExceeded 1024)))) := by
  refine ⟨rfl, ?_⟩
  obtain ⟨answers, hrun, hall⟩ := execute_settles (s := bareSetting) rfl circleCode .empty (.new ())
  refine ⟨answers, hrun, (hall 1 (by decide)).2.1 ?_, (hall 3 (by decide)).1 _ ⟨1, rfl⟩⟩
  rintro ⟨outcome, depth, houtcome⟩
  rw [(value_circleCode depth).1] at houtcome
  cases houtcome

/-- A constant, two calls one upon the other, and one of a function that there is not. -/
def failingCode : Code :=
  { Code.empty with
    chunks := [.ofPrimitive (.bool true), .call "&&" .bool 1 [.bool true],
      .call "&&" .bool 2 [.bool true], .call "&&" .bool 3 [.bool true], .call "foo" .bool 2 []]
    entrypoints := [5, 4] }

/-- Chunk 4 is too deep to be evaluated by itself. After chunk 5, which fails, it is not, for the
value of what chunk 5 is called on is remembered. -/
theorem execute_failingCode :
    let s := { bareSetting with config := { Config.default with maxDepth := 2 } }
    let giveUp := EvalError.depthExceeded 2
    s.registry = .empty ∧
      ∃ answers alone, s.execute failingCode .empty (.new ()) = some (answers, .new ()) ∧
        s.execute { failingCode with entrypoints := [4] } .empty (.new ()) =
          some (alone, .new ()) ∧
        answers.lookup 5 =
          some (answerOf failingCode 5 (.error (.unknownFunction "foo" .bool))) ∧
        alone.lookup 4 = some (answerOf failingCode 4 (.error giveUp)) ∧
        answers.lookup 4 = some (answerOf failingCode 4 (.ok (.bool true))) ∧
        answers.lookup 4 ≠ alone.lookup 4 ∧
        answers.lookup 4 ≠ some (answerOf failingCode 4 (.error giveUp)) := by
  have hvalue : some (answerOf failingCode 4 (.ok (.bool true))) ≠
      some (answerOf failingCode 4 (.error (.depthExceeded 2))) := by
    intro h
    have herror : some none = some (some "execution exceeded the maximum depth of 2") :=
      congrArg (Option.map Answer.error) h
    cases herror
  exact ⟨rfl, _, _, rfl, rfl, rfl, rfl, rfl, hvalue, hvalue⟩

end Setting

end AssetQuery
