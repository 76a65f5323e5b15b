import AssetQuery.Proofs.Eval.Memory

/-!
# Entry points side by side

The entry points of a code share what is remembered of its chunks. Where there are no resources,
that can only help: an entry point is answered as it would be by itself, unless by itself it is
given up at the limit to depth. Behind this is that memory is closed. If the value of a chunk is
remembered then so is that of every chunk which it was made from.
-/

namespace AssetQuery

open Eval (Simulation)

variable {σ α β : Type}

/-- Whether all values of a memory are there in another one. -/
def Retains (more values : List (Ref × Data)) : Prop :=
  ∀ r data, values.lookup r = some data → more.lookup r = some data

namespace Retains

variable {most more values : List (Ref × Data)} {r : Ref} {data : Data}

theorem refl (values : List (Ref × Data)) : Retains values values := fun _ _ h => h

private theorem nil (more : List (Ref × Data)) : Retains more [] := fun _ _ h => by cases h

theorem trans (h : Retains most more) (h' : Retains more values) : Retains most values :=
  fun r data hlookup => h r data (h' r data hlookup)

private theorem cons (h : Retains more values) (hr : more.lookup r = some data) :
    Retains more ((r, data) :: values) := by
  intro q found hq
  rw [List.lookup_cons] at hq
  split at hq
  · next heq =>
    cases hq
    rwa [eq_of_beq heq]
  · exact h q found hq

theorem cons_self (h : ∀ found, values.lookup r = some found → found = data) :
    Retains ((r, data) :: values) values := by
  intro q found hq
  by_cases heq : q = r
  · subst heq
    rw [List.lookup_cons_self, h found hq]
  · rwa [List.lookup_cons, beq_false_of_ne heq]

private theorem cons_cons (h : Retains more values) :
    Retains ((r, data) :: more) ((r, data) :: values) := by
  intro q found hq
  rw [List.lookup_cons] at hq ⊢
  split at hq
  · exact hq
  · exact h q found hq

end Retains

namespace Plain

/-- What the evaluation of a chunk asks for, where the values of other chunks are those that are
remembered. -/
def recalled (frame : Frame) (values : List (Ref × Data)) (depth : Nat) : Requests Option where
  chunk r := ExceptT.mk ((values.lookup r).map .ok)
  target r := ExceptT.mk ((values.lookup r).map .ok)
  block := Eval.row (value .empty depth) frame
  declares := Outside.empty.declares
  create := Outside.empty.create
  read := Outside.empty.read

private theorem row_mono {depth depth' : Nat} (hle : depth ≤ depth') {frame : Frame} {r : Ref}
    {element : Data} {o : Except EvalError Row}
    (h : (Eval.row (value .empty depth) frame r element).run = some o) :
    (Eval.row (value .empty depth') frame r element).run = some o := by
  have hrow : extension.Rel (Eval.row (value .empty depth) frame r element) fun _ =>
      Eval.row (value .empty depth') frame r element :=
    Simulation.rel_row frame r element fun _ _ _ _ ho => value_mono hle ho
  exact hrow o h

private theorem Settles.row_eq {frame : Frame} {r : Ref} {element : Data}
    {o o' : Except EvalError Row}
    (h : Settles (fun depth => Eval.row (value .empty depth) frame r element) o) {depth : Nat}
    (h' : (Eval.row (value .empty depth) frame r element).run = some o') : o = o' := by
  obtain ⟨least, hleast⟩ := h
  have hmax := hleast (max least depth) (Nat.le_max_left _ _)
  rw [row_mono (Nat.le_max_right least depth) h'] at hmax
  exact (Option.some.inj hmax).symm

private theorem chunk_mono {more values : List (Ref × Data)} (h : Retains more values)
    (frame : Frame) {depth : Nat} {r : Ref} {o : Except EvalError Data}
    (hrun : (Eval.chunk (recalled frame values depth) frame r).run = some o) :
    (Eval.chunk (recalled frame more depth) frame r).run = some o := by
  have hlookup (r : Ref) : extension.Rel (ExceptT.mk ((values.lookup r).map .ok))
      fun _ => ExceptT.mk ((more.lookup r).map .ok) := by
    intro o ho
    obtain ⟨data, hdata, rfl⟩ := Option.map_eq_some_iff.mp ho
    exact Option.map_eq_some_iff.mpr ⟨data, h r data hdata, rfl⟩
  have hreplies : extension.Replies (recalled frame values depth) fun _ =>
      recalled frame more depth :=
    { chunk := hlookup
      target := hlookup
      block := fun _ _ _ _ ho => ho
      declares := fun _ => rfl
      create := fun _ _ _ ho => ho
      read := fun _ _ _ _ _ _ ho => ho }
  exact hreplies.rel_chunk frame r o hrun

end Plain

/-- What is remembered of a code are values that its chunks evaluate to, and each can be worked out
from the others. -/
structure Frame.Settled (frame : Frame) (values : List (Ref × Data)) : Prop where
  recalls : frame.Recalls values
  closed : ∀ r data, values.lookup r = some data →
    ∃ depth, (Eval.chunk (Plain.recalled frame values depth) frame r).run = some (.ok data)

namespace Frame

variable {frame : Frame} {more values : List (Ref × Data)}

private theorem settled_nil (frame : Frame) : frame.Settled [] :=
  ⟨frame.recalls_nil, fun _ _ h => by cases h⟩

theorem Recalls.of_retains (h : frame.Recalls more) (hmore : Retains more values) :
    frame.Recalls values := fun r data hlookup => h r data (hmore r data hlookup)

theorem Recalls.unique (h : frame.Recalls values) {r : Ref} {data found : Data}
    (hdata : Plain.Settles (fun depth => Plain.value .empty depth frame r) (.ok data))
    (hfound : values.lookup r = some found) : found = data := by
  obtain ⟨least, hleast⟩ := h r found hfound
  obtain ⟨least', hleast'⟩ := hdata
  have hunique := Evaluates.unique ⟨least, hleast least (Nat.le_refl _)⟩
    ⟨least', hleast' least' (Nat.le_refl _)⟩
  cases hunique
  rfl

private theorem Settled.cons {r : Ref} {data : Data} (h : frame.Settled values)
    (hdata : Plain.Settles (fun depth => Plain.value .empty depth frame r) (.ok data)) {depth : Nat}
    (hrun : (Eval.chunk (Plain.recalled frame ((r, data) :: values) depth) frame r).run =
      some (.ok data)) : frame.Settled ((r, data) :: values) := by
  refine ⟨h.recalls.cons hdata, fun q found hq => ?_⟩
  rw [List.lookup_cons] at hq
  split at hq
  · next heq =>
    cases hq
    rw [eq_of_beq heq]
    exact ⟨depth, hrun⟩
  · obtain ⟨depth', hrun'⟩ := h.closed q found hq
    exact ⟨depth', Plain.chunk_mono (.cons_self fun _ => h.recalls.unique hdata) frame hrun'⟩

end Frame

namespace Execution

variable {s : Setting σ} {frame : Frame}

theorem isolated_values {x : Execution σ α} {progress after : Progress σ}
    {reply : Except EvalError α} (h : isolated x progress = some (reply, after)) :
    after.values = progress.values := by
  obtain ⟨⟨_, last⟩, _, heq⟩ := Option.bind_eq_some_iff.mp h
  cases heq
  rfl

/-- Execution records what it works out: memory stays closed and only grows, and a value that is
come to can be worked out again from memory, also when that has grown further. -/
def recording (σ : Type) (frame : Frame) :
    Simulation (StateT (Progress σ) Option) Option (List (Ref × Data) × Nat) where
  Rel {α} x y := ∀ progress : Progress σ, frame.Settled progress.values →
    ∃ reply after, x progress = some (reply, after) ∧ frame.Settled after.values ∧
      Retains after.values progress.values ∧
      ∀ a : α, reply = .ok a → ∃ least, ∀ more, Retains more after.values →
        ∀ depth, least ≤ depth → (y (more, depth)).run = some (.ok a)
  rel_pure a progress h := by
    refine ⟨.ok a, progress, rfl, h, .refl _, ?_⟩
    rintro a ⟨⟩
    exact ⟨0, fun _ _ _ _ => rfl⟩
  rel_throw e progress h := ⟨.error e, progress, rfl, h, .refl _, fun _ h => by cases h⟩
  rel_bind {α β x y f g} hx hf progress h := by
    obtain ⟨reply, after, hrun, hafter, hretains, hreply⟩ := hx progress h
    cases reply with
    | error e => exact ⟨.error e, after, bind_error hrun, hafter, hretains, fun _ h => by cases h⟩
    | ok a =>
      obtain ⟨reply', last, hrun', hlast, hretains', hreply'⟩ := hf a after hafter
      refine ⟨reply', last, (bind_ok hrun).trans hrun', hlast, hretains'.trans hretains, ?_⟩
      intro b hb
      obtain ⟨least, hleast⟩ := hreply a rfl
      obtain ⟨least', hleast'⟩ := hreply' b hb
      refine ⟨max least least', fun more hmore depth hd => ?_⟩
      have hy := hleast more (hmore.trans hretains') depth (by omega)
      have hg := hleast' more hmore depth (by omega)
      exact (Plain.run_bind_of_ok hy).trans hg

/-- A chunk is answered from memory once its value has been worked out. -/
def Records (frame : Frame) (r : Ref) (x : Execution σ Data) : Prop :=
  (recording σ frame).Rel x fun i => ExceptT.mk ((i.1.lookup r).map .ok)

private theorem recording_replies (hempty : s.registry = .empty) {levels fewer : Nat}
    (hx : ∀ r, Records frame r (value s levels frame r))
    (htarget : ∀ r, Records frame r (value s fewer frame r)) :
    (recording σ frame).Replies (requests s frame (value s levels) (value s fewer)) fun i =>
      Plain.recalled frame i.1 i.2 where
  chunk := hx
  target := htarget
  block r element herror progress h := by
    obtain ⟨reply, after, hrun, -, -, hreply⟩ := (settling_replies hempty
      (settling_value hempty levels) (settling_value hempty fewer) frame).block r element herror
        progress h.recalls
    have hvalues : after.values = progress.values := isolated_values hrun
    refine ⟨reply, after, hrun, hvalues ▸ h, hvalues ▸ .refl _, ?_⟩
    rintro row rfl
    obtain ⟨least, hleast⟩ := hreply.resolve_left (by simp)
    exact ⟨least, fun _ _ => hleast⟩
  declares _ := (declares_of_empty hempty).symm
  create name args progress h :=
    ⟨_, progress, create_of_empty hempty name args progress, h, .refl _, fun _ h => by cases h⟩
  read resource name id field hdeclares := by
    cases hdeclares.symm.trans (congrFun (congrFun (declares_of_empty hempty) resource) field)

theorem records_value (hempty : s.registry = .empty) (levels : Nat) (frame : Frame) (r : Ref) :
    Records frame r (value s levels frame r) := by
  induction levels using Nat.strongRecOn generalizing frame r with
  | _ levels ih =>
    cases levels with
    | zero =>
      exact fun progress h => ⟨.error _, progress, rfl, h, .refl _, fun _ h => by cases h⟩
    | succ levels =>
      intro progress h
      obtain ⟨reply, after, hrun, -, -, hreply⟩ :=
        settling_value hempty (levels + 1) frame r progress h.recalls
      rw [value_succ] at hrun ⊢
      cases hlookup : progress.values.lookup r with
      | some data =>
        refine ⟨.ok data, progress, remember_of_some hlookup, h, .refl _, ?_⟩
        rintro found ⟨⟩
        exact ⟨0, fun more hmore _ _ =>
          Option.map_eq_some_iff.mpr ⟨data, hmore r data hlookup, rfl⟩⟩
      | none =>
        obtain ⟨inner, mid, hinner, hmid, hretains, hworked⟩ :=
          (recording_replies hempty (ih levels (by omega) frame)
            (ih (levels - 1) (by omega) frame)).rel_chunk frame r progress h
        rw [remember_of_none hlookup] at hrun ⊢
        cases inner with
        | error e =>
          exact ⟨.error e, mid, bind_error hinner, hmid, hretains, fun _ h => by cases h⟩
        | ok data =>
          rw [bind_ok hinner] at hrun
          cases hrun
          have hsettles := hreply.resolve_left (by simp)
          have hgrown : Retains ((r, data) :: mid.values) mid.values :=
            .cons_self fun found hfound => hmid.recalls.unique hsettles hfound
          obtain ⟨least, hleast⟩ := hworked data rfl
          refine ⟨.ok data, _, bind_ok hinner,
            hmid.cons hsettles (hleast _ hgrown least (Nat.le_refl _)), hgrown.trans hretains, ?_⟩
          rintro found ⟨⟩
          exact ⟨0, fun more hmore _ _ =>
            Option.map_eq_some_iff.mpr ⟨data, hmore r data List.lookup_cons_self, rfl⟩⟩

/-- Execution keeps within a memory: what can be worked out from that, it comes to as well unless it
gives up at the limit to depth, and all that is then remembered was there. -/
def keeping (s : Setting σ) (memory : List (Ref × Data)) :
    Simulation (StateT (Progress σ) Option) Option Unit where
  Rel {α} x y := ∀ a : α, (y ()).run = some (.ok a) →
    ∀ progress : Progress σ, Retains memory progress.values →
      ∃ reply after, x progress = some (reply, after) ∧ Retains memory after.values ∧
        after.session = progress.session ∧
        (reply = .ok a ∨ reply = .error (.depthExceeded s.config.maxDepth))
  rel_pure a b hb progress h := by
    cases hb
    exact ⟨.ok a, progress, rfl, h, rfl, .inl rfl⟩
  rel_throw e b hb := by cases hb
  rel_bind {α β x y f g} hx hf b hb progress h := by
    rcases Plain.run_bind_eq_some.mp hb with ⟨a, ha, hfa⟩ | ⟨e, _, he⟩
    · obtain ⟨reply, after, hrun, hafter, hsession, rfl | rfl⟩ := hx a ha progress h
      · obtain ⟨reply, last, hrun', hlast, hsession', hreply⟩ := hf a b hfa after hafter
        exact ⟨reply, last, (bind_ok hrun).trans hrun', hlast, hsession'.trans hsession, hreply⟩
      · exact ⟨_, after, bind_error hrun, hafter, hsession, .inr rfl⟩
    · cases he

private theorem keeping_replies {memory : List (Ref × Data)} (hempty : s.registry = .empty)
    (hmemory : frame.Settled memory) {levels fewer : Nat}
    (hx : ∀ r, (keeping s memory).Rel (value s levels frame r) fun _ =>
      ExceptT.mk ((memory.lookup r).map .ok))
    (htarget : ∀ r, (keeping s memory).Rel (value s fewer frame r) fun _ =>
      ExceptT.mk ((memory.lookup r).map .ok)) (depth : Nat) :
    (keeping s memory).Replies (requests s frame (value s levels) (value s fewer)) fun _ =>
      Plain.recalled frame memory depth where
  chunk := hx
  target := htarget
  block r element herror row hrow progress h := by
    obtain ⟨reply, after, hrun, -, hsession, hreply⟩ := (settling_replies hempty
      (settling_value hempty levels) (settling_value hempty fewer) frame).block r element herror
        progress (hmemory.recalls.of_retains h)
    refine ⟨reply, after, hrun, isolated_values hrun ▸ h, hsession, ?_⟩
    exact hreply.symm.imp (fun hsettles => hsettles.row_eq hrow) id
  declares _ := (declares_of_empty hempty).symm
  create name args data hdata := by cases hdata
  read resource name id field hdeclares := by
    cases hdeclares.symm.trans (congrFun (congrFun (declares_of_empty hempty) resource) field)

private theorem keeping_value {memory : List (Ref × Data)} (hempty : s.registry = .empty)
    (hmemory : frame.Settled memory) (levels : Nat) (r : Ref) :
    (keeping s memory).Rel (value s levels frame r) fun _ =>
      ExceptT.mk ((memory.lookup r).map .ok) := by
  induction levels using Nat.strongRecOn generalizing r with
  | _ levels ih =>
    intro data hdata progress h
    obtain ⟨_, hmem, ⟨⟩⟩ := Option.map_eq_some_iff.mp hdata
    cases levels with
    | zero => exact ⟨.error _, progress, rfl, h, rfl, .inr rfl⟩
    | succ levels =>
      rw [value_succ]
      cases hlookup : progress.values.lookup r with
      | some found =>
        have hfound := h r found hlookup
        rw [hmem] at hfound
        cases hfound
        exact ⟨.ok data, progress, remember_of_some hlookup, h, rfl, .inl rfl⟩
      | none =>
        rw [remember_of_none hlookup]
        obtain ⟨depth, hdepth⟩ := hmemory.closed r data hmem
        obtain ⟨reply, after, hrun, hafter, hsession, rfl | rfl⟩ :=
          (keeping_replies hempty hmemory (ih levels (by omega)) (ih (levels - 1) (by omega))
            depth).rel_chunk frame r data hdepth progress h
        · exact ⟨.ok data, { after with values := (r, data) :: after.values }, bind_ok hrun,
            hafter.cons hmem, hsession, .inl rfl⟩
        · exact ⟨_, after, bind_error hrun, hafter, hsession, .inr rfl⟩

/-- Two executions side by side, of which the second remembers more: it replies as the first does,
and still remembers more, unless the first gives up at the limit to depth. -/
def helping (s : Setting σ) (frame : Frame) :
    Simulation (StateT (Progress σ) Option) (StateT (Progress σ) Option) Unit where
  Rel x y := ∀ before helped : Progress σ, before.session = helped.session →
    frame.Settled helped.values → Retains helped.values before.values →
      ∃ reply after, x before = some (reply, after) ∧
        (reply = .error (.depthExceeded s.config.maxDepth) ∨
          ∃ last, y () helped = some (reply, last) ∧ after.session = last.session ∧
            frame.Settled last.values ∧ Retains last.values after.values)
  rel_pure a before helped hsame h hmore :=
    ⟨.ok a, before, rfl, .inr ⟨helped, rfl, hsame, h, hmore⟩⟩
  rel_throw e before helped hsame h hmore :=
    ⟨.error e, before, rfl, .inr ⟨helped, rfl, hsame, h, hmore⟩⟩
  rel_bind {α β x y f g} hx hf before helped hsame h hmore := by
    obtain ⟨reply, after, hrun, rfl | ⟨last, hrun', hsame', h', hmore'⟩⟩ :=
      hx before helped hsame h hmore
    · exact ⟨_, after, bind_error hrun, .inl rfl⟩
    · cases reply with
      | error e =>
        exact ⟨.error e, after, bind_error hrun, .inr ⟨last, bind_error hrun', hsame', h', hmore'⟩⟩
      | ok a =>
        obtain ⟨reply, after', hrest, hreply⟩ := hf a after last hsame' h' hmore'
        refine ⟨reply, after', (bind_ok hrun).trans hrest, hreply.imp id ?_⟩
        rintro ⟨last', hrest', hlast'⟩
        exact ⟨last', (bind_ok hrun').trans hrest', hlast'⟩

private theorem helping_replies (hempty : s.registry = .empty) {levels fewer : Nat}
    (hx : ∀ r, (helping s frame).Rel (value s levels frame r) fun _ => value s levels frame r)
    (htarget : ∀ r, (helping s frame).Rel (value s fewer frame r) fun _ =>
      value s fewer frame r) :
    (helping s frame).Replies (requests s frame (value s levels) (value s fewer)) fun _ =>
      requests s frame (value s levels) (value s fewer) where
  chunk := hx
  target := htarget
  block r element herror before helped hsame h hmore := by
    obtain ⟨reply, after, hrun, -, hsession, -⟩ := (settling_replies hempty
      (settling_value hempty levels) (settling_value hempty fewer) frame).block r element herror
        before (h.recalls.of_retains hmore)
    refine ⟨reply, after, hrun, .inr ⟨{ after with values := helped.values }, ?_, rfl, h, ?_⟩⟩
    · -- the block itself starts without memory both times
      obtain ⟨⟨inner, mid⟩, hinner, heq⟩ := Option.bind_eq_some_iff.mp hrun
      cases heq
      refine Option.bind_eq_some_iff.mpr ⟨(reply, mid), ?_, rfl⟩
      rw [← hsame]
      exact hinner
    · rw [isolated_values hrun]
      exact hmore
  declares _ := rfl
  create name args before helped hsame h hmore :=
    ⟨_, before, create_of_empty hempty name args before,
      .inr ⟨helped, create_of_empty hempty name args helped, hsame, h, hmore⟩⟩
  read resource name id field hdeclares := by
    cases hdeclares.symm.trans (congrFun (congrFun (declares_of_empty hempty) resource) field)

private theorem helping_value (hempty : s.registry = .empty) (levels : Nat) (r : Ref) :
    (helping s frame).Rel (value s levels frame r) fun _ => value s levels frame r := by
  induction levels using Nat.strongRecOn generalizing r with
  | _ levels ih =>
    cases levels with
    | zero => exact fun before _ _ _ _ => ⟨.error _, before, rfl, .inl rfl⟩
    | succ levels =>
      intro before helped hsame h hmore
      obtain ⟨settled, last, hlast, hsettled, -⟩ :=
        records_value hempty (levels + 1) frame r helped h
      simp only [value_succ] at hlast ⊢
      cases hknown : helped.values.lookup r with
      | some data =>
        -- the first execution may have to work out what the second remembers
        obtain ⟨reply, after, hrun, hafter, hsession, hreply⟩ := keeping_value hempty h (levels + 1)
          r data (Option.map_eq_some_iff.mpr ⟨data, hknown, rfl⟩) before hmore
        rw [value_succ] at hrun
        refine ⟨reply, after, hrun, hreply.symm.imp id ?_⟩
        rintro rfl
        exact ⟨helped, remember_of_some hknown, hsession.trans hsame, h, hafter⟩
      | none =>
        have hunknown : before.values.lookup r = none := by
          cases hlookup : before.values.lookup r with
          | none => rfl
          | some data => cases hknown.symm.trans (hmore r data hlookup)
        rw [remember_of_none hknown] at hlast ⊢
        rw [remember_of_none hunknown]
        obtain ⟨reply, after, hrun, rfl | ⟨mid, hmid, hsame', h', hmore'⟩⟩ :=
          (helping_replies hempty (ih levels (by omega)) (ih (levels - 1) (by omega))).rel_chunk
            frame r before helped hsame h hmore
        · exact ⟨_, after, bind_error hrun, .inl rfl⟩
        · cases reply with
          | error e => exact ⟨.error e, after, bind_error hrun, .inr ⟨mid, bind_error hmid, hsame',
              h', hmore'⟩⟩
          | ok data =>
            rw [bind_ok hmid] at hlast
            cases hlast
            exact ⟨.ok data, { after with values := (r, data) :: after.values }, bind_ok hrun,
              .inr ⟨_, bind_ok hmid, hsame', hsettled, hmore'.cons_cons⟩⟩

end Execution

namespace Setting

/-- Where there are no resources, an entry point has the same answer as if it were the only one,
unless by itself it is given up at the limit to depth. In that case it is given up as well, or it
is answered by the outcome of the recursion, part of which others have been through. -/
theorem execute_alone {s : Setting σ} (hempty : s.registry = .empty) (code : Code)
    (props : Dict Data) (session : Session σ) :
    ∃ answers, s.execute code props session = some (answers, session) ∧
      ∀ r ∈ code.entrypoints,
        ∃ alone, s.execute { code with entrypoints := [r] } props session = some (alone, session) ∧
          (answers.lookup r = alone.lookup r ∨
            alone.lookup r =
              some (answerOf code r (.error (.depthExceeded s.config.maxDepth))) ∧
            ∃ outcome, (Frame.mk code props).Evaluates r outcome ∧
              answers.lookup r = some (answerOf code r outcome)) := by
  obtain ⟨answers, after, hrun, ⟨_, hsession⟩, hall⟩ := execute_run
    (fun progress : Progress σ => (Frame.mk code props).Settled progress.values ∧
      progress.session = session)
    (fun r reply => ∃ alone last,
      Execution.value s (s.config.maxDepth + 1) ⟨code, props⟩ r ⟨[], session⟩ =
        some (alone, last) ∧ last.session = session ∧
      (reply = alone ∨ alone = .error (.depthExceeded s.config.maxDepth) ∧
        (Frame.mk code props).Evaluates r reply))
    (fun r _ progress hprogress => by
      obtain ⟨reply, after, hvalue, hafter, -⟩ :=
        Execution.records_value hempty (s.config.maxDepth + 1) _ r progress hprogress.1
      obtain ⟨_, _, hsettling, -, hsame, hreply⟩ :=
        Execution.settling_value hempty (s.config.maxDepth + 1) _ r progress hprogress.1.recalls
      cases hvalue.symm.trans hsettling
      obtain ⟨alone, last, halone, hhelped⟩ := Execution.helping_value hempty
        (s.config.maxDepth + 1) r ⟨[], session⟩ progress hprogress.2.symm hprogress.1 (.nil _)
      obtain ⟨_, _, hsettling, -, hlast, -⟩ := Execution.settling_value hempty
        (s.config.maxDepth + 1) _ r ⟨[], session⟩ (Frame.recalls_nil _)
      cases halone.symm.trans hsettling
      refine ⟨reply, after, hvalue, ⟨hafter, hsame.trans hprogress.2⟩, alone, last, halone, hlast,
        ?_⟩
      rcases hhelped with rfl | ⟨_, hhelped, -⟩
      · rcases hreply with rfl | ⟨least, hleast⟩
        · exact .inl rfl
        · exact .inr ⟨rfl, least, hleast least (Nat.le_refl _)⟩
      · cases hvalue.symm.trans hhelped
        exact .inl rfl)
    session ⟨Frame.settled_nil _, rfl⟩
  refine ⟨answers, by rw [hrun, hsession], fun r hr => ?_⟩
  obtain ⟨reply, ⟨alone, last, hvalue, hlast, hreply⟩, hlookup⟩ := hall r hr
  refine ⟨_, hlast ▸ execute_single s hvalue, ?_⟩
  rw [hlookup]
  rcases hreply with rfl | ⟨rfl, hevaluates⟩
  · exact .inl (by simp)
  · exact .inr ⟨by simp, reply, hevaluates, rfl⟩

/-- A constant, a call on it and a call on that call. -/
def stackedCode : Code :=
  { Code.empty with
    chunks := [.ofPrimitive (.bool true), .call "&&" .bool 1 [.bool true],
      .call "&&" .bool 2 [.bool true]]
    entrypoints := [2, 3] }

/-- A setting without resources in which evaluation may go down once. -/
def shallowSetting : Setting Unit :=
  { bareSetting with config := { Config.default with maxDepth := 1 } }

theorem execute_alone_stackedCode :
    shallowSetting.registry = .empty ∧ (3 : Ref) ∈ stackedCode.entrypoints ∧
      ∃ answers alone, shallowSetting.execute stackedCode .empty (.new ()) =
          some (answers, .new ()) ∧
        shallowSetting.execute { stackedCode with entrypoints := [3] } .empty (.new ()) =
          some (alone, .new ()) ∧
        (answers.lookup 3 = alone.lookup 3 ∨
          alone.lookup 3 = some (answerOf stackedCode 3 (.error (.depthExceeded 1))) ∧
          ∃ outcome, (Frame.mk stackedCode .empty).Evaluates 3 outcome ∧
            answers.lookup 3 = some (answerOf stackedCode 3 outcome)) := by
  have hmem : (3 : Ref) ∈ stackedCode.entrypoints := by decide
  obtain ⟨answers, hrun, hall⟩ :=
    execute_alone (s := shallowSetting) rfl stackedCode .empty (.new ())
  obtain ⟨alone, halone, heither⟩ := hall 3 hmem
  exact ⟨rfl, hmem, answers, alone, hrun, halone, heither⟩

/-- The upper call is too deep to be evaluated by itself. After the lower one it is not, for the
value of that is remembered. -/
theorem execute_stackedCode :
    shallowSetting.registry = .empty ∧ (3 : Ref) ∈ stackedCode.entrypoints ∧
      ∃ answers alone, shallowSetting.execute stackedCode .empty (.new ()) =
          some (answers, .new ()) ∧
        shallowSetting.execute { stackedCode with entrypoints := [3] } .empty (.new ()) =
          some (alone, .new ()) ∧
        answers.lookup 3 = some (answerOf stackedCode 3 (.ok (.bool true))) ∧
        alone.lookup 3 = some (answerOf stackedCode 3 (.error (.depthExceeded 1))) ∧
        answers.lookup 3 ≠ alone.lookup 3 := by
  refine ⟨rfl, by decide, _, _, rfl, rfl, rfl, rfl, fun h => ?_⟩
  have herror : some none = some (some "execution exceeded the maximum depth of 1") :=
    congrArg (Option.map Answer.error) h
  cases herror

end Setting

end AssetQuery
