import AssetQuery.Eval.Execution

/-!
# Runs of executions

How the steps of an execution run one after the other, and what becomes of the entry points of a
code: they are evaluated in order, each has an outcome of its own, and the last answer given under a
number is the one that is kept.
-/

namespace AssetQuery

variable {σ α β : Type}

namespace Execution

theorem bind_ok {x : Execution σ α} {f : α → Execution σ β} {before after : Progress σ} {a : α}
    (h : x before = some (.ok a, after)) : (x >>= f) before = f a after := by
  show (x before).bind _ = _
  rw [h]
  rfl

theorem bind_error {x : Execution σ α} {f : α → Execution σ β} {before after : Progress σ}
    {e : EvalError} (h : x before = some (.error e, after)) :
    (x >>= f) before = some (.error e, after) := by
  show (x before).bind _ = _
  rw [h]
  rfl

/-- Two steps go wrong in the first or go on to the second. -/
theorem eq_some_of_bind {x : Execution σ α} {f : α → Execution σ β} {before after : Progress σ}
    {reply : Except EvalError β} (h : (x >>= f) before = some (reply, after)) :
    (∃ e, reply = .error e ∧ x before = some (.error e, after)) ∨
      ∃ a mid, x before = some (.ok a, mid) ∧ f a mid = some (reply, after) := by
  obtain ⟨⟨outcome, mid⟩, hx, hf⟩ := Option.bind_eq_some_iff.mp h
  cases outcome with
  | error e =>
    cases hf
    exact .inl ⟨e, rfl, hx⟩
  | ok a => exact .inr ⟨a, mid, hx, hf⟩

theorem run_get_bind (k : Progress σ → Execution σ α) (progress : Progress σ) :
    (get >>= k) progress = k progress progress := rfl

theorem remember_of_some {r : Ref} {x : Execution σ Data} {progress : Progress σ} {data : Data}
    (h : progress.values.lookup r = some data) :
    remember r x progress = some (.ok data, progress) := by
  refine (bind_ok rfl).trans ?_
  rw [h]
  rfl

theorem remember_of_none {r : Ref} {x : Execution σ Data} {progress : Progress σ}
    (h : progress.values.lookup r = none) :
    remember r x progress = (do
      let data ← x
      modify fun progress => { progress with values := (r, data) :: progress.values }
      return data : Execution σ Data) progress := by
  refine (bind_ok rfl).trans ?_
  rw [h]
  rfl

/-- Below a chunk there is a level less for the chunks it uses, and two less for one that it is a
reference to. -/
theorem value_succ (s : Setting σ) (levels : Nat) (frame : Frame) (r : Ref) :
    value s (levels + 1) frame r =
      remember r
        (Eval.chunk (requests s frame (value s levels) (value s (levels - 1))) frame r) :=
  (means s).value_succ levels frame r

theorem declares_of_empty {s : Setting σ} (hempty : s.registry = .empty) :
    (means s).declares = fun _ _ => false := by
  funext resource field
  simp only [means, hempty]
  rfl

private theorem value_entrypoints (s : Setting σ) (levels : Nat) (code : Code) (props : Dict Data)
    (rs : List Ref) (r : Ref) :
    value s levels ⟨{ code with entrypoints := rs }, props⟩ r = value s levels ⟨code, props⟩ r := by
  induction levels using Nat.strongRecOn generalizing r with
  | _ levels ih =>
    cases levels with
    | zero => rfl
    | succ levels =>
      have hchunk := funext (ih levels (by omega))
      have htarget := funext (ih (levels - 1) (by omega))
      have hrequests : requests s ⟨{ code with entrypoints := rs }, props⟩ (value s levels)
          (value s (levels - 1)) =
          requests s ⟨code, props⟩ (value s levels) (value s (levels - 1)) := by
        simp only [requests, Means.requests, hchunk, htarget]
        rfl
      rw [value_succ, value_succ, hrequests]
      rfl

end Execution

namespace Setting

private theorem lookup_putAnswer (r : Ref) (answer : Answer) (q : Ref)
    (answers : List (Ref × Answer)) :
    (putAnswer r answer answers).lookup q = if q = r then some answer else answers.lookup q := by
  induction answers with
  | nil => by_cases h : q = r <;> simp [putAnswer, List.lookup_cons, h, beq_false_of_ne]
  | cons entry rest ih =>
    obtain ⟨first, old⟩ := entry
    simp only [putAnswer]
    by_cases h : q = r
    · subst h
      split
      · simp
      · split
        · simp
        · next hne => simp [List.lookup_cons, ih, beq_false_of_ne hne]
    · split
      · simp [List.lookup_cons, beq_false_of_ne h]
      · split
        · next heq =>
          subst heq
          simp [List.lookup_cons, beq_false_of_ne h]
        · simp [List.lookup_cons, ih, if_neg h]

theorem lookup_foldl_putAnswer (q : Ref) (given answers : List (Ref × Answer)) :
    (∃ e ∈ given, e.1 = q ∧
      (given.foldl (fun acc (r, answer) => putAnswer r answer acc) answers).lookup q = some e.2) ∨
    ((∀ e ∈ given, e.1 ≠ q) ∧
      (given.foldl (fun acc (r, answer) => putAnswer r answer acc) answers).lookup q =
        answers.lookup q) := by
  induction given generalizing answers with
  | nil => exact .inr ⟨by simp, rfl⟩
  | cons entry rest ih =>
    obtain ⟨r, answer⟩ := entry
    rw [List.foldl_cons]
    rcases ih (putAnswer r answer answers) with ⟨e, he, hq, hlast⟩ | ⟨hrest, hlast⟩
    · exact .inl ⟨e, List.mem_cons_of_mem _ he, hq, hlast⟩
    · rw [hlast, lookup_putAnswer]
      by_cases hq : q = r
      · exact .inl ⟨(r, answer), List.mem_cons_self, hq.symm, by simp [hq]⟩
      · refine .inr ⟨fun e he => ?_, by simp [hq]⟩
        rcases List.mem_cons.mp he with rfl | he
        · exact Ne.symm hq
        · exact hrest e he

theorem answers_cons_eq_some {s : Setting σ} {frame : Frame} {r : Ref} {rest : List Ref}
    {before after : Progress σ} {given : List (Ref × Answer)} :
    s.answers frame (r :: rest) before = some (given, after) ↔
      ∃ reply mid others,
        Execution.value s (s.config.maxDepth + 1) frame r before = some (reply, mid) ∧
        s.answers frame rest mid = some (others, after) ∧
        given = (r, answerOf frame.code r reply) :: others := by
  constructor
  · intro h
    obtain ⟨⟨reply, mid⟩, hfirst, h⟩ := Option.bind_eq_some_iff.mp h
    obtain ⟨⟨others, last⟩, hrest, h⟩ := Option.bind_eq_some_iff.mp h
    cases h
    exact ⟨reply, mid, others, hfirst, hrest, rfl⟩
  · rintro ⟨reply, mid, others, hfirst, hrest, rfl⟩
    exact Option.bind_eq_some_iff.mpr
      ⟨(reply, mid), hfirst, Option.bind_eq_some_iff.mpr ⟨(others, after), hrest, rfl⟩⟩

theorem execute_eq_some {s : Setting σ} {code : Code} {props : Dict Data}
    {session after : Session σ} {answers : List (Ref × Answer)} :
    s.execute code props session = some (answers, after) ↔
      ∃ given last, s.answers ⟨code, props⟩ code.entrypoints ⟨[], session⟩ = some (given, last) ∧
        answers = given.foldl (fun acc (r, answer) => putAnswer r answer acc) [] ∧
        after = last.session := by
  constructor
  · intro h
    obtain ⟨⟨given, last⟩, hgiven, h⟩ := Option.bind_eq_some_iff.mp h
    cases h
    exact ⟨given, last, hgiven, rfl, rfl⟩
  · rintro ⟨given, last, hgiven, rfl, rfl⟩
    exact Option.bind_eq_some_iff.mpr ⟨(given, last), hgiven, rfl⟩

/-- Entry points are answered one after the other: what the evaluation of each keeps holds in the
end, and each is answered by an outcome of its own. -/
private theorem answers_run {s : Setting σ} {frame : Frame} (kept : Progress σ → Prop)
    (possible : Ref → Except EvalError Data → Prop) {rs : List Ref}
    (h : ∀ r ∈ rs, ∀ progress, kept progress → ∃ reply after,
      Execution.value s (s.config.maxDepth + 1) frame r progress = some (reply, after) ∧
        kept after ∧ possible r reply) (progress : Progress σ) (hprogress : kept progress) :
    ∃ given after, s.answers frame rs progress = some (given, after) ∧ kept after ∧
      given.map (·.1) = rs ∧
      ∀ e ∈ given, ∃ reply, possible e.1 reply ∧ e.2 = answerOf frame.code e.1 reply := by
  induction rs generalizing progress with
  | nil => exact ⟨[], progress, rfl, hprogress, rfl, by simp⟩
  | cons r rest ih =>
    obtain ⟨reply, after, hrun, hafter, hreply⟩ := h r List.mem_cons_self progress hprogress
    obtain ⟨given, last, hgiven, hlast, hrefs, hall⟩ :=
      ih (fun q hq => h q (List.mem_cons_of_mem _ hq)) after hafter
    refine ⟨(r, answerOf frame.code r reply) :: given, last,
      answers_cons_eq_some.mpr ⟨reply, after, given, hrun, hgiven, rfl⟩, hlast, by simp [hrefs],
      fun e he => ?_⟩
    rcases List.mem_cons.mp he with rfl | he
    · exact ⟨reply, hreply, rfl⟩
    · exact hall e he

theorem execute_run {s : Setting σ} {code : Code} {props : Dict Data} (kept : Progress σ → Prop)
    (possible : Ref → Except EvalError Data → Prop)
    (h : ∀ r ∈ code.entrypoints, ∀ progress, kept progress → ∃ reply after,
      Execution.value s (s.config.maxDepth + 1) ⟨code, props⟩ r progress = some (reply, after) ∧
        kept after ∧ possible r reply) (session : Session σ) (hsession : kept ⟨[], session⟩) :
    ∃ answers after, s.execute code props session = some (answers, after.session) ∧ kept after ∧
      ∀ r ∈ code.entrypoints, ∃ reply, possible r reply ∧
        answers.lookup r = some (answerOf code r reply) := by
  obtain ⟨given, after, hrun, hafter, hrefs, hall⟩ := answers_run kept possible h _ hsession
  refine ⟨given.foldl (fun acc (r, answer) => putAnswer r answer acc) [], after,
    execute_eq_some.mpr ⟨given, after, hrun, rfl, rfl⟩, hafter, fun r hr => ?_⟩
  rcases lookup_foldl_putAnswer r given [] with ⟨e, he, rfl, hlast⟩ | ⟨hnone, _⟩
  · obtain ⟨reply, hreply, hanswer⟩ := hall e he
    exact ⟨reply, hreply, by rw [hlast, hanswer]⟩
  · rw [← hrefs] at hr
    obtain ⟨e, he, rfl⟩ := List.mem_map.mp hr
    exact absurd rfl (hnone e he)

/-- A single entry point is answered by its own outcome. -/
theorem execute_single (s : Setting σ) {code : Code} {props : Dict Data} {r : Ref}
    {session : Session σ} {reply : Except EvalError Data} {after : Progress σ}
    (h : Execution.value s (s.config.maxDepth + 1) ⟨code, props⟩ r ⟨[], session⟩ =
      some (reply, after)) :
    s.execute { code with entrypoints := [r] } props session =
      some ([(r, answerOf code r reply)], after.session) := by
  rw [← Execution.value_entrypoints s _ code props [r] r] at h
  show (s.answers ⟨{ code with entrypoints := [r] }, props⟩ [r] ⟨[], session⟩).bind _ = _
  have hanswers : s.answers ⟨{ code with entrypoints := [r] }, props⟩ [r] ⟨[], session⟩ =
      some ([(r, answerOf code r reply)], after) := by
    show (Execution.value s (s.config.maxDepth + 1) _ r ⟨[], session⟩).bind _ = _
    rw [h]
    rfl
  rw [hanswers]
  rfl

/-- A setting without resources. -/
def bareSetting : Setting Unit := ⟨.empty, default, .default, 0⟩

end Setting

end AssetQuery
