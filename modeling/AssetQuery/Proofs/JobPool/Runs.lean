import AssetQuery.Proofs.JobPool.Shift

/-!
# What becomes of a pool

A pool is run by its workers in turns, until all have stopped. Whatever the turns are, it comes to
the same pool: each slot holds the outcome of its job, and the failures are told from the first job
on. So what is spread out over partitions comes together in their order.
-/

namespace AssetQuery

variable {α β : Type}

/-- Whether a job leaves a message in place of a value. -/
def Job.Fails (job : Job α) : Prop := ∃ message, job.slot = .failed message

/-- Whether an error tells which of some jobs failed, from the first on, and why. -/
structure PoolError.Lists (e : PoolError) (jobs : List (Job α)) : Prop where
  increasing : e.failures.Pairwise fun a b => a.1 < b.1
  complete : ∀ i message, (i, message) ∈ e.failures ↔
    ∃ job, jobs[i]? = some job ∧ job.slot = .failed message

namespace Pool

variable {p q : Pool α} {jobs : List (Job α)} {workers : Nat}

/-- The ways in which a pool may be run. One without jobs is left as it is. -/
inductive Runs (p : Pool α) : Pool α → Prop
  | idle : p.jobs = [] → Runs p p
  | shift (schedule : List Nat) : p.jobs ≠ [] → ((Shift.start p).after schedule).stopped →
    Runs p { p with jobs := [], slots := ((Shift.start p).after schedule).slots }

theorem length_workers_after_start (p : Pool α) (schedule : List Nat) :
    ((Shift.start p).after schedule).workers.length = min p.workers p.jobs.length := by
  rw [Shift.length_workers_after, Shift.start, List.length_replicate]

/-- What the workers of a pool leave behind once all of them have stopped. -/
theorem settled_after_start (hworkers : 0 < p.workers) {schedule : List Nat}
    (hstopped : ((Shift.start p).after schedule).stopped) :
    ((Shift.start p).after schedule).ran.Perm (List.range p.jobs.length) ∧
      ((Shift.start p).after schedule).slots = p.jobs.map Job.slot := by
  refine ((Shift.regular_start p).after schedule).settled_of_stopped (fun hjobs => ?_) hstopped
  have hsome : 0 < p.jobs.length := List.length_pos_of_ne_nil hjobs
  apply List.ne_nil_of_length_pos
  rw [length_workers_after_start]
  omega

private theorem runs_iff (hworkers : 0 < p.workers) : p.Runs q ↔ q = p.run := by
  rw [run]
  constructor
  · intro hrun
    cases hrun with
    | idle hjobs => rw [if_pos (by simp [hjobs])]
    | shift schedule hjobs hstopped =>
      rw [if_neg (by simp [hjobs]), (settled_after_start hworkers hstopped).2]
  · rintro rfl
    by_cases hjobs : p.jobs = []
    · rw [if_pos (by simp [hjobs])]
      exact .idle hjobs
    · rw [if_neg (by simp [hjobs])]
      obtain ⟨schedule, hstopped⟩ := Shift.exists_stopped (Shift.start p)
      rw [← (settled_after_start hworkers hstopped).2]
      exact .shift schedule hjobs hstopped

private theorem workers_new_pos (jobs : List (Job α)) (workers : Nat) : 0 <
    (new jobs workers).workers :=
  Nat.lt_of_lt_of_le Nat.zero_lt_one (Nat.le_max_right workers 1)

/-- Every slot of a pool that was run holds the outcome of its job. -/
theorem slots_run_new (jobs : List (Job α)) (workers : Nat) :
    (new jobs workers).run.slots = jobs.map Job.slot := by
  cases jobs with
  | nil => rfl
  | cons job rest => rfl

private theorem mem_failures {i : Nat} {message : String} :
    (i, message) ∈ p.failures ↔ p.slots[i]? = some (.failed message) := by
  rw [failures, List.mem_filterMap]
  constructor
  · rintro ⟨⟨slot, j⟩, hmem, hfailed⟩
    obtain ⟨found, hfound, heq⟩ := Option.map_eq_some_iff.mp hfailed
    obtain ⟨rfl, rfl⟩ := Prod.mk.inj heq
    have hslot : slot = .failed found := by
      cases slot with
      | failed other =>
        cases hfound
        rfl
      | pending => cases hfound
      | done a => cases hfound
    rw [← hslot]
    exact List.mk_mem_zipIdx_iff_getElem?.mp hmem
  · intro hslot
    exact ⟨(.failed message, i), List.mk_mem_zipIdx_iff_getElem?.mpr hslot, rfl⟩

private theorem failures_increasing (p : Pool α) : p.failures.Pairwise fun a b => a.1 < b.1 := by
  have hnumbers : p.slots.zipIdx.Pairwise fun a b => a.2 < b.2 := by
    have hrange : (p.slots.zipIdx.map Prod.snd).Pairwise (· < ·) := by
      rw [List.zipIdx_map_snd]
      exact List.pairwise_lt_range'
    exact List.pairwise_map.mp hrange
  rw [failures, List.pairwise_filterMap]
  refine hnumbers.imp fun {a b} hlt c hc d hd => ?_
  obtain ⟨_, _, rfl⟩ := Option.map_eq_some_iff.mp hc
  obtain ⟨_, _, rfl⟩ := Option.map_eq_some_iff.mp hd
  exact hlt

theorem lists_failures (hslots : p.slots = jobs.map Job.slot) :
    PoolError.Lists ⟨p.failures⟩ jobs where
  increasing := p.failures_increasing
  complete i message := by
    show (i, message) ∈ p.failures ↔ _
    rw [mem_failures, hslots, List.getElem?_map, Option.map_eq_some_iff]

private theorem failures_eq_nil_iff (hslots : p.slots = jobs.map Job.slot) :
    p.failures = [] ↔ ∀ job ∈ jobs, ¬job.Fails := by
  have hlists := (lists_failures hslots).complete
  constructor
  · rintro hnone job hjob ⟨message, hfailed⟩
    obtain ⟨i, hi⟩ := List.mem_iff_getElem?.mp hjob
    have hmem := (hlists i message).mpr ⟨job, hi, hfailed⟩
    rw [hnone] at hmem
    cases hmem
  · intro hall
    apply List.eq_nil_iff_forall_not_mem.mpr
    rintro ⟨i, message⟩ hmem
    obtain ⟨job, hi, hfailed⟩ := (hlists i message).mp hmem
    exact hall job (List.mem_of_getElem? hi) ⟨message, hfailed⟩

theorem errors?_eq_none_iff (hslots : p.slots = jobs.map Job.slot) :
    p.errors? = none ↔ ∀ job ∈ jobs, ¬job.Fails := by
  rw [← failures_eq_nil_iff hslots, errors?]
  split <;> simp_all

theorem lists_of_errors? (hslots : p.slots = jobs.map Job.slot) {e : PoolError}
    (he : p.errors? = some e) : e.Lists jobs := by
  rw [errors?] at he
  split at he
  · cases he
  · cases he
    exact lists_failures hslots

private theorem fanOut_of_values {partitions : List β} {job : β → Job (List α)}
    {batches : List (List α)} (h : partitions.map job = batches.map .value) (workers : Nat) :
    fanOut partitions workers job = .ok batches.flatten := by
  have hslots := slots_run_new (partitions.map job) workers
  have hnone : (new (partitions.map job) workers).run.errors? = none := by
    rw [errors?_eq_none_iff hslots, h]
    intro failing hmem
    obtain ⟨batch, _, rfl⟩ := List.mem_map.mp hmem
    rintro ⟨message, ⟨⟩⟩
  have hresults : (new (partitions.map job) workers).run.results = batches.map some := by
    rw [results, hslots, h, List.map_map, List.map_map]
    rfl
  rw [fanOut, hnone]
  dsimp only
  rw [hresults, List.flatMap_map, List.flatten_eq_flatMap]
  rfl

private theorem fanOut_of_fails {partitions : List β} {job : β → Job (List α)}
    (h : ∃ partition ∈ partitions, (job partition).Fails) (workers : Nat) :
    ∃ e, fanOut partitions workers job = .error e ∧ e.Lists (partitions.map job) := by
  have hslots := slots_run_new (partitions.map job) workers
  obtain ⟨partition, hmem, hfails⟩ := h
  rw [fanOut]
  cases herrors : (new (partitions.map job) workers).run.errors? with
  | none =>
    have hall := (errors?_eq_none_iff hslots).mp herrors
    exact absurd hfails (hall _ (List.mem_map_of_mem hmem))
  | some e => exact ⟨e, rfl, lists_of_errors? hslots herrors⟩

/-- However the workers of a pool take turns, no more of them than there are workers and jobs have a
job in hand at a time, none runs a job that was run before or stores an outcome over another, and
from wherever they are they can go on until all have stopped. Then each job was run once, and the
pool is the one whose slots hold the outcomes of its jobs and whose errors are those that failed, in
order; to run it again changes nothing. What is spread out over partitions is their outputs in
order, or all that failed. -/
theorem runs_settle (jobs : List (Job α)) (workers : Nat) :
    (∀ schedule s, (Shift.start (new jobs workers)).after schedule = s →
      s.workers.countP Worker.busy ≤ min (max workers 1) jobs.length ∧ s.ran.Nodup ∧
      (∀ i slot, .store i slot ∈ s.workers → s.slots[i]? = some .pending) ∧
      (∃ more, (s.after more).stopped) ∧
      (s.stopped → s.ran.Perm (List.range jobs.length) ∧ s.slots = jobs.map Job.slot)) ∧
    (∀ p, (new jobs workers).Runs p ↔ p = (new jobs workers).run) ∧
    (∀ p, (new jobs workers).Runs p →
      p.slots = jobs.map Job.slot ∧ (p.errors? = none ↔ ∀ job ∈ jobs, ¬job.Fails) ∧
      (∀ e, p.errors? = some e → e.Lists jobs) ∧ ∀ q, p.Runs q ↔ q = p) ∧
    ∀ (β γ : Type) (partitions : List β) (job : β → Job (List γ)),
      (∀ batches : List (List γ), partitions.map job = batches.map .value →
        fanOut partitions workers job = .ok batches.flatten) ∧
      ((∃ partition ∈ partitions, (job partition).Fails) →
        ∃ e, fanOut partitions workers job = .error e ∧ e.Lists (partitions.map job)) := by
  have hpos := workers_new_pos jobs workers
  refine ⟨?_, fun p => runs_iff hpos, ?_, fun β γ partitions job =>
    ⟨fun batches h => fanOut_of_values h workers, fun h => fanOut_of_fails h workers⟩⟩
  · rintro schedule _ rfl
    have hregular := (Shift.regular_start (new jobs workers)).after schedule
    refine ⟨?_, hregular.ran_nodup, fun i slot hmem => ?_, Shift.exists_stopped _, fun hstopped =>
      settled_after_start hpos hstopped⟩
    · have hlength := length_workers_after_start (new jobs workers) schedule
      exact hlength ▸ List.countP_le_length
    · obtain ⟨a, hworker⟩ := List.mem_iff_getElem?.mp hmem
      obtain ⟨_, _, hpending, _⟩ := hregular.served a _ hworker
      exact hpending
  · intro p hrun
    obtain rfl := (runs_iff hpos).mp hrun
    have hslots := slots_run_new jobs workers
    refine ⟨hslots, errors?_eq_none_iff hslots, fun e => lists_of_errors? hslots, fun q => ?_⟩
    have hworkers : (new jobs workers).run.workers = (new jobs workers).workers := by
      rw [run]
      split <;> rfl
    rw [runs_iff (hworkers ▸ hpos), run_run]

/-- Three jobs, of which one fails and one breaks off. -/
def unevenJobs : List (Job Nat) := [.value 7, .failure (.text "boom"), .panic none]

/-- Two workers, of which one stores the outcome of the first job last. -/
def unevenSchedule : List Nat := [0, 1, 0, 1, 1, 1, 0, 1, 1, 1, 1, 1, 0, 0]

theorem runs_settle_unevenJobs :
    ((Shift.start (new unevenJobs 2)).after unevenSchedule).stopped ∧
      ((Shift.start (new unevenJobs 2)).after unevenSchedule).ran = [2, 0, 1] ∧
      ((Shift.start (new unevenJobs 2)).after unevenSchedule).slots =
        [.done 7, .failed "boom", .failed "panic: unknown panic"] ∧
      (new unevenJobs 2).run.errors? = some ⟨[(1, "boom"), (2, "panic: unknown panic")]⟩ := by
  have hstopped : ((Shift.start (new unevenJobs 2)).after unevenSchedule).stopped := rfl
  obtain ⟨hshifts, _⟩ := runs_settle unevenJobs 2
  obtain ⟨_, _, _, _, hsettled⟩ := hshifts unevenSchedule _ rfl
  exact ⟨hstopped, rfl, (hsettled hstopped).2, rfl⟩

end Pool

end AssetQuery
