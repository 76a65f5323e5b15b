import AssetQuery.JobPool.Basic
import Mathlib.Algebra.GroupWithZero.Nat
import Mathlib.Data.List.Basic
import Mathlib.Data.List.Nodup

/-!
# Shifts

However the turns of the workers alternate, a job is in the hands of one worker at most, which runs
it once and stores its outcome in a slot that is still pending. Once all workers have stopped, every
job was run and every slot holds the outcome of its job.
-/

namespace AssetQuery

variable {α : Type}

/-- The number of the job that a worker has claimed and not yet stored the outcome of. -/
def Worker.index? : Worker α → Option Nat
  | .take i | .run i _ | .store i _ => some i
  | .claim | .stopped => none

namespace Shift

variable {jobs : List (Job α)} {s s' : Shift α} {w w' : Worker α} {i k : Nat}

/-- Whether the job that a worker has claimed has got as far as the worker has. -/
def Serves (s : Shift α) (jobs : List (Job α)) : Worker α → Prop
  | .claim => True
  | .take i => i < s.next ∧ i ∉ s.ran ∧ s.slots[i]? = some .pending ∧
    ∃ job, jobs[i]? = some job ∧ s.queue[i]? = some (some job)
  | .run i job => i < s.next ∧ i ∉ s.ran ∧ s.slots[i]? = some .pending ∧ jobs[i]? = some job
  | .store i slot => i < s.next ∧ i ∈ s.ran ∧ s.slots[i]? = some .pending ∧
    ∃ job, jobs[i]? = some job ∧ slot = job.slot
  | .stopped => jobs.length ≤ s.next

theorem Serves.index_lt (h : s.Serves jobs w) (hi : w.index? = some i) : i < s.next := by
  cases w with
  | claim => cases hi
  | stopped => cases hi
  | take j =>
    cases hi
    exact h.1
  | run j job =>
    cases hi
    exact h.1
  | store j slot =>
    cases hi
    exact h.1

/-- Whether nothing happened to a job from one shift to another. -/
def Same (s s' : Shift α) (i : Nat) : Prop :=
  s'.queue[i]? = s.queue[i]? ∧ s'.slots[i]? = s.slots[i]? ∧ (i ∈ s'.ran ↔ i ∈ s.ran)

private theorem Serves.frame (h : s.Serves jobs w) (hnext : s.next ≤ s'.next)
    (hsame : ∀ i, w.index? = some i → s.Same s' i) : s'.Serves jobs w := by
  cases w with
  | claim => trivial
  | stopped => exact Nat.le_trans h hnext
  | take i =>
    obtain ⟨hqueue, hslot, hran⟩ := hsame i rfl
    obtain ⟨hlt, hnew, hpending, job, hjob, hqueued⟩ := h
    exact ⟨by omega, fun hmem => hnew (hran.mp hmem), hslot.trans hpending, job, hjob,
      hqueue.trans hqueued⟩
  | run i job =>
    obtain ⟨_, hslot, hran⟩ := hsame i rfl
    obtain ⟨hlt, hnew, hpending, hjob⟩ := h
    exact ⟨by omega, fun hmem => hnew (hran.mp hmem), hslot.trans hpending, hjob⟩
  | store i slot =>
    obtain ⟨_, hslot, hran⟩ := hsame i rfl
    obtain ⟨hlt, hold, hpending, hjob⟩ := h
    exact ⟨by omega, hran.mpr hold, hslot.trans hpending, hjob⟩

/-- Whether the jobs of a shift are where they should be: those not claimed yet in the queue, those
claimed in the hands of one worker each, and the others run and their outcomes stored. -/
structure Regular (jobs : List (Job α)) (s : Shift α) : Prop where
  queue_length : s.queue.length = jobs.length
  slots_length : s.slots.length = jobs.length
  ran_nodup : s.ran.Nodup
  ran_lt : ∀ i ∈ s.ran, i < jobs.length
  served : ∀ (a : Nat) w, s.workers[a]? = some w → s.Serves jobs w
  alone : ∀ (a b : Nat) v w i, s.workers[a]? = some v → s.workers[b]? = some w →
    v.index? = some i → w.index? = some i → a = b
  queued : ∀ (i : Nat) job, s.next ≤ i → jobs[i]? = some job →
    s.queue[i]? = some (some job) ∧ s.slots[i]? = some .pending ∧ i ∉ s.ran
  settled : ∀ (i : Nat) job, i < s.next → jobs[i]? = some job →
    (∀ (a : Nat) w, s.workers[a]? = some w → w.index? ≠ some i) →
      i ∈ s.ran ∧ s.slots[i]? = some job.slot

theorem regular_start (p : Pool α) : (start p).Regular p.jobs where
  queue_length := by simp [start]
  slots_length := by simp [start]
  ran_nodup := List.nodup_nil
  ran_lt := by simp [start]
  served a w hw := by
    rw [start, List.getElem?_replicate] at hw
    split at hw
    · cases hw
      trivial
    · cases hw
  alone a b v w i hv _ hi _ := by
    rw [start, List.getElem?_replicate] at hv
    split at hv
    · cases hv
      cases hi
    · cases hv
  queued i job _ hjob := by
    have hi : i < p.jobs.length := (List.getElem?_eq_some_iff.mp hjob).1
    simpa [start, hi] using (List.getElem?_eq_some_iff.mp hjob).2
  settled i job hlt := by simp [start] at hlt

/-- Whether one worker goes on from one shift to the next: with the job that it has, with none once
that job's outcome is stored, or with the next one, which it claims. What the others work on stays
as it is. -/
structure Replaces (jobs : List (Job α)) (s s' : Shift α) (k : Nat) (w w' : Worker α) : Prop where
  before : s.workers[k]? = some w
  workers : s'.workers = s.workers.set k w'
  queue_length : s'.queue.length = s.queue.length
  slots_length : s'.slots.length = s.slots.length
  ran_nodup : s'.ran.Nodup
  ran_lt : ∀ i ∈ s'.ran, i < jobs.length
  next_le : s.next ≤ s'.next
  serves : s'.Serves jobs w'
  index : ∀ i, w'.index? = some i → w.index? = some i ∨ i = s.next
  claimed : ∀ i, s.next ≤ i → i < s'.next → i < jobs.length → w'.index? = some i
  stored : ∀ i job, w.index? = some i → w'.index? ≠ some i → jobs[i]? = some job →
    i ∈ s'.ran ∧ s'.slots[i]? = some job.slot
  same : ∀ i, w.index? ≠ some i → w'.index? ≠ some i → s.Same s' i

namespace Replaces

theorem self (hr : Replaces jobs s s' k w w') : s'.workers[k]? = some w' := by
  have hk : k < s.workers.length := (List.getElem?_eq_some_iff.mp hr.before).1
  rw [hr.workers, List.getElem?_set_self hk]

theorem others (hr : Replaces jobs s s' k w w') {a : Nat} (ha : a ≠ k) :
    s'.workers[a]? = s.workers[a]? := by
  rw [hr.workers, List.getElem?_set_ne (Ne.symm ha)]

/-- Another worker is still where it was, with a job that is not the one of the worker that went
on, neither before nor after. -/
theorem other (hr : Replaces jobs s s' k w w') (h : s.Regular jobs) {a : Nat} {v : Worker α}
    (ha : a ≠ k) (hv : s'.workers[a]? = some v) :
    s.workers[a]? = some v ∧
      ∀ i, v.index? = some i → w.index? ≠ some i ∧ w'.index? ≠ some i := by
  rw [hr.others ha] at hv
  refine ⟨hv, fun i hi => ?_⟩
  have hold : w.index? ≠ some i := fun hwi => ha (h.alone a k v w i hv hr.before hi hwi)
  refine ⟨hold, fun hnew => ?_⟩
  rcases hr.index i hnew with hwi | rfl
  · exact hold hwi
  · exact Nat.lt_irrefl _ ((h.served a v hv).index_lt hi)

private theorem served (hr : Replaces jobs s s' k w w') (h : s.Regular jobs) {a : Nat}
    {v : Worker α} (hv : s'.workers[a]? = some v) : s'.Serves jobs v := by
  by_cases ha : a = k
  · subst ha
    cases hr.self.symm.trans hv
    exact hr.serves
  · obtain ⟨hold, hapart⟩ := hr.other h ha hv
    exact (h.served a v hold).frame hr.next_le fun i hi => hr.same i (hapart i hi).1 (hapart i hi).2

private theorem alone (hr : Replaces jobs s s' k w w') (h : s.Regular jobs) {a b i : Nat}
    {v u : Worker α} (hv : s'.workers[a]? = some v) (hu : s'.workers[b]? = some u)
    (hi : v.index? = some i) (hj : u.index? = some i) : a = b := by
  by_cases ha : a = k <;> by_cases hb : b = k
  · rw [ha, hb]
  · subst ha
    cases hr.self.symm.trans hv
    exact absurd hi ((hr.other h hb hu).2 i hj).2
  · subst hb
    cases hr.self.symm.trans hu
    exact absurd hj ((hr.other h ha hv).2 i hi).2
  · exact h.alone a b v u i (hr.other h ha hv).1 (hr.other h hb hu).1 hi hj

private theorem queued (hr : Replaces jobs s s' k w w') (h : s.Regular jobs) {i : Nat} {job : Job α}
    (hi : s'.next ≤ i) (hjob : jobs[i]? = some job) :
    s'.queue[i]? = some (some job) ∧ s'.slots[i]? = some .pending ∧ i ∉ s'.ran := by
  have hle := hr.next_le
  have hold : w.index? ≠ some i := fun hwi => by
    have := (h.served k w hr.before).index_lt hwi
    omega
  have hnew : w'.index? ≠ some i := fun hwi => by
    have := hr.serves.index_lt hwi
    omega
  obtain ⟨hq, hs, hran⟩ := hr.same i hold hnew
  rw [hq, hs, hran]
  exact h.queued i job (by omega) hjob

private theorem settled (hr : Replaces jobs s s' k w w') (h : s.Regular jobs) {i : Nat}
    {job : Job α} (hi : i < s'.next) (hjob : jobs[i]? = some job)
    (hfree : ∀ (a : Nat) v, s'.workers[a]? = some v → v.index? ≠ some i) :
    i ∈ s'.ran ∧ s'.slots[i]? = some job.slot := by
  have hnew : w'.index? ≠ some i := hfree k w' hr.self
  by_cases hold : w.index? = some i
  · exact hr.stored i job hold hnew hjob
  by_cases hlt : i < s.next
  · obtain ⟨_, hs, hran⟩ := hr.same i hold hnew
    rw [hs, hran]
    refine h.settled i job hlt hjob fun a v hv => ?_
    by_cases ha : a = k
    · subst ha
      cases hr.before.symm.trans hv
      exact hold
    · exact hfree a v (by rw [hr.others ha, hv])
  · have hjobs : i < jobs.length := (List.getElem?_eq_some_iff.mp hjob).1
    exact absurd (hr.claimed i (by omega) hi hjobs) hnew

end Replaces

private theorem Regular.replace (h : s.Regular jobs) (hr : Replaces jobs s s' k w w') :
    s'.Regular jobs where
  queue_length := hr.queue_length.trans h.queue_length
  slots_length := hr.slots_length.trans h.slots_length
  ran_nodup := hr.ran_nodup
  ran_lt := hr.ran_lt
  served _ _ := hr.served h
  alone _ _ _ _ _ := hr.alone h
  queued _ _ := hr.queued h
  settled _ _ := hr.settled h

private theorem Regular.turn (h : s.Regular jobs) (k : Nat) : (s.turn k).Regular jobs := by
  rw [Shift.turn]
  cases hw : s.workers[k]? with
  | none => exact h
  | some w =>
    have hserves := h.served k w hw
    cases w with
    | stopped => exact h
    | claim =>
      by_cases hlt : s.next < s.queue.length
      · simp only [hlt, if_true]
        obtain ⟨job, hjob⟩ : ∃ job, jobs[s.next]? = some job :=
          ⟨_, List.getElem?_eq_getElem (h.queue_length ▸ hlt)⟩
        obtain ⟨hqueued, hpending, hnew⟩ := h.queued s.next job (Nat.le_refl _) hjob
        refine h.replace ⟨hw, rfl, rfl, rfl, h.ran_nodup, h.ran_lt, Nat.le_succ _,
          ⟨Nat.lt_succ_self _, hnew, hpending, job, hjob, hqueued⟩, ?_, ?_, nofun,
          fun _ _ _ => ⟨rfl, rfl, Iff.rfl⟩⟩
        · rintro i ⟨⟩
          exact .inr rfl
        · intro i hle hi _
          have : i = s.next := by
            simp only at hi
            omega
          rw [this]
          rfl
      · simp only [hlt, if_false]
        have hall : jobs.length ≤ s.next := by
          have := h.queue_length
          omega
        exact h.replace ⟨hw, rfl, rfl, rfl, h.ran_nodup, h.ran_lt, Nat.le_succ _,
          Nat.le_trans hall (Nat.le_succ _), nofun, fun i _ _ _ => by omega, nofun,
          fun _ _ _ => ⟨rfl, rfl, Iff.rfl⟩⟩
    | take i =>
      obtain ⟨hlt, hnew, hpending, job, hjob, hqueued⟩ := hserves
      simp only [hqueued]
      refine h.replace ⟨hw, rfl, List.length_set .., rfl, h.ran_nodup, h.ran_lt, Nat.le_refl _,
        ⟨hlt, hnew, hpending, hjob⟩, fun _ hi => .inl hi,
        fun _ hle hlt => absurd hlt (Nat.not_lt.mpr hle), fun j _ hj hne => absurd hj hne,
        fun j hj _ => ?_⟩
      have hne : i ≠ j := fun heq => hj (congrArg some heq)
      exact ⟨List.getElem?_set_ne hne, rfl, Iff.rfl⟩
    | run i job =>
      obtain ⟨hlt, hnew, hpending, hjob⟩ := hserves
      have hi : i < jobs.length := (List.getElem?_eq_some_iff.mp hjob).1
      refine h.replace ⟨hw, rfl, rfl, rfl, List.nodup_cons.mpr ⟨hnew, h.ran_nodup⟩,
        List.forall_mem_cons.mpr ⟨hi, h.ran_lt⟩, Nat.le_refl _,
        ⟨hlt, List.mem_cons_self, hpending, job, hjob, rfl⟩, fun _ hi => .inl hi,
        fun _ hle hlt => absurd hlt (Nat.not_lt.mpr hle), fun j _ hj hne => absurd hj hne,
        fun j hj _ => ?_⟩
      have hne : j ≠ i := fun heq => hj (congrArg some heq.symm)
      exact ⟨rfl, rfl, by simp [hne]⟩
    | store i slot =>
      obtain ⟨hlt, hold, hpending, job, hjob, rfl⟩ := hserves
      refine h.replace ⟨hw, rfl, rfl, List.length_set .., h.ran_nodup, h.ran_lt, Nat.le_refl _,
        trivial, nofun, fun _ hle hlt => absurd hlt (Nat.not_lt.mpr hle), ?_, fun j hj _ => ?_⟩
      · rintro j other ⟨⟩ _ hother
        cases hjob.symm.trans hother
        have hslot : i < s.slots.length := (List.getElem?_eq_some_iff.mp hpending).1
        exact ⟨hold, List.getElem?_set_self hslot⟩
      · have hne : i ≠ j := fun heq => hj (congrArg some heq)
        exact ⟨rfl, List.getElem?_set_ne hne, Iff.rfl⟩

theorem Regular.after (h : s.Regular jobs) (schedule : List Nat) :
    (s.after schedule).Regular jobs := by
  induction schedule generalizing s with
  | nil => exact h
  | cons k rest ih => exact ih (h.turn k)

private theorem length_workers_turn (s : Shift α) (k : Nat) :
    (s.turn k).workers.length = s.workers.length := by
  rw [turn]
  cases s.workers[k]? with
  | none => rfl
  | some w =>
    cases w with
    | stopped => rfl
    | claim => simp
    | run i job => simp
    | store i slot => simp
    | take i =>
      dsimp only
      split <;> simp

theorem length_workers_after (s : Shift α) (schedule : List Nat) :
    (s.after schedule).workers.length = s.workers.length := by
  induction schedule generalizing s with
  | nil => rfl
  | cons k rest ih => exact (ih _).trans (length_workers_turn s k)

theorem stopped_iff : s.stopped ↔ ∀ w ∈ s.workers, w = .stopped := by
  rw [stopped, List.all_eq_true]
  refine forall₂_congr fun w _ => ?_
  cases w <;> simp

/-- Once all workers have stopped, every job was run once and its outcome is in its slot. -/
theorem Regular.settled_of_stopped (h : s.Regular jobs) (hworkers : jobs ≠ [] → s.workers ≠ [])
    (hstopped : s.stopped) :
    s.ran.Perm (List.range jobs.length) ∧ s.slots = jobs.map Job.slot := by
  have hidle : ∀ w ∈ s.workers, w = .stopped := stopped_iff.mp hstopped
  have hdone : ∀ i job, jobs[i]? = some job → i ∈ s.ran ∧ s.slots[i]? = some job.slot := by
    intro i job hjob
    have hi : i < jobs.length := (List.getElem?_eq_some_iff.mp hjob).1
    obtain ⟨w, rest, hcons⟩ := List.exists_cons_of_ne_nil (hworkers (by rintro rfl; cases hjob))
    have hfirst : w = .stopped := hidle w (by simp [hcons])
    have hall : jobs.length ≤ s.next := by
      have hserves := h.served 0 w (by simp [hcons])
      rwa [hfirst] at hserves
    refine h.settled i job (by omega) hjob fun a v hv => ?_
    rw [hidle v (List.mem_of_getElem? hv)]
    exact nofun
  constructor
  · refine (List.perm_ext_iff_of_nodup h.ran_nodup List.nodup_range).mpr fun i => ?_
    rw [List.mem_range]
    refine ⟨h.ran_lt i, fun hi => ?_⟩
    exact (hdone i _ (List.getElem?_eq_getElem hi)).1
  · apply List.ext_getElem?
    intro i
    rw [List.getElem?_map]
    cases hjob : jobs[i]? with
    | some job => exact (hdone i job hjob).2
    | none =>
      have hi := List.getElem?_eq_none_iff.mp hjob
      exact List.getElem?_eq_none_iff.mpr (h.slots_length ▸ hi)

end Shift

/-- How many turns a worker needs before it could stop, if there were no more jobs. -/
def Worker.turnsLeft : Worker α → Nat
  | .stopped => 0
  | .claim => 1
  | .store .. => 2
  | .run .. => 3
  | .take _ => 4

namespace Shift

variable {s : Shift α} {w w' : Worker α} {k : Nat}

/-- How many turns workers that have not stopped can still take at most. -/
def turnsLeft (s : Shift α) : Nat :=
  5 * (s.queue.length - s.next) + (s.workers.map Worker.turnsLeft).sum

private theorem sum_turnsLeft_set {workers : List (Worker α)} (hw : workers[k]? = some w)
    (w' : Worker α) : ((workers.set k w').map Worker.turnsLeft).sum + w.turnsLeft =
      (workers.map Worker.turnsLeft).sum + w'.turnsLeft := by
  induction workers generalizing k with
  | nil => cases hw
  | cons v rest ih =>
    cases k with
    | zero =>
      cases hw
      simp only [List.set_cons_zero, List.map_cons, List.sum_cons]
      omega
    | succ k =>
      have := ih (k := k) hw
      simp only [List.set_cons_succ, List.map_cons, List.sum_cons]
      omega

private theorem turnsLeft_turn_lt (hw : s.workers[k]? = some w) (hactive : w ≠ .stopped) :
    (s.turn k).turnsLeft < s.turnsLeft := by
  have hset := sum_turnsLeft_set hw
  rw [turn, hw]
  cases w with
  | stopped => exact absurd rfl hactive
  | claim =>
    by_cases hlt : s.next < s.queue.length
    · have := hset (.take s.next)
      simp only [turnsLeft, Worker.turnsLeft, hlt, if_true] at this ⊢
      omega
    · have := hset .stopped
      simp only [turnsLeft, Worker.turnsLeft, hlt, if_false] at this ⊢
      omega
  | take i =>
    dsimp only
    split
    · next job _ =>
      have := hset (.run i job)
      simp only [turnsLeft, Worker.turnsLeft, List.length_set] at this ⊢
      omega
    · have := hset .claim
      simp only [turnsLeft, Worker.turnsLeft] at this ⊢
      omega
  | run i job =>
    have := hset (.store i job.slot)
    simp only [turnsLeft, Worker.turnsLeft] at this ⊢
    omega
  | store i slot =>
    have := hset .claim
    simp only [turnsLeft, Worker.turnsLeft] at this ⊢
    omega

/-- Whatever the turns were so far, there are turns after which all workers have stopped. -/
theorem exists_stopped (s : Shift α) : ∃ schedule, (s.after schedule).stopped := by
  induction hleft : s.turnsLeft using Nat.strongRecOn generalizing s with
  | _ left ih =>
    by_cases hstopped : s.stopped
    · exact ⟨[], hstopped⟩
    · rw [stopped_iff] at hstopped
      push Not at hstopped
      obtain ⟨w, hmem, hactive⟩ := hstopped
      obtain ⟨k, hw⟩ := List.mem_iff_getElem?.mp hmem
      obtain ⟨schedule, hlast⟩ := ih _ (hleft ▸ turnsLeft_turn_lt hw hactive) (s.turn k) rfl
      exact ⟨k :: schedule, hlast⟩

end Shift

end AssetQuery
