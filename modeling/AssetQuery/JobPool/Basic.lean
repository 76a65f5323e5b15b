import AssetQuery.Schema.Basic

/-!
# Pools of jobs

Jobs that do not depend on each other, to be run by some workers. Each job has a slot for its
outcome, in the place in which it was handed in; a job that fails or panics leaves a message there
and does not concern the others.

Each worker claims the number of the next job, takes the job from its place in the queue, runs it
and stores the outcome in the job's slot, over and over, and stops when there is no job left to
claim. A schedule says whose turn it is; every turn is one such step.
-/

namespace AssetQuery

/-- A piece of work, given by how it ends. -/
inductive Job (α : Type) where
  | value (a : α)
  | failure (cause : Failure)
  /-- The work breaks off, with a message if there is one. -/
  | panic (message : Option String)

/-- What is known of a job. -/
inductive Slot (α : Type) where
  | pending
  | done (a : α)
  | failed (message : String)
  deriving DecidableEq

variable {α β : Type}

/-- What is known of a job that was run. -/
def Job.slot : Job α → Slot α
  | value a => .done a
  | failure cause => .failed cause.message
  | panic message => .failed ("panic: " ++ message.getD "unknown panic")

namespace Slot

def value? : Slot α → Option α
  | done a => some a
  | _ => none

def failure? : Slot α → Option String
  | failed message => some message
  | _ => none

/-- The outcome to hand out. A job that was not run counts as failed. -/
def outcome : Slot α → Except String α
  | done a => .ok a
  | failed message => .error message
  | pending => .error "job did not run"

end Slot

/-- The jobs that failed, by number, with their messages. -/
structure PoolError where
  failures : List (Nat × String)
  deriving DecidableEq, Repr

def PoolError.message (e : PoolError) : String :=
  e.failures.foldl (fun text (i, message) => text ++ s!"; job {i}: {message}")
    s!"{e.failures.length} job(s) failed"

/-- Jobs that are still to be run, and the slots of all jobs. -/
structure Pool (α : Type) where
  jobs : List (Job α)
  workers : Nat
  slots : List (Slot α)

namespace Pool

/-- A pool of jobs none of which was run. There is at least one worker. -/
def new (jobs : List (Job α)) (workers : Nat) : Pool α :=
  ⟨jobs, max workers 1, jobs.map fun _ => .pending⟩

/-- Runs the jobs. There are none left to be run afterwards. -/
def run (p : Pool α) : Pool α :=
  if p.jobs.isEmpty then p else { p with jobs := [], slots := p.jobs.map Job.slot }

/-- Running a pool again changes nothing. -/
theorem run_run (p : Pool α) : p.run.run = p.run := by
  by_cases h : p.jobs.isEmpty <;> simp [run, h]

/-- The failed jobs, from the first on. -/
def failures (p : Pool α) : List (Nat × String) :=
  p.slots.zipIdx.filterMap fun (slot, i) => slot.failure?.map fun message => (i, message)

def errors? (p : Pool α) : Option PoolError :=
  if p.failures.isEmpty then none else some ⟨p.failures⟩

def hasErrors (p : Pool α) : Bool := p.slots.any fun slot => slot.failure?.isSome

def result? (p : Pool α) (i : Nat) : Option α := p.slots[i]?.bind Slot.value?

/-- The values of the jobs that have one, in place. -/
def results (p : Pool α) : List (Option α) := p.slots.map Slot.value?

def outcomes (p : Pool α) : List (Except String α) := p.slots.map Slot.outcome

end Pool

/-- Runs a job for each partition and joins what they give in the order of the partitions. If any
fails, all that failed are told. -/
def fanOut (partitions : List β) (workers : Nat) (job : β → Job (List α)) :
    Except PoolError (List α) :=
  let pool := (Pool.new (partitions.map job) workers).run
  match pool.errors? with
  | some e => .error e
  | none => .ok (pool.results.flatMap fun batch => batch.getD [])

/-- What a worker is about to do. -/
inductive Worker (α : Type) where
  | claim
  | take (index : Nat)
  | run (index : Nat) (job : Job α)
  | store (index : Nat) (slot : Slot α)
  | stopped

/-- Whether a worker has a job in hand. -/
def Worker.busy {α : Type} : Worker α → Bool
  | .run .. | .store .. => true
  | _ => false

/-- The workers at work: the queue of jobs, the number of the next job, what each worker is about to
do, the slots, and the numbers of the jobs that were run, the latest first. -/
structure Shift (α : Type) where
  queue : List (Option (Job α))
  next : Nat
  workers : List (Worker α)
  slots : List (Slot α)
  ran : List Nat

namespace Shift

variable {α : Type}

/-- The shift that starts on the jobs of a pool. There are no more workers than jobs. -/
def start (p : Pool α) : Shift α where
  queue := p.jobs.map some
  next := 0
  workers := List.replicate (min p.workers p.jobs.length) .claim
  slots := p.jobs.map fun _ => .pending
  ran := []

/-- A turn of a worker. -/
def turn (s : Shift α) (worker : Nat) : Shift α :=
  let goesOn (s : Shift α) (w : Worker α) : Shift α :=
    { s with workers := s.workers.set worker w }
  match s.workers[worker]? with
  | some .claim =>
    let s' := { s with next := s.next + 1 }
    goesOn s' (if s.next < s.queue.length then .take s.next else .stopped)
  | some (.take i) =>
    match s.queue[i]? with
    | some (some job) => goesOn { s with queue := s.queue.set i none } (.run i job)
    | _ => goesOn s .claim
  | some (.run i job) => goesOn { s with ran := i :: s.ran } (.store i job.slot)
  | some (.store i slot) => goesOn { s with slots := s.slots.set i slot } .claim
  | some .stopped | none => s

/-- The shift after the turns of a schedule. -/
def after (s : Shift α) (schedule : List Nat) : Shift α := schedule.foldl turn s

/-- Whether all workers have stopped. -/
def stopped (s : Shift α) : Bool := s.workers.all fun
  | .stopped => true
  | _ => false

end Shift

end AssetQuery
