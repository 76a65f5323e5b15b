import AssetQuery.Data.Answer
import AssetQuery.Eval.Basic
import AssetQuery.Session.Request

/-!
# Execution

A code is executed on a session: its entry points are evaluated one after the other, and each has
an answer of its own. The value of a chunk is remembered within a code, but not its failure; each
run of a block starts without memory. How deep evaluation goes is limited.

This is execution by a single worker, whatever number of them the configuration asks for. An entry
point always comes to an outcome here, so there is no answer for a job that breaks off.
-/

namespace AssetQuery

variable {σ α : Type}

/-- Where an execution stands: the values of chunks evaluated so far, and the session. -/
structure Progress (σ : Type) where
  values : List (Ref × Data)
  session : Session σ

/-- A step of an execution. -/
abbrev Execution (σ α : Type) := ExceptT EvalError (StateT (Progress σ) Option) α

namespace Execution

/-- Works on the session. -/
def work (w : Work σ (Except ResourceError α)) : Execution σ α := fun progress => do
  let (reply, session) ← w progress.session
  return (reply.mapError .resource, { progress with session })

/-- Starts without the values of chunks and leaves those that were there as they were. -/
def isolated (x : Execution σ α) : Execution σ α := fun progress => do
  let (reply, after) ← x { progress with values := [] }
  return (reply, { after with values := progress.values })

/-- The value remembered for a chunk. -/
def remembered (r : Ref) : Execution σ (Option Data) := return (← get).values.lookup r

def keep (r : Ref) (data : Data) : Execution σ PUnit :=
  modify fun progress => { progress with values := (r, data) :: progress.values }

/-- The value remembered for a chunk, or else the one worked out. -/
def remember (r : Ref) (x : Execution σ Data) : Execution σ Data :=
  Eval.remember (remembered r) (keep r) x

def create (s : Setting σ) (name : String) (args : Dict Data) : Execution σ Data := do
  let key ← work (s.create name args)
  return .resource key.name key.id

/-- Reads a field of a resource that is there. -/
def read (s : Setting σ) (name id field : String) : Execution σ Data := do
  if ((← get).session.instance? ⟨name, id⟩).isSome then work (s.read ⟨name, id⟩ field)
  else throw (.invalidArgument field (.notLoaded name id))

/-- What a worker does that is alone with the session. -/
def means (s : Setting σ) : Means (StateT (Progress σ) Option) where
  maxDepth := s.config.maxDepth
  visit _ _ x := x
  remember := remember
  isolated := isolated
  declares resource field := (s.registry.field? resource field).isSome
  create := create s
  read := read s

def requests (s : Setting σ) (frame : Frame) (value target : Frame → Ref → Execution σ Data) :
    Requests (StateT (Progress σ) Option) := (means s).requests frame value target

/-- The value of a chunk, where evaluation may go through so many levels. -/
def value (s : Setting σ) (levels : Nat) (frame : Frame) (r : Ref) : Execution σ Data :=
  (means s).value levels frame r

end Execution

namespace Setting

/-- The answer to an entry point that has some value. -/
def answerOf (code : Code) (r : Ref) (outcome : Except EvalError Data) : Answer :=
  let codeId := (code.checksum? r).getD ""
  match outcome with
  | .error e => .failed codeId e.message
  | .ok data =>
    match data.toAnswer codeId with
    | .ok answer => answer
    | .error e => .failed codeId e.message

/-- The answers to entry points, in order. -/
def answers (s : Setting σ) (frame : Frame) :
    List Ref → StateT (Progress σ) Option (List (Ref × Answer))
  | [] => return []
  | r :: rest => do
    let outcome ← (Execution.value s (s.config.maxDepth + 1) frame r).run
    return (r, answerOf frame.code r outcome) :: (← s.answers frame rest)

/-- Puts an answer in its place by number, over any that is there. -/
def putAnswer (r : Ref) (answer : Answer) : List (Ref × Answer) → List (Ref × Answer)
  | [] => [(r, answer)]
  | (q, old) :: rest =>
    if r < q then (r, answer) :: (q, old) :: rest
    else if r = q then (r, answer) :: rest
    else (q, old) :: putAnswer r answer rest

/-- Executes a code with values for its properties. The answers are in the order of the numbers of
the entry points; the last counts if one is there twice. -/
def execute (s : Setting σ) (code : Code) (props : Dict Data) : Work σ (List (Ref × Answer)) :=
  fun session => do
    let (given, after) ← s.answers ⟨code, props⟩ code.entrypoints ⟨[], session⟩
    return (given.foldl (fun acc (r, answer) => putAnswer r answer acc) [], after.session)

end Setting

end AssetQuery
