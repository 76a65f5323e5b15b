import AssetQuery.Builtin.Apply
import AssetQuery.Code.Basic

/-!
# The value of a chunk

What a chunk evaluates to, given the values of the chunks that it refers to. How those come about,
and how blocks are run and resources asked, is left open. Where evaluation has a limit to its depth
and a memory of values, it is left open what the memory is and who shares it.
-/

namespace AssetQuery

/-- A code with values for its properties. -/
structure Frame where
  code : Code
  props : Dict Data

/-- A block about an element. -/
def Frame.ofBlock (block : Code) (element : Data) : Frame :=
  ⟨block, Dict.empty.insert "_" element⟩

/-- What the evaluation of a chunk may ask for. -/
structure Requests (m : Type → Type) where
  /-- The value of another chunk. -/
  chunk : Ref → ExceptT EvalError m Data
  /-- The value of the chunk that this one is a reference to. -/
  target : Ref → ExceptT EvalError m Data
  block : Ref → Data → ExceptT EvalError m Row
  /-- Whether a resource declares a field. -/
  declares : (resource field : String) → Bool
  create : String → Dict Data → ExceptT EvalError m Data
  read : (name id field : String) → ExceptT EvalError m Data

namespace Eval

variable {m : Type → Type} [Monad m]

/-- Goes on with what was read from a primitive. -/
def ofSerial {α : Type} : Except SerialError α → ExceptT EvalError m α
  | .ok a => return a
  | .error e => throw (.serial e)

/-- The value of an argument: that of the chunk it refers to, or its own. -/
def operand (q : Requests m) (p : Primitive) : ExceptT EvalError m Data :=
  if p.typ = .ref then do q.chunk (← ofSerial p.asRef) else ofSerial p.toData

/-- The arguments of a resource, of which names and values alternate. -/
def namedArgs (q : Requests m) (resource : String) (args : Dict Data) :
    List Primitive → ExceptT EvalError m (Dict Data)
  | [] => return args
  | [_] => throw (.invalidArgument resource .unpaired)
  | name :: value :: rest => do
    let name ← ofSerial name.asText
    let data ← operand q value
    namedArgs q resource (args.insert name data) rest

/-- Whether a call on a receiver of some type reads a field. -/
def readsField (q : Requests m) (receiver : Ty) (name : String) : Bool :=
  receiver.resourceName?.any fun resource => q.declares resource name

/-- The value of a call. A failed receiver fails it; declared fields come before functions. -/
def call (q : Requests m) (chunk : Chunk) : ExceptT EvalError m Data := do
  let t := (chunk.function.map (·.typ)).getD .any
  if chunk.binding = 0 then q.create chunk.id (← namedArgs q chunk.id .empty chunk.args)
  else
    let receiver ← q.chunk chunk.binding
    match receiver.error with
    | some error => return .failed t error
    | none =>
      if readsField q receiver.typ chunk.id then
        match receiver.value with
        | .resource name id => q.read name id chunk.id
        | _ => return .of .nil t
      else
        let args ← chunk.args.mapM (operand q)
        Builtin.apply q.block chunk.id t receiver args

/-- The value of a constant chunk. One that refers to itself does not lead to a chunk. -/
def constant (q : Requests m) (r : Ref) : Option Primitive → ExceptT EvalError m Data
  | none => return .nil
  | some p =>
    if p.typ = .ref then do
      let target ← ofSerial p.asRef
      if target = r then throw (.invalidReference r) else q.target target
    else ofSerial p.toData

/-- The value of a chunk. -/
def chunk (q : Requests m) (frame : Frame) (r : Ref) : ExceptT EvalError m Data :=
  match frame.code.chunk? r with
  | none => throw (.invalidReference r)
  | some chunk =>
    match chunk.kind with
    | .primitive => constant q r chunk.primitive
    | .property =>
      match frame.props.find? chunk.id with
      | some data => return data
      | none => throw (.missingProperty chunk.id)
    | .function => call q chunk

/-- The row of a block for an element, where `value` gives the values of chunks. -/
def row (value : Frame → Ref → ExceptT EvalError m Data) (frame : Frame) (r : Ref)
    (element : Data) : ExceptT EvalError m Row :=
  match frame.code.function? r with
  | none => throw (.invalidFunction r)
  | some block =>
    let frame := Frame.ofBlock block element
    block.entrypoints.mapM fun r => do return ((block.labels.lookup r).getD "", ← value frame r)

/-- The value that is recalled, or else the one worked out, which is then kept. -/
def remember (remembered : ExceptT EvalError m (Option Data))
    (keep : Data → ExceptT EvalError m PUnit) (x : ExceptT EvalError m Data) :
    ExceptT EvalError m Data := do
  match ← remembered with
  | some data => return data
  | none =>
    let data ← x
    keep data
    return data

end Eval

/-- What evaluation with a memory and a limit to its depth is put together from. -/
structure Means (m : Type → Type) where
  maxDepth : Nat
  /-- What is done about the evaluation of a chunk in a frame, whatever comes of it. -/
  visit : Frame → Ref → ExceptT EvalError m Data → ExceptT EvalError m Data
  /-- The value remembered for a chunk, or else the one worked out. -/
  remember : Ref → ExceptT EvalError m Data → ExceptT EvalError m Data
  /-- Starts without the values of chunks and leaves those that were there as they were. -/
  isolated : ExceptT EvalError m Row → ExceptT EvalError m Row
  declares : (resource field : String) → Bool
  create : String → Dict Data → ExceptT EvalError m Data
  read : (name id field : String) → ExceptT EvalError m Data

namespace Means

variable {m : Type → Type} [Monad m]

/-- What the evaluation of a chunk asks for, where `value` and `target` give the values of other
chunks. -/
def requests (means : Means m) (frame : Frame)
    (value target : Frame → Ref → ExceptT EvalError m Data) : Requests m where
  chunk := value frame
  target := target frame
  block r element := means.isolated (Eval.row value frame r element)
  declares := means.declares
  create := means.create
  read := means.read

def tooDeep (means : Means m) (frame : Frame) (r : Ref) : ExceptT EvalError m Data :=
  means.visit frame r (throw (.depthExceeded means.maxDepth))

/-- The value of a chunk, where evaluation may go through so many levels. A reference to another
chunk takes two. -/
def value (means : Means m) : (levels : Nat) → Frame → Ref → ExceptT EvalError m Data
  | 0 => means.tooDeep
  | levels + 1 => fun frame r =>
    let target : Frame → Ref → ExceptT EvalError m Data :=
      match levels with
      | 0 => means.tooDeep
      | fewer + 1 => means.value fewer
    means.visit frame r <|
      means.remember r (Eval.chunk (means.requests frame (means.value levels) target) frame r)

/-- Below a chunk there is a level less for the chunks it uses, and two less for one that it is a
reference to. -/
theorem value_succ (means : Means m) (levels : Nat) (frame : Frame) (r : Ref) :
    means.value (levels + 1) frame r =
      means.visit frame r (means.remember r
        (Eval.chunk (means.requests frame (means.value levels) (means.value (levels - 1))) frame
          r)) := by
  cases levels <;> rfl

end Means

end AssetQuery
