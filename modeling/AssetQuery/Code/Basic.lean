import AssetQuery.Entries
import AssetQuery.Primitive.Basic

/-!
# Code

A compiled query: a log of chunks, each of which refers only to chunks before it when it was
compiled, and the blocks that chunks use, which are codes themselves. Chunks and blocks are numbered
from 1.

A chunk has the type of what it gives, and a chunk that is a reference that of the chunk it leads
to. Following references from a chunk may run in a circle, and then there is no type.
-/

namespace AssetQuery

/-- The call of a function: what it gives, the chunk it is called on, 0 if none, and its
arguments. -/
structure FunctionCall where
  typ : Ty
  binding : Ref
  args : List Primitive
  deriving Inhabited, Repr, BEq

/-- A chunk is a constant, a call, or a property that the caller supplies. -/
inductive ChunkKind where
  | primitive | function | property
  deriving DecidableEq, Inhabited, Repr

/-- A step of a code. Its kind tells which of the parts count. -/
structure Chunk where
  kind : ChunkKind
  id : String
  function : Option FunctionCall
  primitive : Option Primitive
  deriving Inhabited, Repr, BEq

namespace Chunk

/-- A constant. It is named for its type. -/
def ofPrimitive (p : Primitive) : Chunk := ⟨.primitive, p.typ.label, none, some p⟩

/-- The call of `id` on the chunk `binding`, or of the resource `id` if that is 0. -/
def call (id : String) (typ : Ty) (binding : Ref) (args : List Primitive) : Chunk :=
  ⟨.function, id, some ⟨typ, binding, args⟩, none⟩

/-- A value of a declared type that the caller supplies. -/
def property (name : String) (typ : Ty) : Chunk :=
  ⟨.property, name, none, some (.scalar typ [])⟩

def binding (c : Chunk) : Ref := (c.function.map (·.binding)).getD 0

def args (c : Chunk) : List Primitive := (c.function.map (·.args)).getD []

end Chunk

/-- A compiled query. -/
structure Code where
  /-- The checksum over all entry points. -/
  id : String
  chunks : List Chunk
  entrypoints : List Ref
  labels : List (Ref × String)
  functions : List Code
  /-- The number of leading property chunks that the caller binds. -/
  parameters : Int32
  checksums : List (Ref × String)
  deriving Inhabited, Repr, BEq

/-- The entry with a number, counted from 1. -/
def nth? {α : Type} (items : List α) (r : Ref) : Option α :=
  if 0 < r.toInt then items[r.toInt.toNat - 1]? else none

namespace Code

def empty : Code := ⟨"", [], [], [], [], 0, []⟩

/-- The number of the last chunk. -/
def lastRef (code : Code) : Ref := Int32.ofNat code.chunks.length

def chunk? (code : Code) (r : Ref) : Option Chunk := nth? code.chunks r

def function? (code : Code) (r : Ref) : Option Code := nth? code.functions r

def addChunk (code : Code) (chunk : Chunk) : Code :=
  { code with chunks := code.chunks ++ [chunk] }

def addFunction (code : Code) (function : Code) : Code :=
  { code with functions := code.functions ++ [function] }

/-- The number of the last block. -/
def lastFunction (code : Code) : Ref := Int32.ofNat code.functions.length

def addEntrypoint (code : Code) (r : Ref) (label : String) : Code :=
  { code with
    entrypoints := code.entrypoints ++ [r]
    labels := Table.put r label code.labels }

def checksum? (code : Code) (r : Ref) : Option String := code.checksums.lookup r

/-- What is known of a chunk's type without going further: the type, or the chunk that it is a
reference to. A reference to itself is taken as it stands. -/
def typeStep (code : Code) (r : Ref) : Ty ⊕ Ref :=
  match code.chunk? r with
  | none => .inl .any
  | some c =>
    match c.kind with
    | .function => .inl ((c.function.map (·.typ)).getD .any)
    | .primitive | .property =>
      match c.primitive with
      | none => .inl .any
      | some p =>
        if p.typ = .ref then
          match p.asRef with
          | .ok next => if next = r then .inl .ref else .inr next
          | .error _ => .inl .any
        else .inl p.typ

/-- The type that is found within a number of steps. -/
def typeWithin (code : Code) : (steps : Nat) → Ref → Option Ty
  | 0, _ => none
  | steps + 1, r =>
    match code.typeStep r with
    | .inl t => some t
    | .inr next => code.typeWithin steps next

/-- The type of a chunk, if following references from it comes to an end. It does so within a step
for each chunk and one more, or never. -/
def chunkType? (code : Code) (r : Ref) : Option Ty := code.typeWithin (code.chunks.length + 1) r

/-- The type of a primitive that stands in a code: a reference has the type of its chunk. -/
def dereference? (code : Code) (p : Primitive) : Option Ty :=
  if p.typ = .ref then
    match p.asRef with
    | .ok r => code.chunkType? r
    | .error _ => some .any
  else some p.typ

/-- The type of a chunk of a code without circles. -/
def chunkType (code : Code) (r : Ref) : Ty := (code.chunkType? r).getD .any

/-- The type of a primitive in a code without circles. -/
def dereference (code : Code) (p : Primitive) : Ty := (code.dereference? p).getD .any

end Code

end AssetQuery
