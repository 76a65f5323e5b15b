import AssetQuery.Code.Basic
import AssetQuery.Digest
import AssetQuery.Ty.Encoding

/-!
# Checksums

Every chunk has a checksum over what it does and all that it depends on, in which the chunks and
blocks it refers to stand by their own checksums, never by their numbers. The id of a code is a
checksum over its entry points.
-/

namespace AssetQuery

/-- A digest of bytes, shown as text. -/
abbrev Digest := Bytes → String

/-- SHA-256 in base 64. -/
def sha256Digest : Digest := fun bytes => Base64.encode (Sha256.digest bytes)

namespace Checksum

/-- Bytes after their number. -/
def sized (bytes : Bytes) : Bytes := littleEndian 8 bytes.length ++ bytes

def ofText (s : String) : Bytes := sized (Utf8.encode s)

/-- The encoding of a type, or its label if it has none. -/
def ofTy (t : Ty) : Bytes :=
  match t.encode with
  | .ok bytes => sized bytes
  | .error _ => ofText t.label

/-- The checksums that chunks and blocks stand by. -/
structure Names where
  chunk : Ref → String
  block : Ref → String

/-- What a primitive holds beside its type, items and entries. -/
def payload (names : Names) (p : Primitive) : Bytes :=
  match p.typ with
  | .ref =>
    match p.asRef with
    | .ok r => ofText (names.chunk r)
    | .error _ => []
  | .functionLike =>
    match p.asRef with
    | .ok r => ofText (names.block r)
    | .error _ => ofText ""
  | _ => sized p.bytes

mutual

def ofPrimitive (names : Names) : Primitive → Bytes
  | ⟨typ, bytes, items, entries⟩ =>
    ofTy typ ++ payload names (.scalar typ bytes) ++ ofItems names items ++ ofEntries names entries

def ofItems (names : Names) : List Primitive → Bytes
  | [] => []
  | p :: rest => ofPrimitive names p ++ ofItems names rest

def ofEntries (names : Names) : List (String × Primitive) → Bytes
  | [] => []
  | (key, p) :: rest => ofText key ++ ofPrimitive names p ++ ofEntries names rest

end

def ofKind : ChunkKind → UInt8
  | .primitive => 1
  | .function => 2
  | .property => 3

def ofCall (names : Names) (f : FunctionCall) : Bytes :=
  ofTy f.typ ++ (if 0 < f.binding.toInt then ofText (names.chunk f.binding) else []) ++
    ofItems names f.args

/-- What the checksum of a chunk covers. -/
def ofChunk (names : Names) (c : Chunk) : Bytes :=
  ofKind c.kind :: (ofText c.id ++ ((c.primitive.map (ofPrimitive names)).getD []) ++
    ((c.function.map (ofCall names)).getD []))

/-- The checksums of chunks after those in `sums`, each of which may use the ones before it. -/
def ofChunks (digest : Digest) (block : Ref → String) (sums : List (Ref × String)) :
    List Chunk → List (Ref × String)
  | [] => sums
  | c :: rest =>
    let names : Names := ⟨fun r => (sums.lookup r).getD "", block⟩
    let sum := digest (ofChunk names c)
    ofChunks digest block (sums ++ [(Int32.ofNat (sums.length + 1), sum)]) rest

/-- What the id of a code covers. -/
def ofEntrypoints (sums : List (Ref × String)) (entrypoints : List Ref) : Bytes :=
  entrypoints.flatMap fun r => ofText ((sums.lookup r).getD "")

end Checksum

namespace Code

mutual

/-- The code with its checksums and id worked out, and those of its blocks. -/
def stamp (digest : Digest) : Code → Code
  | ⟨_, chunks, entrypoints, labels, functions, parameters, _⟩ =>
    let functions := stampAll digest functions
    let block (r : Ref) : String := ((nth? functions r).map (·.id)).getD ""
    let sums := Checksum.ofChunks digest block [] chunks
    ⟨digest (Checksum.ofEntrypoints sums entrypoints), chunks, entrypoints, labels, functions,
      parameters, sums⟩

def stampAll (digest : Digest) : List Code → List Code
  | [] => []
  | code :: rest => code.stamp digest :: stampAll digest rest

end

end Code

end AssetQuery
