import AssetQuery.Code.Basic
import AssetQuery.Code.Checksum
import AssetQuery.Proofs.Primitive.Payload

/-!
# Codes that go on

A code goes on from another if it has the same chunks and blocks and then perhaps more. The numbers
of chunks and blocks, and the types of chunks, stay what they were. Numbers are of 32 bits; as long
as there is room, the last number is that of the last chunk or block.
-/

namespace AssetQuery

theorem nth?_ofNat {α : Type} {items : List α} {n : Nat} (h : n + 1 < 2 ^ 31) :
    nth? items (Int32.ofNat (n + 1)) = items[n]? := by
  rw [nth?, Int32.toInt_ofNat_of_lt h, if_pos (by omega)]
  rfl

theorem mem_of_nth? {α : Type} {items : List α} {r : Ref} {a : α} (h : nth? items r = some a) :
    a ∈ items := by
  rw [nth?] at h
  split at h
  · exact List.mem_of_getElem? h
  · cases h

theorem nth?_of_leading {α : Type} {items items' : List α} (hlead : items <+: items') {r : Ref}
    {a : α} (h : nth? items r = some a) : nth? items' r = some a := by
  obtain ⟨rest, rfl⟩ := hlead
  simp only [nth?] at h ⊢
  split at h
  · next hr =>
    obtain ⟨hlt, _⟩ := List.getElem?_eq_some_iff.mp h
    rw [if_pos hr, List.getElem?_append_left hlt, h]
  · cases h

theorem nth?_map {α β : Type} (f : α → β) (items : List α) (r : Ref) :
    nth? (items.map f) r = (nth? items r).map f := by
  simp only [nth?]
  split
  · exact List.getElem?_map
  · rfl

namespace Code

variable {code mid code' : Code}

structure Grows (code : Code) (most : Nat) (code' : Code) : Prop where
  chunks : code.chunks <+: code'.chunks
  functions : code.functions <+: code'.functions
  chunkCount : code'.chunks.length ≤ code.chunks.length + most
  functionCount : code'.functions.length ≤ code.functions.length + most

/-- Whether so many more chunks, and as many blocks, can be numbered. -/
def Room (code : Code) (more : Nat) : Prop :=
  code.chunks.length + more < 2 ^ 31 ∧ code.functions.length + more < 2 ^ 31

theorem Grows.refl (code : Code) (most : Nat) : code.Grows most code :=
  ⟨List.prefix_rfl, List.prefix_rfl, by omega, by omega⟩

theorem Grows.trans {m n : Nat} (h : code.Grows m mid) (h' : mid.Grows n code') :
    code.Grows (m + n) code' :=
  ⟨h.chunks.trans h'.chunks, h.functions.trans h'.functions,
    by have := h.chunkCount; have := h'.chunkCount; omega,
    by have := h.functionCount; have := h'.functionCount; omega⟩

theorem Grows.mono {m n : Nat} (h : code.Grows m code') (hle : m ≤ n) : code.Grows n code' :=
  ⟨h.chunks, h.functions, by have := h.chunkCount; omega, by have := h.functionCount; omega⟩

theorem Grows.addChunk (code : Code) (chunk : Chunk) : code.Grows 1 (code.addChunk chunk) :=
  ⟨List.prefix_append _ _, List.prefix_rfl, by simp [Code.addChunk], by simp [Code.addChunk]⟩

theorem Grows.addFunction (code function : Code) : code.Grows 1 (code.addFunction function) :=
  ⟨List.prefix_rfl, List.prefix_append _ _, by simp [Code.addFunction], by simp [Code.addFunction]⟩

theorem Grows.addEntrypoint (code : Code) (r : Ref) (label : String) :
    code.Grows 0 (code.addEntrypoint r label) :=
  ⟨List.prefix_rfl, List.prefix_rfl, Nat.le_refl _, Nat.le_refl _⟩

theorem Room.mono {m n : Nat} (h : code.Room n) (hle : m ≤ n) : code.Room m :=
  ⟨by have := h.1; omega, by have := h.2; omega⟩

theorem Room.of_grows {m n : Nat} (h : code.Room (m + n)) (hgrows : code.Grows m code') :
    code'.Room n :=
  ⟨by have := h.1; have := hgrows.chunkCount; omega,
    by have := h.2; have := hgrows.functionCount; omega⟩

theorem chunk?_of_leading (h : code.chunks <+: code'.chunks) {r : Ref} {c : Chunk}
    (hc : code.chunk? r = some c) : code'.chunk? r = some c := nth?_of_leading h hc

theorem chunk?_addChunk (h : code.Room 1) (c : Chunk) :
    (code.addChunk c).chunk? (code.addChunk c).lastRef = some c := by
  have hlength : (code.addChunk c).chunks.length = code.chunks.length + 1 := by
    simp [addChunk]
  rw [chunk?, lastRef, hlength, nth?_ofNat h.1]
  simp [addChunk]

theorem function?_addFunction (h : code.Room 1) (function : Code) :
    (code.addFunction function).function? (code.addFunction function).lastFunction =
      some function := by
  have hlength : (code.addFunction function).functions.length = code.functions.length + 1 := by
    simp [addFunction]
  rw [function?, lastFunction, hlength, nth?_ofNat h.2]
  simp [addFunction]

theorem toInt_lastRef_addChunk (h : code.Room 1) (c : Chunk) :
    (code.addChunk c).lastRef.toInt = code.chunks.length + 1 := by
  have hlength : (code.addChunk c).chunks.length = code.chunks.length + 1 := by
    simp [addChunk]
  rw [lastRef, hlength, Int32.toInt_ofNat_of_lt h.1]
  rfl

/-- Without room the number of the last chunk goes below zero and stands for no chunk. -/
theorem chunk?_lastRef_of_full (hfull : 2 ^ 31 ≤ code.chunks.length)
    (hwrap : code.chunks.length < 2 ^ 32) : code.chunk? code.lastRef = none := by
  have hnegative : ¬0 < code.lastRef.toInt := by
    rw [lastRef, Int32.toInt_ofNat', Int.bmod_def, Int32.size]
    split <;> omega
  rw [chunk?, nth?, if_neg hnegative]

theorem stampAll_eq_map (digest : Digest) (codes : List Code) :
    stampAll digest codes = codes.map (stamp digest) := by
  induction codes with
  | nil => rfl
  | cons code rest ih => rw [stampAll, ih, List.map_cons]

/-- Stamping does not change what is executed. -/
theorem stamp_eq (digest : Digest) (code : Code) :
    (code.stamp digest).chunks = code.chunks ∧
      (code.stamp digest).entrypoints = code.entrypoints ∧
      (code.stamp digest).labels = code.labels ∧
      (code.stamp digest).functions = code.functions.map (stamp digest) := by
  obtain ⟨id, chunks, entrypoints, labels, functions, parameters, checksums⟩ := code
  rw [stamp]
  exact ⟨rfl, rfl, rfl, stampAll_eq_map digest functions⟩

section Types

variable {r : Ref} {t : Ty}

theorem chunkType?_of_typeStep (h : code.typeStep r = .inl t) : code.chunkType? r = some t := by
  rw [chunkType?, typeWithin, h]

theorem chunkType_of_typeStep (h : code.typeStep r = .inl t) : code.chunkType r = t := by
  rw [chunkType, chunkType?_of_typeStep h]
  rfl

theorem chunkType?_call {name : String} {binding : Ref} {args : List Primitive}
    (h : code.chunk? r = some (.call name t binding args)) : code.chunkType? r = some t := by
  apply chunkType?_of_typeStep
  rw [typeStep, h]
  rfl

theorem chunkType_call {name : String} {binding : Ref} {args : List Primitive}
    (h : code.chunk? r = some (.call name t binding args)) : code.chunkType r = t := by
  rw [chunkType, chunkType?_call h]
  rfl

theorem chunkType_ofPrimitive {p : Primitive} (h : code.chunk? r = some (.ofPrimitive p))
    (hp : p.typ ≠ .ref) : code.chunkType r = p.typ := by
  apply chunkType_of_typeStep
  rw [typeStep, h]
  exact if_neg hp

theorem chunkType_property {name : String} (h : code.chunk? r = some (.property name t))
    (ht : t ≠ .ref) : code.chunkType r = t := by
  apply chunkType_of_typeStep
  rw [typeStep, h]
  exact if_neg ht

theorem dereference_ref (code : Code) (r : Ref) :
    code.dereference (.ref r) = code.chunkType r := by
  have hr : (Primitive.ref r).asRef = .ok r := Primitive.asRef_scalar .ref r
  have htyp : (Primitive.ref r).typ = .ref := rfl
  rw [dereference, dereference?, if_pos htyp, hr]
  rfl

theorem dereference_of_ne_ref (code : Code) {p : Primitive} (hp : p.typ ≠ .ref) :
    code.dereference p = p.typ := by
  rw [dereference, dereference?, if_neg hp]
  rfl

end Types

end Code

end AssetQuery
