/-!
# UTF-8 text in bytes

Texts and their bytes. Reading either gives the only text with those bytes or says where the bytes
stop being UTF-8.
-/

namespace AssetQuery

/-- A string of bytes. -/
abbrev Bytes := List UInt8

namespace Utf8

/-- Why bytes are not UTF-8: after `start` good bytes either a sequence is broken, its first
`count` bytes being what no text holds, or the bytes end inside a sequence. -/
inductive Fault where
  | invalid (start count : Nat)
  | incomplete (start : Nat)
  deriving DecidableEq, Repr

def Fault.message : Fault → String
  | .invalid start count => s!"invalid utf-8 sequence of {count} bytes from index {start}"
  | .incomplete start => s!"incomplete utf-8 byte sequence from index {start}"

/-- What a sequence still owes: the range of its next byte, and the count of plain continuation
bytes after that one. -/
structure Owed where
  low : UInt8
  high : UInt8
  more : Nat

/-- What a first byte above 0x7f makes owed, if any sequence starts with it. -/
def Owed.ofFirst? (b : UInt8) : Option Owed :=
  if 0xc2 ≤ b && b ≤ 0xdf then some ⟨0x80, 0xbf, 0⟩
  else if b == 0xe0 then some ⟨0xa0, 0xbf, 1⟩
  else if b == 0xed then some ⟨0x80, 0x9f, 1⟩
  else if 0xe1 ≤ b && b ≤ 0xef then some ⟨0x80, 0xbf, 1⟩
  else if b == 0xf0 then some ⟨0x90, 0xbf, 2⟩
  else if 0xf1 ≤ b && b ≤ 0xf3 then some ⟨0x80, 0xbf, 2⟩
  else if b == 0xf4 then some ⟨0x80, 0x8f, 2⟩
  else none

/-- Scans for the first fault. `start` is where the current sequence begins, `seen` the number of
its bytes already read and `owed` what it still owes. -/
def scan (start seen : Nat) (owed : Option Owed) : Bytes → Option Fault
  | [] => owed.map fun _ => .incomplete start
  | b :: rest =>
    match owed with
    | none =>
      if b < 0x80 then scan (start + 1) 0 none rest
      else match Owed.ofFirst? b with
        | none => some (.invalid start 1)
        | some o => scan start 1 (some o) rest
    | some o =>
      if o.low ≤ b && b ≤ o.high then
        match o.more with
        | 0 => scan (start + seen + 1) 0 none rest
        | more + 1 => scan start (seen + 1) (some ⟨0x80, 0xbf, more⟩) rest
      else some (.invalid start seen)

/-- The bytes of a text. -/
def encode (s : String) : Bytes := s.toUTF8.data.toList

/-- The text with the given bytes, or the first fault in them. -/
def decode (bytes : Bytes) : Except Fault String :=
  match String.fromUTF8? ⟨bytes.toArray⟩ with
  | some s => .ok s
  | none => .error ((scan 0 0 none bytes).getD (.incomplete 0))

theorem decode_encode (s : String) : decode (encode s) = .ok s := by
  simp [decode, encode, String.fromUTF8?, s.isValidUTF8, String.fromUTF8]

theorem encode_of_decode {bytes : Bytes} {s : String} (h : decode bytes = .ok s) :
    encode s = bytes := by
  simp only [decode, String.fromUTF8?] at h
  split at h
  · next t ht =>
    split at ht
    · cases h
      cases ht
      simp [encode, String.toUTF8, String.fromUTF8]
    · cases ht
  · cases h

end Utf8

/-- The number of bytes of a text. -/
def byteLength (s : String) : Nat := s.utf8ByteSize

end AssetQuery
