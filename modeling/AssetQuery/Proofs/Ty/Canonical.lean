import AssetQuery.Proofs.Ty.Encoding

/-!
# Encodings are the only bytes that are decoded

Whatever is read as a type off the front of some bytes is the encoding of that type. So the types
that have encodings and the bytes that are decoded correspond to each other.
-/

namespace AssetQuery.Ty

/-- Whether a byte starts the encodings of the types that a tag tells, and is all of the encoding of
a whole type. -/
def Tag.Starts (b : UInt8) : Tag → Prop
  | whole t => t.encode = .ok [b]
  | array => b = 0x19
  | map => b = 0x1a
  | resource => b = 0x1b

private theorem Tag.starts_of_ofByte? {b : UInt8} {tag : Tag} (h : ofByte? b = some tag) :
    tag.Starts b := by
  unfold ofByte? at h
  split at h <;> cases h <;> rfl

private theorem eq_bytes_of_length {low high : UInt8} {length : Nat}
    (h : low.toNat + 256 * high.toNat = length) :
    length ≤ maxNameLength ∧ UInt8.ofNat (length % 256) = low ∧
      UInt8.ofNat (length / 256) = high := by
  have hlow := low.toNat_lt
  have hhigh := high.toNat_lt
  have hmod : length % 256 = low.toNat := by omega
  have hdiv : length / 256 = high.toNat := by omega
  refine ⟨?_, ?_, ?_⟩
  · rw [maxNameLength]
    omega
  · rw [hmod, UInt8.ofNat_toNat]
  · rw [hdiv, UInt8.ofNat_toNat]

private theorem encode_of_decodeName {bytes rest : Bytes} {name : String}
    (h : decodeName bytes = .ok (name, rest)) :
    ∃ b, (resource name).encode = .ok (0x1b :: b) ∧ bytes = b ++ rest := by
  unfold decodeName at h
  split at h
  · next low high after =>
    simp only at h
    split at h
    · next hlength =>
      split at h
      · next hname =>
        cases h
        have hbytes := Utf8.encode_of_decode hname
        have hcount : (Utf8.encode name).length = low.toNat + 256 * high.toNat := by
          rw [hbytes, List.length_take, Nat.min_eq_left hlength]
        obtain ⟨hmax, hlow, hhigh⟩ := eq_bytes_of_length hcount.symm
        refine ⟨low :: high :: Utf8.encode name, ?_, ?_⟩
        · simp only [encode]
          rw [if_pos hmax, hlow, hhigh]
        · rw [hbytes, List.cons_append, List.cons_append, List.take_append_drop]
      · cases h
    · cases h
  · cases h

private theorem encode_of_decodeLevels {levels : Nat} {bytes rest : Bytes} {t : Ty}
    (h : decodeLevels levels bytes = .ok (t, rest)) :
    ∃ b, t.encode = .ok b ∧ bytes = b ++ rest := by
  induction levels generalizing bytes rest t with
  | zero => cases h
  | succ levels ih =>
    cases bytes with
    | nil => cases h
    | cons first bytes =>
      cases htag : Tag.ofByte? first with
      | none =>
        simp only [decodeLevels, htag] at h
        cases h
      | some tag =>
        have hstarts := Tag.starts_of_ofByte? htag
        simp only [decodeLevels, htag] at h
        cases tag with
        | whole u =>
          cases h
          exact ⟨[first], hstarts, rfl⟩
        | array =>
          obtain rfl : first = 0x19 := hstarts
          obtain ⟨⟨elem, after⟩, helem, h⟩ := Except.bind_eq_ok.mp h
          cases h
          obtain ⟨b, hencode, rfl⟩ := ih helem
          exact ⟨0x19 :: b, Except.bind_eq_ok.mpr ⟨b, hencode, rfl⟩, rfl⟩
        | map =>
          obtain rfl : first = 0x1a := hstarts
          obtain ⟨⟨key, after⟩, hkey, h⟩ := Except.bind_eq_ok.mp h
          obtain ⟨⟨value, after'⟩, hvalue, h⟩ := Except.bind_eq_ok.mp h
          cases h
          obtain ⟨b, hencode, rfl⟩ := ih hkey
          obtain ⟨b', hencode', rfl⟩ := ih hvalue
          refine ⟨0x1a :: (b ++ b'), ?_, by rw [List.cons_append, List.append_assoc]⟩
          exact Except.bind_eq_ok.mpr ⟨b, hencode, Except.bind_eq_ok.mpr ⟨b', hencode', rfl⟩⟩
        | resource =>
          obtain rfl : first = 0x1b := hstarts
          obtain ⟨⟨name, after⟩, hname, h⟩ := Except.bind_eq_ok.mp h
          cases h
          obtain ⟨b, hencode, rfl⟩ := encode_of_decodeName hname
          exact ⟨0x1b :: b, hencode, rfl⟩

/-- A type is read off the front of exactly the bytes that start with its encoding. -/
theorem decodeFront_eq_ok_iff {bytes rest : Bytes} {t : Ty} :
    decodeFront bytes = .ok (t, rest) ↔ ∃ b, t.encode = .ok b ∧ bytes = b ++ rest := by
  constructor
  · exact encode_of_decodeLevels
  · rintro ⟨b, hencode, rfl⟩
    have hlevels : b.length ≤ (b ++ rest).length := by simp
    exact decodeLevels_encode hencode hlevels rest

private theorem encode_of_decode {b : Bytes} {t : Ty} (h : decode b = .ok t) :
    t.encode = .ok b := by
  unfold decode at h
  split at h
  · next hfront =>
    cases h
    obtain ⟨b', hencode, hb⟩ := decodeFront_eq_ok_iff.mp hfront
    rw [hencode, hb, List.append_nil]
  · cases h
  · cases h

/-- Types and their encodings correspond one to one: an encoding is read as its type, whatever
follows it, and nothing but encodings is read. Types have one unless a name in them is too long. -/
theorem encode_bijective (t : Ty) (b rest : Bytes) :
    (t.encode = .ok b → decodeFront (b ++ rest) = .ok (t, rest) ∧ decode b = .ok t) ∧
      (decode b = .ok t → t.encode = .ok b) ∧
      ((∃ e, t.encode = .error e) ↔ ∃ name ∈ t.resourceNames, 65535 < byteLength name) := by
  refine ⟨fun h => ⟨?_, decode_encode h⟩, encode_of_decode, ?_⟩
  · exact decodeFront_eq_ok_iff.mpr ⟨b, h, rfl⟩
  · rw [Except.fails_iff_not_succeeds, encode_succeeds_iff, Classical.not_not]
    rfl

/-- The type `map[string][]package` and its encoding, before an integer's. -/
theorem encode_bijective_packages :
    let t := map string (array (resource "package"))
    let b : Bytes := [0x1a, 0x06, 0x19, 0x1b, 7, 0, 0x70, 0x61, 0x63, 0x6b, 0x61, 0x67, 0x65]
    t.encode = .ok b ∧ decodeFront (b ++ [0x04]) = .ok (t, [0x04]) ∧ decode b = .ok t ∧
      ¬∃ e, t.encode = .error e := by
  intro t b
  have hencode : t.encode = .ok b := by rfl
  have hshort : ¬∃ name ∈ t.resourceNames, 65535 < byteLength name := by decide
  obtain ⟨hread, _, hfails⟩ := encode_bijective t b [0x04]
  obtain ⟨hfront, hdecode⟩ := hread hencode
  exact ⟨hencode, hfront, hdecode, mt hfails.mp hshort⟩

end AssetQuery.Ty
