import AssetQuery.Primitive.Wire
import AssetQuery.Proofs.Wire

/-!
# Types read back

The compact encoding of a type is read off the front of whatever follows it. It exists unless the
type holds the name of a resource that is too long for its two bytes of length.
-/

namespace AssetQuery.Ty

/-- The names of resources in a type. -/
def resourceNames : Ty → List String
  | array elem => elem.resourceNames
  | map key value => key.resourceNames ++ value.resourceNames
  | resource name => [name]
  | _ => []

/-- Whether some resource in a type has a name that is too long to be encoded. -/
def NameTooLong (t : Ty) : Prop := ∃ name ∈ t.resourceNames, maxNameLength < byteLength name

instance : DecidablePred NameTooLong := fun t =>
  inferInstanceAs (Decidable (∃ name ∈ t.resourceNames, maxNameLength < byteLength name))

private theorem length_encode (s : String) : (Utf8.encode s).length = byteLength s := by
  rw [Utf8.encode, Array.length_toList]
  rfl

/-- A type has an encoding exactly if none of its names is too long. -/
theorem encode_succeeds_iff (t : Ty) : (∃ b, t.encode = .ok b) ↔ ¬t.NameTooLong := by
  induction t with
  | array elem ih =>
    have helem : (array elem).NameTooLong ↔ elem.NameTooLong := Iff.rfl
    rw [helem, ← ih]
    exact Except.bind_pure_succeeds_iff
  | map key value ihkey ihvalue =>
    have hparts : (map key value).NameTooLong ↔ key.NameTooLong ∨ value.NameTooLong := by
      simp only [NameTooLong, resourceNames, List.mem_append, or_and_right, exists_or]
    rw [hparts, not_or, ← ihkey, ← ihvalue]
    simp only [encode, Except.bind_eq_ok, pure, Except.pure, Except.ok.injEq]
    exact Except.both_succeed_iff
  | resource name =>
    simp only [NameTooLong, resourceNames, List.mem_singleton, exists_eq_left, Nat.not_lt, encode,
      length_encode]
    split
    · next h => exact ⟨fun _ => h, fun _ => ⟨_, rfl⟩⟩
    · next h =>
      refine ⟨?_, fun h' => absurd h' h⟩
      rintro ⟨_, h'⟩
      cases h'
  | _ =>
    refine ⟨?_, fun _ => ⟨_, rfl⟩⟩
    rintro _ ⟨_, h, _⟩
    cases h

private theorem decodeName_encode {name : String} (h : (Utf8.encode name).length ≤ maxNameLength)
    (rest : Bytes) :
    decodeName (UInt8.ofNat ((Utf8.encode name).length % 256) ::
      UInt8.ofNat ((Utf8.encode name).length / 256) :: (Utf8.encode name ++ rest)) =
      .ok (name, rest) := by
  have hlow : (UInt8.ofNat ((Utf8.encode name).length % 256)).toNat =
      (Utf8.encode name).length % 256 := UInt8.toNat_ofNat_of_lt' (Nat.mod_lt _ (by decide))
  have hhigh : (UInt8.ofNat ((Utf8.encode name).length / 256)).toNat =
      (Utf8.encode name).length / 256 := by
    have hsize : (Utf8.encode name).length / 256 < 256 := by
      rw [maxNameLength] at h
      omega
    exact UInt8.toNat_ofNat_of_lt' hsize
  rw [decodeName, hlow, hhigh, Nat.mod_add_div, if_pos (by simp), List.take_left,
    Utf8.decode_encode, List.drop_left]

private theorem encode_eq_cons {t : Ty} {b : Bytes} (h : t.encode = .ok b) :
    ∃ b', b = t.tag :: b' := by
  cases t with
  | array elem =>
    obtain ⟨b', _, h⟩ := Except.bind_eq_ok.mp h
    cases h
    exact ⟨b', rfl⟩
  | map key value =>
    obtain ⟨b', _, h⟩ := Except.bind_eq_ok.mp h
    obtain ⟨b'', _, h⟩ := Except.bind_eq_ok.mp h
    cases h
    exact ⟨b' ++ b'', rfl⟩
  | resource name =>
    rw [encode] at h
    split at h
    · cases h
      exact ⟨_, rfl⟩
    · cases h
  | _ =>
    cases h
    exact ⟨[], rfl⟩

theorem decodeLevels_encode {t : Ty} {b : Bytes} {levels : Nat} (h : t.encode = .ok b)
    (hlevels : b.length ≤ levels) (rest : Bytes) :
    decodeLevels levels (b ++ rest) = .ok (t, rest) := by
  -- a level less is enough for the parts, since each of them leaves out the tag
  induction levels generalizing t b rest with
  | zero =>
    obtain ⟨b', rfl⟩ := encode_eq_cons h
    exact absurd hlevels (Nat.not_succ_le_zero _)
  | succ levels ih =>
    cases t with
    | array elem =>
      obtain ⟨b', helem, h⟩ := Except.bind_eq_ok.mp h
      cases h
      have hread := ih helem (Nat.le_of_succ_le_succ hlevels) rest
      have htag : Tag.ofByte? 0x19 = some .array := rfl
      simp only [List.cons_append, decodeLevels, htag, hread]
      rfl
    | map key value =>
      obtain ⟨b', hkey, h⟩ := Except.bind_eq_ok.mp h
      obtain ⟨b'', hvalue, h⟩ := Except.bind_eq_ok.mp h
      cases h
      rw [List.length_cons, List.length_append] at hlevels
      have hreadKey := ih hkey (by omega) (b'' ++ rest)
      have hreadValue := ih hvalue (by omega) rest
      have htag : Tag.ofByte? 0x1a = some .map := rfl
      simp only [List.cons_append, List.append_assoc, decodeLevels, htag, hreadKey]
      show (decodeLevels levels (b'' ++ rest) >>= fun p => pure (map key p.1, p.2)) = _
      rw [hreadValue]
      rfl
    | resource name =>
      rw [encode] at h
      split at h
      · next hlength =>
        cases h
        have hread := decodeName_encode hlength rest
        have htag : Tag.ofByte? 0x1b = some .resource := rfl
        simp only [List.cons_append, decodeLevels, htag, hread]
        rfl
      · cases h
    | _ =>
      cases h
      rfl

theorem decode_encode {t : Ty} {b : Bytes} (h : t.encode = .ok b) : decode b = .ok t := by
  have hread := decodeLevels_encode h (Nat.le_refl _) []
  rw [List.append_nil] at hread
  rw [decode, decodeFront, hread]

theorem writeWire_succeeds_iff (t : Ty) : (∃ b, t.writeWire = .ok b) ↔ ¬t.NameTooLong := by
  rw [← encode_succeeds_iff]
  exact Except.bind_pure_succeeds_iff

/-- Values are written exactly if all types in them have encodings, if that is so for each of
them. -/
theorem writeEach_succeeds_iff {α : Type} {write : α → Except TyError Bytes} {types : α → List Ty}
    {as : List α} (h : ∀ a ∈ as, (∃ b, write a = .ok b) ↔ ∀ t ∈ types a, ¬t.NameTooLong) :
    (∃ bs, Wire.writeEach write as = .ok bs) ↔ ∀ t ∈ as.flatMap types, ¬t.NameTooLong := by
  rw [Wire.writeEach_succeeds_iff]
  simp only [List.mem_flatMap]
  constructor
  · rintro hwrite t ⟨a, ha, ht⟩
    exact (h a ha).mp (hwrite a ha) t ht
  · intro htypes a ha
    exact (h a ha).mpr fun t ht => htypes t ⟨a, ha, ht⟩

/-- What is written exactly if all types in it have encodings fails exactly on a name that is too
long. -/
theorem fails_iff {α : Type} {x : Except TyError α} {types : List Ty}
    (h : (∃ a, x = .ok a) ↔ ∀ t ∈ types, ¬t.NameTooLong) :
    (∃ e, x = .error e) ↔ ∃ t ∈ types, t.NameTooLong := by
  rw [Except.fails_iff_not_succeeds, h]
  simp only [Classical.not_forall, Classical.not_not, exists_prop]

theorem restores_writeWire {room : Nat} (hroom : room < UInt64.size) (t : Ty) :
    Wire.Restores room writeWire readWire t := by
  intro b hwrite hlength
  obtain ⟨bytes, hencode, h⟩ := Except.bind_eq_ok.mp hwrite
  cases h
  rw [Wire.writeBytes, List.length_append] at hlength ⊢
  have hpos := Wire.length_varint_pos bytes.length
  constructor
  · omega
  · apply (Wire.Reader.reads_bytes (by omega)).map
    rw [decode_encode hencode]

end AssetQuery.Ty
