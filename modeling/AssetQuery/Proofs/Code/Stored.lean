import AssetQuery.Data.Answer
import AssetQuery.Proofs.Code.Wire

/-!
# Stored codes and answers

A stored code is read back whatever follows it, and no part of it that is cut short is read at all.
A stored answer is read back likewise. Both can be stored unless the name of some resource in them
is too long, or the code is.
-/

namespace AssetQuery

namespace Code

/-- What stands before the bytes of a code: the letters, the version and the number of bytes. -/
def header (length : Nat) : Bytes :=
  magic ++ (littleEndian 4 formatVersion ++ littleEndian 4 length)

theorem length_magic : magic.length = 4 := by decide +kernel

theorem length_header (length : Nat) : (header length).length = 12 := by
  simp only [header, List.length_append, length_magic, length_littleEndian]

theorem write_eq_ok {c : Code} {b : Bytes} (h : c.write = .ok b) :
    ∃ body, c.writeWire = .ok body ∧ body.length < UInt32.size ∧
      b = header body.length ++ body := by
  rw [write] at h
  split at h
  · cases h
  · next body hbody =>
    split at h
    · next hsmall =>
      cases h
      refine ⟨body, hbody, hsmall, ?_⟩
      simp only [header, List.append_assoc]
    · cases h

private theorem write_fails_iff (c : Code) :
    (∃ e, c.write = .error e) ↔
      (∃ t ∈ c.types, t.NameTooLong) ∨
        ∃ body, c.writeWire = .ok body ∧ UInt32.size ≤ body.length := by
  rw [← Ty.fails_iff (writeWire_succeeds_iff c), write]
  cases c.writeWire with
  | error e => exact ⟨fun _ => .inl ⟨e, rfl⟩, fun _ => ⟨_, rfl⟩⟩
  | ok body =>
    by_cases hsmall : body.length < UInt32.size
    · simp only [if_pos hsmall]
      constructor
      · rintro ⟨_, h⟩
        cases h
      · rintro (⟨_, h⟩ | ⟨_, h, hlarge⟩)
        · cases h
        · cases h
          omega
    · simp only [if_neg hsmall]
      exact ⟨fun _ => .inr ⟨body, rfl, by omega⟩, fun _ => ⟨_, rfl⟩⟩

theorem read_header_append {length : Nat} (h : length < UInt32.size) (rest : Bytes) :
    read (header length ++ rest) =
      if rest.length < length then .error (.invalidContainer .truncated)
      else match readWire (rest.take length) with
        | .ok (code, _) => .ok code
        | .error e => .error (.encoding (.codeNotRead e)) := by
  have hbytes : ¬(header length ++ rest).length < 12 := by
    rw [List.length_append, length_header]
    omega
  have hbody : (header length ++ rest).drop 12 = rest := List.drop_left' (length_header length)
  have hmagic : (header length ++ rest).take 4 = magic := by
    rw [header, List.append_assoc, List.take_left' length_magic]
  have hversion : ofLittleEndian (((header length ++ rest).drop 4).take 4) = formatVersion := by
    rw [header, List.append_assoc, List.drop_left' length_magic, List.append_assoc,
      List.take_left' (length_littleEndian 4 _), ofLittleEndian_littleEndian]
    rfl
  have hlength : ofLittleEndian (((header length ++ rest).drop 8).take 4) = length := by
    rw [header, ← List.append_assoc magic, List.append_assoc (magic ++ _),
      List.drop_left' (by rw [List.length_append, length_magic, length_littleEndian]),
      List.take_left' (length_littleEndian 4 _), ofLittleEndian_littleEndian]
    exact Nat.mod_eq_of_lt h
  have hknown : knowsVersion formatVersion = true := rfl
  rw [read, if_neg hbytes, if_neg (not_not_intro hmagic)]
  cases hread : readWire (rest.take length) with
  | ok found =>
    simp only [hversion, hlength, hbody, hknown, Bool.not_true, Bool.false_eq_true, if_false, hread]
  | error e =>
    simp only [hversion, hlength, hbody, hknown, Bool.not_true, Bool.false_eq_true, if_false, hread]

/-- A stored code is read back whatever follows it. -/
theorem read_append_of_write {c : Code} {b : Bytes} (hkeyed : c.WellKeyed) (h : c.write = .ok b)
    (s : Bytes) : read (b ++ s) = .ok c := by
  obtain ⟨body, hbody, hsmall, rfl⟩ := write_eq_ok h
  have hroom : body.length < UInt64.size := Nat.lt_trans hsmall (by decide)
  have hread := (restores_writeWire hkeyed hroom body hbody (Nat.le_refl _)).2 []
  rw [List.append_nil] at hread
  rw [List.append_assoc, read_header_append hsmall, if_neg (by simp), List.take_left, hread]

private theorem read_fails_of_cut {c : Code} {b cut : Bytes} (h : c.write = .ok b)
    (hcut : cut <+: b) (hne : cut ≠ b) : ∃ e, read cut = .error e := by
  obtain ⟨body, _, hsmall, rfl⟩ := write_eq_ok h
  -- behind the header the number in it tells that bytes are missing
  by_cases hshort : cut.length < 12
  · rw [read, if_pos hshort]
    exact ⟨_, rfl⟩
  · have hheader : header body.length <+: cut :=
      List.prefix_of_prefix_length_le (List.prefix_append _ _) hcut
        (by rw [length_header]; omega)
    obtain ⟨rest, rfl⟩ := hheader
    have hrest : rest <+: body := (List.prefix_append_right_inj _).mp hcut
    have hlength : rest.length < body.length := by
      apply Nat.lt_of_le_of_ne hrest.length_le
      intro heq
      exact hne (congrArg _ (hrest.eq_of_length heq))
    rw [read_header_append hsmall, if_pos hlength]
    exact ⟨_, rfl⟩

end Code

namespace Answer

private theorem write_fails_iff (a : Answer) :
    (∃ e, a.write = .error e) ↔ ∃ t ∈ a.data.types, t.NameTooLong := by
  rw [← Ty.fails_iff a.data.writeWire_succeeds_iff, write]
  cases a.data.writeWire with
  | error e => exact ⟨fun _ => ⟨e, rfl⟩, fun _ => ⟨_, rfl⟩⟩
  | ok data =>
    constructor
    · rintro ⟨_, h⟩
      cases h
    · rintro ⟨_, h⟩
      cases h

private theorem reads_writeOption {o : Option String} (h : (writeOption o).length < UInt64.size) :
    (Wire.Reader.optional .text).Reads (writeOption o) o := by
  cases o with
  | none => exact Wire.Reader.reads_none .text
  | some s =>
    simp only [writeOption, Wire.writeText, Wire.writeBytes, List.length_cons,
      List.length_append] at h
    exact (Wire.Reader.reads_text (by omega)).some

private theorem read_append_of_write {a : Answer} {b : Bytes} (hsorted : a.data.Sorted)
    (hlength : b.length < UInt64.size) (h : a.write = .ok b) (s : Bytes) :
    read (b ++ s) = .ok a := by
  rw [write] at h
  split at h
  · next bd hdata =>
    cases h
    simp only [Wire.writeText, Wire.writeBytes, List.length_append] at hlength
    have hcodeId := Wire.Reader.reads_text (s := a.codeId) (by omega)
    have hdata := (Primitive.restores_writeWire hsorted (by omega) bd hdata (Nat.le_refl _)).2
    have herror := reads_writeOption (o := a.error) (by omega)
    have hread : reader.Reads (Wire.writeText a.codeId ++ (bd ++ writeOption a.error)) a :=
      hcodeId.andThen (hdata.andThen (herror.map rfl))
    rw [read, List.append_assoc (Wire.writeText _), hread]
  · cases h

end Answer

/-- A stored code is read back, also with other bytes behind it, but not when it is cut short; a
written answer is read back likewise. Nothing fails to be written but what holds a name that is too
long, and a code of too many bytes. -/
theorem stored_roundTrip :
    (∀ (c : Code) (b : Bytes), c.WellKeyed → c.write = .ok b →
      Code.read b = .ok c ∧ (∀ s, Code.read (b ++ s) = .ok c) ∧
        ∀ cut, cut <+: b → cut ≠ b → ∃ e, Code.read cut = .error e) ∧
    (∀ (a : Answer) (b : Bytes), a.data.Sorted → b.length < UInt64.size → a.write = .ok b →
      Answer.read b = .ok a ∧ ∀ s, Answer.read (b ++ s) = .ok a) ∧
    (∀ c : Code, (∃ e, c.write = .error e) ↔
      (∃ t ∈ c.types, t.NameTooLong) ∨
        ∃ body, c.writeWire = .ok body ∧ UInt32.size ≤ body.length) ∧
    ∀ a : Answer, (∃ e, a.write = .error e) ↔ ∃ t ∈ a.data.types, t.NameTooLong := by
  refine ⟨fun c b hkeyed h => ⟨?_, ?_, ?_⟩, fun a b hsorted hlength h => ⟨?_, ?_⟩,
    Code.write_fails_iff, Answer.write_fails_iff⟩
  · have hread := Code.read_append_of_write hkeyed h []
    rwa [List.append_nil] at hread
  · exact Code.read_append_of_write hkeyed h
  · exact fun cut => Code.read_fails_of_cut h
  · have hread := Answer.read_append_of_write hsorted hlength h []
    rwa [List.append_nil] at hread
  · exact Answer.read_append_of_write hsorted hlength h

/-- The sizes of some packages. -/
def sizes : Primitive := .map .string .int [("bash", .int 7), ("zlib", .int 5)]

theorem sorted_sizes : sizes.Sorted := by
  refine .mk nofun (fun e he => ?_) (by unfold Entries.Ordered; decide)
  simp only [List.mem_cons, List.not_mem_nil, or_false] at he
  rcases he with rfl | rfl
  · exact Primitive.sorted_scalar _ _
  · exact Primitive.sorted_scalar _ _

/-- A code with a block, of two chunks, the first of which is the sizes of some packages. -/
def sizesCode : Code :=
  ⟨"sizes", [.ofPrimitive sizes, .call "where" (.map .string .int) 1 [.function 1]], [2],
    [(2, "where"), (1, "sizes")],
    [⟨"block", [.property "_" .int], [1], [(1, "_")], [], 1, [(1, "sum")]⟩], 0, [(1, "sum")]⟩

private theorem wellKeyed_sizesCode : sizesCode.WellKeyed := by
  refine .mk (fun c hc => ?_) (by unfold Table.Distinct; decide) (fun f hf => ?_)
    (by unfold Table.Distinct; decide)
  · simp only [List.mem_cons, List.not_mem_nil, or_false] at hc
    rcases hc with rfl | rfl
    · exact ⟨nofun, fun p hp => Option.some.inj hp ▸ sorted_sizes⟩
    · refine ⟨fun f hf p hp => ?_, nofun⟩
      cases hf
      rw [List.mem_singleton.mp hp]
      exact Primitive.sorted_scalar _ _
  · rw [List.mem_singleton.mp hf]
    refine .mk (fun c hc => ?_) (by unfold Table.Distinct; decide) nofun
      (by unfold Table.Distinct; decide)
    rw [List.mem_singleton.mp hc]
    exact ⟨nofun, fun p hp => Option.some.inj hp ▸ Primitive.sorted_scalar _ _⟩

def sizesAnswer : Answer := ⟨"sum", sizes, some "late"⟩

theorem stored_roundTrip_sizes :
    sizesCode.WellKeyed ∧ sizes.Sorted ∧
      (∃ b, sizesCode.write = .ok b ∧ Code.read (b ++ [0]) = .ok sizesCode ∧
        ∃ e, Code.read (b.take 159) = .error e) ∧
      ∃ b, sizesAnswer.write = .ok b ∧ b.length < UInt64.size ∧
        Answer.read (b ++ [0]) = .ok sizesAnswer := by
  obtain ⟨hcode, hanswer, _⟩ := stored_roundTrip
  refine ⟨wellKeyed_sizesCode, sorted_sizes, ?_, ?_⟩
  · have hsize : sizesCode.write.toOption.map List.length = some 160 := by decide +kernel
    obtain ⟨b, hwrite, hlength⟩ := Except.exists_of_toOption_map hsize
    obtain ⟨_, hread, hcut⟩ := hcode sizesCode b wellKeyed_sizesCode hwrite
    have hlead : b.take 159 <+: b := List.take_prefix 159 b
    have hne : b.take 159 ≠ b := by
      intro heq
      have hcutLength := congrArg List.length heq
      rw [List.length_take, hlength] at hcutLength
      omega
    exact ⟨b, hwrite, hread [0], hcut _ hlead hne⟩
  · have hsize : sizesAnswer.write.toOption.map List.length = some 53 := by decide +kernel
    obtain ⟨b, hwrite, hlength⟩ := Except.exists_of_toOption_map hsize
    have hbound : b.length < UInt64.size := by
      rw [hlength]
      decide
    exact ⟨b, hwrite, hbound, (hanswer sizesAnswer b sorted_sizes hbound hwrite).2 [0]⟩

end AssetQuery
