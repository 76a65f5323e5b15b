import AssetQuery.Proofs.Except
import AssetQuery.Wire.Basic
import Mathlib.Algebra.Group.Nat.Defs

/-!
# What is written is read back

A number written in a fixed count of bytes is read back as long as they hold it, and one written in
groups of seven bits as long as it fits the groups that the reader allows. A reader reads a value
off some bytes if it does so whatever follows them. Each part of the wire format is read off its own
bytes, so that parts written one after the other are read one after the other.
-/

namespace AssetQuery

theorem ofLittleEndian_littleEndian (count n : Nat) :
    ofLittleEndian (littleEndian count n) = n % 256 ^ count := by
  induction count generalizing n with
  | zero => simp [littleEndian, ofLittleEndian, Nat.mod_one]
  | succ count ih =>
    have hbyte : (UInt8.ofNat n).toNat = n % 256 := by simp
    rw [littleEndian, ofLittleEndian, ih, hbyte, Nat.pow_succ, Nat.mul_comm (256 ^ count) 256,
      Nat.mod_mul]

theorem ofLittleEndian_of_lt {count n : Nat} (h : n < 256 ^ count) :
    ofLittleEndian (littleEndian count n) = n := by
  rw [ofLittleEndian_littleEndian, Nat.mod_eq_of_lt h]

namespace Wire

theorem length_varint_pos (n : Nat) : 0 < (varint n).length := by
  rw [varint]
  split
  · exact Nat.zero_lt_one
  · exact Nat.zero_lt_succ _

theorem takeVarint_varint {bytes last n : Nat} (hlast : last < 128)
    (h : n < 128 ^ bytes * (last + 1)) (rest : Bytes) :
    takeVarint (bytes + 1) last (varint n ++ rest) = .ok (n, rest) := by
  -- only the last of the groups that are allowed is held to `last`
  induction bytes generalizing n with
  | zero =>
    have hn : n ≤ last := by simpa [Nat.lt_succ_iff] using h
    have hbyte : (UInt8.ofNat n).toNat = n :=
      UInt8.toNat_ofNat_of_lt' (show n < 256 by omega)
    rw [varint, if_pos (by omega)]
    simp only [List.cons_append, List.nil_append, takeVarint, hbyte]
    rw [if_pos (by omega), if_neg (by simpa using hn)]
  | succ bytes ih =>
    rw [varint]
    split
    · next hsmall =>
      have hbyte : (UInt8.ofNat n).toNat = n :=
        UInt8.toNat_ofNat_of_lt' (show n < 256 by omega)
      simp only [List.cons_append, List.nil_append, takeVarint, hbyte]
      rw [if_pos hsmall, if_neg (by simp)]
    · have hbyte : (UInt8.ofNat (n % 128 + 128)).toNat = n % 128 + 128 :=
        UInt8.toNat_ofNat_of_lt' (show n % 128 + 128 < 256 by omega)
      have hhigh : n / 128 < 128 ^ bytes * (last + 1) := by
        apply Nat.div_lt_of_lt_mul
        rwa [Nat.pow_succ, Nat.mul_comm (128 ^ bytes), Nat.mul_assoc] at h
      rw [List.cons_append, takeVarint, hbyte, if_neg (by omega), ih hhigh]
      simp only [Except.ok.injEq, Prod.mk.injEq, and_true]
      omega

private theorem zigzag_lt {n : Int} {bound : Nat} (hlow : -(bound : Int) ≤ n) (hhigh : n < bound) :
    zigzag n < 2 * bound := by
  rw [zigzag]
  split <;> omega

variable {ε α β : Type}

namespace Reader

/-- Whether a reader takes the bytes `b`, and no more, for `a`. -/
def Reads (r : Reader α) (b : Bytes) (a : α) : Prop := ∀ rest, r (b ++ rest) = .ok (a, rest)

private theorem reads_done (a : α) : (done a).Reads [] a := fun _ => rfl

theorem Reads.andThen {r : Reader α} {k : α → Reader β} {b b' : Bytes} {a : α} {a' : β}
    (h : r.Reads b a) (hk : (k a).Reads b' a') : (Reader.andThen r k).Reads (b ++ b') a' := by
  intro rest
  rw [List.append_assoc, Reader.andThen, h]
  exact hk rest

theorem Reads.map {r : Reader α} {k : α → Reader β} {b : Bytes} {a : α} {a' : β}
    (h : r.Reads b a) (hk : k a = done a') : (Reader.andThen r k).Reads b a' := by
  intro rest
  rw [Reader.andThen, h]
  exact congrFun hk rest

theorem reads_length {n : Nat} (h : n < UInt64.size) : length.Reads (varint n) n :=
  takeVarint_varint (by decide) (by simpa using h)

theorem reads_number32 {n : Nat} (h : n < UInt32.size) : number32.Reads (varint n) n :=
  takeVarint_varint (by decide) (by simpa using h)

theorem reads_int32 (n : Int32) : int32.Reads (writeInt32 n) n := by
  have hbound : zigzag n.toInt < UInt32.size := zigzag_lt n.le_toInt n.toInt_lt
  apply (reads_number32 hbound).map
  rw [unzigzag_zigzag, Int32.ofInt_toInt]

private theorem reads_take (b : Bytes) : (take b.length).Reads b b := by
  intro rest
  rw [take, if_pos (by simp), List.take_left, List.drop_left]

theorem reads_bytes {b : Bytes} (h : b.length < UInt64.size) : bytes.Reads (writeBytes b) b :=
  (reads_length h).andThen (reads_take b)

theorem reads_text {s : String} (h : (Utf8.encode s).length < UInt64.size) :
    text.Reads (writeText s) s := by
  apply (reads_bytes h).map
  rw [Utf8.decode_encode]

theorem Reads.pair {first : Reader α} {second : Reader β} {b b' : Bytes} {x : α} {y : β}
    (h : first.Reads b x) (h' : second.Reads b' y) : (pair first second).Reads (b ++ b') (x, y) :=
  h.andThen (h'.map rfl)

theorem reads_none (item : Reader α) : (optional item).Reads [0] none := fun _ => rfl

theorem Reads.some {item : Reader α} {b : Bytes} {a : α} (h : item.Reads b a) :
    (optional item).Reads (1 :: b) (some a) := h.map (k := fun a => done (Option.some a)) rfl

end Reader

/-- The bytes of values one after the other. -/
def writeEach (write : α → Except ε Bytes) : List α → Except ε Bytes
  | [] => .ok []
  | a :: rest => do
    let b ← write a
    let bs ← writeEach write rest
    return b ++ bs

variable (ε) in
theorem writeEach_ok (f : α → Bytes) (as : List α) :
    writeEach (fun a => (.ok (f a) : Except ε Bytes)) as = .ok (as.flatMap f) := by
  induction as with
  | nil => rfl
  | cons a rest ih =>
    rw [writeEach, ih]
    rfl

theorem writeEach_succeeds_iff {write : α → Except ε Bytes} {as : List α} :
    (∃ bs, writeEach write as = .ok bs) ↔ ∀ a ∈ as, ∃ b, write a = .ok b := by
  induction as with
  | nil => simp [writeEach]
  | cons a rest ih =>
    rw [List.forall_mem_cons, ← ih]
    simp only [writeEach, Except.bind_eq_ok, pure, Except.pure, Except.ok.injEq]
    exact Except.both_succeed_iff

/-- Whether a value, if it is written in at most `room` bytes, is read off them. Every value takes
a byte, so that a list is never longer than its bytes. -/
def Restores (room : Nat) (write : α → Except ε Bytes) (read : Reader α) (a : α) : Prop :=
  ∀ b, write a = .ok b → b.length ≤ room → 0 < b.length ∧ read.Reads b a

/-- A reader that may go down as many levels as the input has bytes reads what it reads with any
greater number of levels. -/
theorem restores_of_levels {limit room : Nat} {write : α → Except ε Bytes}
    {read : Nat → Reader α} {a : α} (hroom : room < limit)
    (h : ∀ room levels, room < limit → room < levels → Restores room write (read levels) a) :
    Restores room write (fun input => read (input.length + 1) input) a := by
  intro b hwrite hlength
  obtain ⟨hpos, _⟩ := h room _ hroom (Nat.lt_succ_self room) b hwrite hlength
  refine ⟨hpos, fun rest => ?_⟩
  have hlevels : b.length < (b ++ rest).length + 1 := by
    rw [List.length_append]
    omega
  exact (h b.length _ (by omega) hlevels b hwrite (Nat.le_refl _)).2 rest

private theorem reads_times {room : Nat} {write : α → Except ε Bytes} {read : Reader α}
    {as : List α} {bs : Bytes} (h : writeEach write as = .ok bs) (hroom : bs.length ≤ room)
    (has : ∀ a ∈ as, Restores room write read a) :
    as.length ≤ bs.length ∧ (Reader.times read as.length).Reads bs as := by
  induction as generalizing bs with
  | nil =>
    cases h
    exact ⟨Nat.le_refl _, Reader.reads_done []⟩
  | cons a rest ih =>
    obtain ⟨b, hb, h⟩ := Except.bind_eq_ok.mp h
    obtain ⟨bs', hbs', h⟩ := Except.bind_eq_ok.mp h
    cases h
    rw [List.length_append] at hroom
    obtain ⟨ha, hrest⟩ := List.forall_mem_cons.mp has
    obtain ⟨hpos, hread⟩ := ha b hb (by omega)
    obtain ⟨hlength, hreads⟩ := ih hbs' (by omega) hrest
    constructor
    · rw [List.length_cons, List.length_append]
      omega
    · exact hread.andThen (hreads.map rfl)

/-- A list is read off its number and its bytes. -/
theorem reads_list {room : Nat} {write : α → Except ε Bytes} {read : Reader α} {as : List α}
    {bs : Bytes} (h : writeEach write as = .ok bs) (hlength : bs.length < UInt64.size)
    (hroom : bs.length ≤ room) (has : ∀ a ∈ as, Restores room write read a) :
    (Reader.list read).Reads (varint as.length ++ bs) as := by
  obtain ⟨hcount, hreads⟩ := reads_times h hroom has
  exact (Reader.reads_length (Nat.lt_of_le_of_lt hcount hlength)).andThen hreads

end Wire

end AssetQuery
