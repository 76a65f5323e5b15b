import AssetQuery.Json.Decoder
import AssetQuery.Proofs.Json.Text
import Mathlib.Algebra.Group.Int.Defs
import Mathlib.Algebra.Group.Nat.Defs
import Mathlib.Data.List.Basic
import Mathlib.Data.List.TakeDrop

/-!
# Whole numbers read back

The text of a whole number is a number of JSON, and stands for that number if it fits in 64 bits.
-/

namespace AssetQuery.Json

private theorem isDigit_eq (c : Char) : isDigit c = c.isDigit := by
  simp only [isDigit, Char.isDigit]
  rfl

/-- Whether a text goes on with nothing that could belong to a number. -/
def EndsNumber (text : List Char) : Prop :=
  ∀ c ∈ text.head?, isDigit c = false ∧ c ≠ '.' ∧ c ≠ 'e' ∧ c ≠ 'E'

theorem digits_append {ds rest : List Char} (hds : ∀ c ∈ ds, isDigit c) (hrest : EndsNumber rest) :
    digits (ds ++ rest) = (ds, rest) := by
  rw [digits, List.span_eq_takeWhile_dropWhile, List.takeWhile_append_of_pos hds,
    List.dropWhile_append_of_pos hds]
  cases rest with
  | nil => simp
  | cons c rest =>
    have hc := (hrest c rfl).1
    simp [hc]

theorem isDigit_of_mem_toDigits {n : Nat} : ∀ c ∈ Nat.toDigits 10 n, isDigit c := fun c hc => by
  rw [isDigit_eq]
  exact Nat.isDigit_of_mem_toDigits (by decide) (by decide) hc

theorem isDigit_of_mem_replicate {k : Nat} : ∀ c ∈ List.replicate k '0', isDigit c := by
  intro c hc
  rw [(List.mem_replicate.mp hc).2]
  rfl

theorem length_toString (n : Nat) : (toString n).length = (Nat.toDigits 10 n).length := by
  rw [← Nat.toList_repr, String.length_toList]
  rfl

private theorem head?_toDigits_ne_zero {n : Nat} (h : n ≠ 0) :
    (Nat.toDigits 10 n).head? ≠ some '0' := by
  induction n using Nat.strongRecOn with
  | _ n ih =>
    rw [Nat.toDigits_eq_if (by decide)]
    split
    · simpa using h
    · rw [List.head?_append_of_ne_nil _ Nat.toDigits_ne_nil]
      exact ih (n / 10) (by omega) (by omega)

private theorem unsigned_toDigits (n : Nat) {rest : List Char} (hrest : EndsNumber rest) :
    unsigned (Nat.toDigits 10 n ++ rest) = some (Nat.toDigits 10 n, rest) := by
  have hwhole : wholeDigits (Nat.toDigits 10 n ++ rest) = some (Nat.toDigits 10 n, rest) := by
    by_cases hn : n = 0
    · rw [hn, Nat.toDigits_zero]
      rfl
    · have hhead := head?_toDigits_ne_zero hn
      have hsome : someDigits (Nat.toDigits 10 n ++ rest) = some (Nat.toDigits 10 n, rest) := by
        rw [someDigits, digits_append isDigit_of_mem_toDigits hrest]
        split
        · next h => exact absurd (Prod.mk.inj h).1 Nat.toDigits_ne_nil
        · rfl
      rw [wholeDigits]
      · exact hsome
      · intro others h
        cases hdigits : Nat.toDigits 10 n with
        | nil => exact Nat.toDigits_ne_nil hdigits
        | cons c cs =>
          rw [hdigits] at h hhead
          exact hhead (congrArg some (List.cons.inj h).1)
  have hfraction : fraction rest = some ([], rest) := by
    cases rest with
    | nil => rfl
    | cons c rest =>
      have hc := (hrest c rfl).2.1
      simp [fraction, hc]
  have hexponent : exponent rest = some ([], rest) := by
    cases rest with
    | nil => rfl
    | cons c rest =>
      have hc := (hrest c rfl).2.2
      simp [exponent, hc.1, hc.2]
  simp [unsigned, hwhole, hfraction, hexponent]

theorem toList_toString (n : Int) :
    (toString n).toList = (if n < 0 then ['-'] else []) ++ Nat.toDigits 10 n.natAbs := by
  rw [Int.toString_eq_repr, Int.repr_eq_if]
  by_cases h : n < 0
  · rw [if_neg (by omega), if_pos h, String.toList_append, Nat.toList_repr,
      show (-n).toNat = n.natAbs by omega]
    rfl
  · rw [if_pos (by omega), if_neg h, Nat.toList_repr, show n.toNat = n.natAbs by omega]
    rfl

theorem closed_toString (n : Int) : Closed (toString n) := by
  refine closed_of_plain fun c hc => ?_
  have hdigit (hc : isDigit c) : c ≠ '"' ∧ c ≠ '\\' ∧ ¬c.val < 0x20 := by
    refine ⟨?_, ?_, fun hcontrol => ?_⟩
    · rintro rfl
      cases hc
    · rintro rfl
      cases hc
    · have hlow : (0x30 : UInt32) ≤ c.val := of_decide_eq_true (Bool.and_eq_true_iff.mp hc).1
      exact absurd (UInt32.lt_of_le_of_lt hlow hcontrol) (by decide)
  rw [toList_toString, List.mem_append] at hc
  rcases hc with hc | hc
  · split at hc
    · obtain rfl := List.mem_singleton.mp hc
      decide
    · cases hc
  · exact hdigit (isDigit_of_mem_toDigits c hc)

theorem exists_toDigits_eq_cons (n : Nat) :
    ∃ c cs, Nat.toDigits 10 n = c :: cs ∧ isDigit c := by
  cases h : Nat.toDigits 10 n with
  | nil => exact absurd h Nat.toDigits_ne_nil
  | cons c cs => exact ⟨c, cs, rfl, isDigit_of_mem_toDigits c (h ▸ List.mem_cons_self)⟩

theorem number?_toString (n : Int) {rest : List Char} (hrest : EndsNumber rest) :
    number? ((toString n).toList ++ rest) = some ((toString n).toList, rest) := by
  have hunsigned := unsigned_toDigits n.natAbs hrest
  rw [toList_toString]
  split
  · simp [number?, hunsigned]
  · obtain ⟨c, cs, hdigits, hc⟩ := exists_toDigits_eq_cons n.natAbs
    have hne : c ≠ '-' := by
      rintro rfl
      cases hc
    rw [List.nil_append]
    rw [hdigits, List.cons_append] at hunsigned ⊢
    simp [number?, hne, hunsigned]

private theorem le_ofDigitChars (ds : List Char) (acc : Nat) :
    acc ≤ Nat.ofDigitChars 10 ds acc := by
  induction ds generalizing acc with
  | nil => exact Nat.le_refl acc
  | cons c cs ih =>
    rw [Nat.ofDigitChars_cons]
    have := ih (10 * acc + (c.toNat - '0'.toNat))
    omega

private theorem ofWhole_go {ds : List Char} {acc : Nat}
    (h : Nat.ofDigitChars 10 ds acc < UInt64.size) :
    Scaled.ofWhole.go acc ds = (⟨Nat.ofDigitChars 10 ds acc, 0⟩, true) := by
  induction ds generalizing acc with
  | nil => rfl
  | cons c cs ih =>
    rw [Nat.ofDigitChars_cons, Nat.mul_comm] at h ⊢
    have := le_ofDigitChars cs (acc * 10 + (c.toNat - '0'.toNat))
    rw [Scaled.ofWhole.go, if_pos (by omega), ih h]

private theorem unsignedNumeral?_toDigits {n : Nat} (hn : n < UInt64.size) {negative : Bool}
    (hnegative : negative → n ≠ 0 ∧ n ≤ 2 ^ 63) :
    unsignedNumeral? negative (Nat.toDigits 10 n) =
      some (.whole (if negative then -n else n)) := by
  have hdigits : digits (Nat.toDigits 10 n ++ []) = (Nat.toDigits 10 n, []) :=
    digits_append isDigit_of_mem_toDigits nofun
  rw [List.append_nil] at hdigits
  have hwhole : Scaled.ofWhole (Nat.toDigits 10 n) = (⟨n, 0⟩, true) := by
    have hvalue : Nat.ofDigitChars 10 (Nat.toDigits 10 n) 0 = n := Nat.ofDigitChars_ten_toDigits
    have hgo := ofWhole_go (hvalue.symm ▸ hn)
    rwa [hvalue] at hgo
  rw [unsignedNumeral?, hdigits]
  simp only [hwhole]
  cases negative with
  | false => rfl
  | true =>
    obtain ⟨hzero, hle⟩ := hnegative rfl
    have hlarge : ¬Nat.pow 2 63 < n := Nat.not_lt.mpr hle
    have hnone : (decide (n = 0) || decide (Nat.pow 2 63 < n)) = false := by
      rw [decide_eq_false hzero, decide_eq_false hlarge, Bool.or_self]
    rw [if_neg (by decide), if_neg (by decide), hnone, if_neg (by decide), if_pos rfl]

theorem numeral?_toString {n : Int} (hlow : -2 ^ 63 ≤ n) (hhigh : n < 2 ^ 64) :
    numeral? (toString n) = some (.whole n) := by
  have hsize : UInt64.size = 2 ^ 64 := rfl
  rw [numeral?, toList_toString]
  by_cases hneg : n < 0
  · rw [if_pos hneg]
    show unsignedNumeral? true (Nat.toDigits 10 n.natAbs) = _
    rw [unsignedNumeral?_toDigits (by omega) fun _ => ⟨by omega, by omega⟩, if_pos rfl,
      show -(n.natAbs : Int) = n by omega]
  · rw [if_neg hneg, List.nil_append]
    obtain ⟨c, cs, hdigits, hc⟩ := exists_toDigits_eq_cons n.natAbs
    split
    · next hminus =>
      obtain rfl : c = '-' := (List.cons.inj (hdigits.symm.trans hminus)).1
      cases hc
    · have hread : unsignedNumeral? false _ = some (.whole (n.natAbs : Int)) :=
        unsignedNumeral?_toDigits (n := n.natAbs) (by omega) nofun
      rw [hread, show (n.natAbs : Int) = n by omega]

end AssetQuery.Json
