import AssetQuery.Number.Text
import Mathlib.Algebra.Order.Field.Power
import Mathlib.Tactic.Linarith
import Mathlib.Tactic.Positivity
import Mathlib.Tactic.Ring

/-!
# The shortest digits lie nearest to their double

Twenty grids suffice: the last of them is finer than the distance from a double to the end of its
neighbourhood. So the digits that are found are those of a number in the neighbourhood.
-/

namespace AssetQuery

/-- The number that decimal digits stand for. -/
def DecimalDigits.value (d : DecimalDigits) : ℚ := d.digits * 10 ^ d.exponent

theorem zpow_eq_div (a : ℚ) (k : ℤ) : a ^ k = a ^ k.toNat / a ^ (-k).toNat := by
  rcases Int.le_total 0 k with h | h
  · obtain ⟨n, rfl⟩ := Int.eq_ofNat_of_zero_le h
    simp
  · obtain ⟨n, hn⟩ := Int.eq_ofNat_of_zero_le (show 0 ≤ -k by omega)
    obtain rfl : k = -n := by omega
    simp

namespace Double

theorem value_normalize (count : Nat) (d : DecimalDigits) :
    (DecimalDigits.normalize count d).value = d.value := by
  induction count generalizing d with
  | zero => rfl
  | succ count ih =>
    rw [DecimalDigits.normalize]
    split
    · next h =>
      simp only [Bool.and_eq_true, decide_eq_true_iff] at h
      obtain ⟨digits, hdigits⟩ := Nat.dvd_of_mod_eq_zero h.1
      rw [ih, DecimalDigits.value, DecimalDigits.value, hdigits,
        Nat.mul_div_cancel_left digits (by norm_num), zpow_add_one₀ (by norm_num)]
      push_cast
      ring
    · rfl

namespace Neighbourhood

variable {n : Neighbourhood} {k : ℤ}

/-- Whether a number lies in a neighbourhood. -/
def Contains (n : Neighbourhood) (q : ℚ) : Prop :=
  if n.closed then n.low / n.den ≤ q ∧ q ≤ n.high / n.den
  else n.low / n.den < q ∧ q < n.high / n.den

structure Proper (n : Neighbourhood) : Prop where
  den_pos : 0 < n.den
  low_pos : 0 < n.low
  low_lt : n.low < n.value
  lt_high : n.value < n.high

theorem Contains.le {q : ℚ} (h : n.Contains q) : n.low / n.den ≤ q ∧ q ≤ n.high / n.den := by
  rw [Contains] at h
  split at h
  · exact h
  · exact ⟨h.1.le, h.2.le⟩

private theorem Proper.contains (hn : n.Proper) {q : ℚ} (hlow : n.low / n.den < q)
    (hvalue : q ≤ n.value / n.den) : n.Contains q := by
  have hden : (0 : ℚ) < n.den := by exact_mod_cast hn.den_pos
  have hhigh : (n.value / n.den : ℚ) < n.high / n.den :=
    div_lt_div_of_pos_right (by exact_mod_cast hn.lt_high) hden
  rw [Contains]
  split
  · exact ⟨hlow.le, hvalue.trans hhigh.le⟩
  · exact ⟨hlow, hvalue.trans_lt hhigh⟩

theorem holds_iff (hden : 0 < n.den) (digits : Nat) (k : ℤ) :
    n.holds digits k ↔ n.Contains (digits * 10 ^ k) := by
  have hden : (0 : ℚ) < n.den := by exact_mod_cast hden
  have hscale : (0 : ℚ) < 10 ^ (-k).toNat := by positivity
  have hvalue : (digits * 10 ^ k : ℚ) = (digits * 10 ^ k.toNat) / 10 ^ (-k).toNat := by
    rw [zpow_eq_div, mul_div_assoc]
  rw [Contains, hvalue, div_le_div_iff₀ hden hscale, div_le_div_iff₀ hscale hden,
    div_lt_div_iff₀ hden hscale, div_lt_div_iff₀ hscale hden]
  simp only [holds]
  split
  · rw [Bool.and_eq_true, decide_eq_true_iff, decide_eq_true_iff]
    norm_cast
  · rw [Bool.and_eq_true, decide_eq_true_iff, decide_eq_true_iff]
    norm_cast

/-- The multiple of `10 ^ k` below the value. -/
def below (n : Neighbourhood) (k : ℤ) : Nat :=
  n.value * Nat.pow 10 (-k).toNat / (n.den * Nat.pow 10 k.toNat)

private theorem below_le (hden : 0 < n.den) (k : ℤ) :
    (n.below k * 10 ^ k : ℚ) ≤ n.value / n.den := by
  have hle : n.below k * (n.den * 10 ^ k.toNat) ≤ n.value * 10 ^ (-k).toNat :=
    Nat.div_mul_le_self _ _
  have hden : (0 : ℚ) < n.den := by exact_mod_cast hden
  rw [zpow_eq_div, ← mul_div_assoc, div_le_div_iff₀ (by positivity) hden]
  calc (n.below k * 10 ^ k.toNat * n.den : ℚ)
      = (n.below k * (n.den * 10 ^ k.toNat) : Nat) := by push_cast; ring
    _ ≤ (n.value * 10 ^ (-k).toNat : Nat) := by exact_mod_cast hle
    _ = n.value * 10 ^ (-k).toNat := by push_cast; rfl

private theorem lt_below_add (hden : 0 < n.den) (k : ℤ) :
    (n.value / n.den : ℚ) < n.below k * 10 ^ k + 10 ^ k := by
  have hlt : n.value * 10 ^ (-k).toNat < (n.below k + 1) * (n.den * 10 ^ k.toNat) :=
    Nat.lt_mul_of_div_lt (Nat.lt_succ_self _) (Nat.mul_pos hden (by positivity))
  have hden : (0 : ℚ) < n.den := by exact_mod_cast hden
  rw [← add_one_mul, zpow_eq_div, ← mul_div_assoc, div_lt_div_iff₀ hden (by positivity)]
  calc (n.value * 10 ^ (-k).toNat : ℚ)
      = (n.value * 10 ^ (-k).toNat : Nat) := by push_cast; rfl
    _ < ((n.below k + 1) * (n.den * 10 ^ k.toNat) : Nat) := by exact_mod_cast hlt
    _ = (n.below k + 1) * 10 ^ k.toNat * n.den := by push_cast; ring

private theorem holds_of_onGrid? {digits : Nat} (h : n.onGrid? k = some digits) :
    n.holds digits k := by
  simp only [onGrid?] at h
  split at h
  · next hbelow habove =>
    split at h
    · exact Option.some.inj h ▸ hbelow
    · exact Option.some.inj h ▸ habove
  · next hbelow _ => exact Option.some.inj h ▸ hbelow
  · next habove => exact Option.some.inj h ▸ habove
  · cases h

private theorem Proper.isSome_onGrid? (hn : n.Proper)
    (hk : (10 : ℚ) ^ k ≤ (n.value - n.low) / n.den) : (n.onGrid? k).isSome := by
  have hbelow : n.holds (n.below k) k := by
    refine (holds_iff hn.den_pos _ k).mpr (hn.contains ?_ (below_le hn.den_pos k))
    have := lt_below_add hn.den_pos k
    rw [sub_div] at hk
    linarith
  simp only [onGrid?]
  rw [show n.holds (_ / _) k = true from hbelow]
  cases n.holds (_ / _ + 1) k with
  | true => exact (apply_ite Option.isSome _ _ _).trans (ite_self true)
  | false => rfl

/-- A search that comes to a grid fine enough finds digits in the neighbourhood. -/
theorem Proper.contains_search (hn : n.Proper) {grids : Nat} {k : ℤ} {j : Nat} (hj : j < grids)
    (hk : (10 : ℚ) ^ (k - j) ≤ (n.value - n.low) / n.den) :
    n.Contains (n.search grids k).value := by
  induction grids generalizing k j with
  | zero => omega
  | succ grids ih =>
    rw [search]
    split
    · next digits hdigits => exact (holds_iff hn.den_pos digits k).mp (holds_of_onGrid? hdigits)
    · next hnone =>
      cases j with
      | zero =>
        rw [Nat.cast_zero, sub_zero] at hk
        exact absurd hnone (Option.isSome_iff_ne_none.mp (hn.isSome_onGrid? hk))
      | succ j =>
        refine ih (j := j) (by omega) ?_
        rwa [show k - 1 - j = k - (j + 1 : Nat) by push_cast; ring]

end Neighbourhood

end Double

end AssetQuery
