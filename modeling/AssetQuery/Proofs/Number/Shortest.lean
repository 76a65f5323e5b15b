import AssetQuery.Proofs.Number.Neighbourhood
import Mathlib.Tactic.FieldSimp

/-!
# No two doubles have the same shortest digits

The first of the twenty grids is at most two powers of ten above the double, and the last is finer
than half the gap below it. Neighbourhoods of different doubles meet at most where they end, and one
of the two does not have its end.
-/

namespace AssetQuery.Double

section DecimalMagnitude

private theorem ten_zpow_le_two_zpow {e l : ℤ} (h : 100000 * e ≤ 30103 * l) (hlow : -1200 ≤ l)
    (hhigh : l ≤ 1200) : (10 : ℚ) ^ (e - 3) ≤ 2 ^ (l - 1) := by
  rcases Int.le_total 0 (e - 3) with he | he
  · obtain ⟨a, ha⟩ := Int.eq_ofNat_of_zero_le he
    obtain ⟨b, hb⟩ := Int.eq_ofNat_of_zero_le (show 0 ≤ l - 1 by omega)
    rw [ha, hb, zpow_natCast, zpow_natCast]
    refine le_of_pow_le_pow_left₀ three_ne_zero (by positivity) ?_
    calc ((10 : ℚ) ^ a) ^ 3 = (10 ^ 3) ^ a := pow_right_comm ..
      _ ≤ (2 ^ 10) ^ a := by gcongr; norm_num
      _ = 2 ^ (10 * a) := (pow_mul ..).symm
      _ ≤ 2 ^ (b * 3) := pow_le_pow_right₀ (by norm_num) (by omega)
      _ = (2 ^ b) ^ 3 := pow_mul ..
  · obtain ⟨a, ha⟩ := Int.eq_ofNat_of_zero_le (show 0 ≤ -(e - 3) by omega)
    have hle : (2 : ℚ) ^ (1 - l).toNat ≤ 10 ^ a := by
      refine le_of_pow_le_pow_left₀ (n := 28) (by norm_num) (by positivity) ?_
      calc ((2 : ℚ) ^ (1 - l).toNat) ^ 28 = 2 ^ ((1 - l).toNat * 28) := (pow_mul ..).symm
        _ ≤ 2 ^ (93 * a) := pow_le_pow_right₀ (by norm_num) (by omega)
        _ = (2 ^ 93) ^ a := pow_mul ..
        _ ≤ (10 ^ 28) ^ a := by gcongr; norm_num
        _ = (10 ^ a) ^ 28 := pow_right_comm ..
    calc (10 : ℚ) ^ (e - 3) = (10 ^ a)⁻¹ := by
          rw [show e - 3 = -(a : ℤ) by omega, zpow_neg, zpow_natCast]
      _ ≤ (2 ^ (1 - l).toNat)⁻¹ := by gcongr
      _ = 2 ^ (-((1 - l).toNat : ℤ)) := by rw [zpow_neg, zpow_natCast]
      _ ≤ 2 ^ (l - 1) := zpow_le_zpow_right₀ (by norm_num) (by omega)

variable {num den : Nat}

private theorem two_zpow_le_div (hnum : num ≠ 0) (hden : den ≠ 0) :
    (2 : ℚ) ^ ((Nat.log2 num : ℤ) - Nat.log2 den - 1) ≤ num / den := by
  have hlow : (2 : ℚ) ^ Nat.log2 num ≤ num := by exact_mod_cast Nat.log2_self_le hnum
  have hhigh : (den : ℚ) ≤ 2 ^ (Nat.log2 den + 1) := by exact_mod_cast Nat.lt_log2_self.le
  have hpos : (0 : ℚ) < den := by exact_mod_cast Nat.pos_of_ne_zero hden
  calc (2 : ℚ) ^ ((Nat.log2 num : ℤ) - Nat.log2 den - 1)
      = 2 ^ Nat.log2 num / 2 ^ (Nat.log2 den + 1) := by
        rw [sub_sub, zpow_sub₀ (by norm_num)]
        norm_cast
    _ ≤ num / den := by gcongr

private theorem ten_zpow_decimalMagnitude_le (hnum : num ≠ 0) (hden : den ≠ 0)
    (hnumle : Nat.log2 num ≤ 1200) (hdenle : Nat.log2 den ≤ 1200) :
    (10 : ℚ) ^ (decimalMagnitude num den - 2) ≤ num / den := by
  have hpos : (0 : ℚ) < den := by exact_mod_cast Nat.pos_of_ne_zero hden
  have hleast {j k : ℤ} (hjk : j ≤ k)
      (h : den * Nat.pow 10 k.toNat ≤ num * Nat.pow 10 (-k).toNat) :
      (10 : ℚ) ^ j ≤ num / den := by
    refine (zpow_le_zpow_right₀ (by norm_num) hjk).trans ?_
    rw [zpow_eq_div, div_le_div_iff₀ (by positivity) hpos, mul_comm]
    exact_mod_cast h
  simp only [decimalMagnitude, decide_eq_true_iff]
  split
  · next h => exact hleast (by omega) h
  split
  · next h => exact hleast (by omega) h
  split
  · next h => exact hleast (by omega) h
  · refine le_trans ?_ (two_zpow_le_div hnum hden)
    rw [sub_sub]
    exact ten_zpow_le_two_zpow (by omega) (by omega) (by omega)

end DecimalMagnitude

structure Normal (m : Nat) (e : ℤ) : Prop where
  pos : 0 < m
  lt : m < 2 ^ 53
  le_exponent : -1074 ≤ e
  exponent_le : e ≤ 971
  full : e = -1074 ∨ 2 ^ 52 ≤ m

section Neighbourhood

variable {m m' : Nat} {e e' : ℤ}

/-- How far the lower end of a neighbourhood is from its double. -/
def lowerGap (m : Nat) (e : ℤ) : ℚ := if m = 2 ^ 52 ∧ -1074 < e then 1 / 4 else 1 / 2

theorem div_den_neighbourhood (c : ℚ) (m : Nat) (e : ℤ) :
    c * 2 ^ e.toNat / (neighbourhood m e).den = c / 4 * 2 ^ e := by
  have hden : ((neighbourhood m e).den : ℚ) = 4 * 2 ^ (-e).toNat := by
    simp [neighbourhood]
  rw [hden, zpow_eq_div]
  field_simp

private theorem value_div_den (m : Nat) (e : ℤ) :
    ((neighbourhood m e).value / (neighbourhood m e).den : ℚ) = m * 2 ^ e := by
  have hvalue : ((neighbourhood m e).value : ℚ) = 4 * m * 2 ^ e.toNat := by
    simp [neighbourhood]
  rw [hvalue, div_den_neighbourhood]
  ring

private theorem high_div_den (m : Nat) (e : ℤ) :
    ((neighbourhood m e).high / (neighbourhood m e).den : ℚ) = (m + 1 / 2) * 2 ^ e := by
  have hhigh : ((neighbourhood m e).high : ℚ) = (4 * m + 2) * 2 ^ e.toNat := by
    simp [neighbourhood]
  rw [hhigh, div_den_neighbourhood]
  ring

theorem low_div_den (hm : 0 < m) (e : ℤ) :
    ((neighbourhood m e).low / (neighbourhood m e).den : ℚ) = (m - lowerGap m e) * 2 ^ e := by
  have hlow : ((neighbourhood m e).low : ℚ) = (4 * m - 4 * lowerGap m e) * 2 ^ e.toNat := by
    simp only [neighbourhood, Bool.and_eq_true, beq_iff_eq, decide_eq_true_iff, lowerGap,
      Nat.pow_eq]
    split
    · push_cast [Nat.cast_sub (show 1 ≤ 4 * m by omega)]
      ring
    · push_cast [Nat.cast_sub (show 2 ≤ 4 * m by omega)]
      ring
  rw [hlow, div_den_neighbourhood]
  ring

theorem proper_neighbourhood (hm : 0 < m) (e : ℤ) : (neighbourhood m e).Proper := by
  have hup : 0 < Nat.pow 2 e.toNat := Nat.pow_pos (by norm_num)
  refine ⟨?_, ?_, ?_, ?_⟩
  · exact Nat.mul_pos (by norm_num) (Nat.pow_pos (by norm_num))
  · refine Nat.mul_pos ?_ hup
    split <;> omega
  · refine Nat.mul_lt_mul_of_pos_right ?_ hup
    split <;> omega
  · exact Nat.mul_lt_mul_of_pos_right (by omega) hup

namespace Normal

private theorem log2_le (h : Normal m e) :
    Nat.log2 (neighbourhood m e).value ≤ 1200 ∧ Nat.log2 (neighbourhood m e).den ≤ 1200 := by
  have hvalue : (neighbourhood m e).value = m * 2 ^ (2 + e.toNat) := by
    simp only [neighbourhood, Nat.pow_eq]
    ring
  have hden : (neighbourhood m e).den = 2 ^ (2 + (-e).toNat) := by
    simp only [neighbourhood, Nat.pow_eq]
    ring
  have hlow := h.le_exponent
  have hhigh := h.exponent_le
  constructor
  · have hup : 0 < 2 ^ (2 + e.toNat) := by positivity
    have hlog : Nat.log2 (neighbourhood m e).value < 53 + (2 + e.toNat) := by
      rw [hvalue, Nat.log2_lt (Nat.mul_pos h.pos hup).ne', Nat.pow_add 2 53]
      exact Nat.mul_lt_mul_of_pos_right h.lt hup
    omega
  · rw [hden, Nat.log2_two_pow]
    omega

private theorem ten_zpow_le_gap (h : Normal m e) :
    (10 : ℚ) ^ (decimalMagnitude (neighbourhood m e).value (neighbourhood m e).den - 19) ≤
      ((neighbourhood m e).value - (neighbourhood m e).low) / (neighbourhood m e).den := by
  have hproper := proper_neighbourhood h.pos e
  have hmagnitude := ten_zpow_decimalMagnitude_le (hproper.low_pos.trans hproper.low_lt).ne'
    hproper.den_pos.ne' h.log2_le.1 h.log2_le.2
  have hgap : (m : ℚ) / 10 ^ 17 ≤ lowerGap m e := by
    rw [lowerGap]
    split
    · next hnarrow =>
      rw [hnarrow.1]
      norm_num
    · have : (m : ℚ) < 2 ^ 53 := by exact_mod_cast h.lt
      linarith
  rw [value_div_den] at hmagnitude
  rw [sub_div, value_div_den, low_div_den h.pos, ← sub_mul, sub_sub_cancel]
  generalize decimalMagnitude (neighbourhood m e).value (neighbourhood m e).den = k at hmagnitude
  calc (10 : ℚ) ^ (k - 19) = 10 ^ (k - 2) / 10 ^ 17 := by
        rw [← zpow_natCast, ← zpow_sub₀ (by norm_num)]
        ring_nf
    _ ≤ m * 2 ^ e / 10 ^ 17 := by gcongr
    _ = m / 10 ^ 17 * 2 ^ e := by ring
    _ ≤ lowerGap m e * 2 ^ e := by gcongr

private theorem contains_search (h : Normal m e) :
    (neighbourhood m e).Contains ((neighbourhood m e).search 20
      (decimalMagnitude (neighbourhood m e).value (neighbourhood m e).den)).value :=
  (proper_neighbourhood h.pos e).contains_search (j := 19) (by omega) h.ten_zpow_le_gap

private theorem le_sub_lowerGap (h : Normal m e) (he : -1074 < e) :
    (2 ^ 52 - 1 / 4 : ℚ) ≤ m - lowerGap m e := by
  have hfull := h.full.resolve_left he.ne'
  rw [lowerGap]
  split
  · next hnarrow =>
    rw [hnarrow.1]
    norm_num
  · have : 2 ^ 52 + 1 ≤ m := by omega
    have : (2 ^ 52 + 1 : ℚ) ≤ m := by exact_mod_cast this
    linarith

/-- The upper end of a neighbourhood lies below the next ones or is the lower end of the next. Of
two that meet, one significand is odd. -/
private theorem high_le_low (h : Normal m e) (h' : Normal m' e') (hlt : e < e' ∨ e = e' ∧ m < m') :
    ((m : ℚ) + 1 / 2) * 2 ^ e ≤ (m' - lowerGap m' e') * 2 ^ e' ∧
      (((m : ℚ) + 1 / 2) * 2 ^ e = (m' - lowerGap m' e') * 2 ^ e' → m % 2 = 1 ∨ m' % 2 = 1) := by
  have hpos : (0 : ℚ) < 2 ^ e := by positivity
  rcases hlt with hlt | ⟨rfl, hlt⟩
  · have hm : (m : ℚ) ≤ 2 ^ 53 - 1 := by
      have : (m : ℚ) + 1 ≤ 2 ^ 53 := by exact_mod_cast h.lt
      linarith
    have hlow := h'.le_sub_lowerGap (h.le_exponent.trans_lt hlt)
    have hle : (2 ^ 53 - 1 / 2 : ℚ) * 2 ^ e ≤ (m' - lowerGap m' e') * 2 ^ e' := by
      calc (2 ^ 53 - 1 / 2 : ℚ) * 2 ^ e = (2 ^ 52 - 1 / 4) * 2 ^ (e + 1) := by
            rw [zpow_add_one₀ (by norm_num)]
            ring
        _ ≤ (2 ^ 52 - 1 / 4) * 2 ^ e' := by
          gcongr
          · norm_num
          · omega
        _ ≤ (m' - lowerGap m' e') * 2 ^ e' := by gcongr
    refine ⟨le_trans (by gcongr; linarith) hle, fun heq => .inl ?_⟩
    have hfull : (2 ^ 53 - 1 / 2 : ℚ) ≤ m + 1 / 2 := le_of_mul_le_mul_right (heq ▸ hle) hpos
    have : 2 ^ 53 ≤ m + 1 := by
      have : (2 ^ 53 : ℚ) ≤ m + 1 := by linarith
      exact_mod_cast this
    have := h.lt
    omega
  · have hgap : lowerGap m' e = 1 / 2 := by
      rw [lowerGap, if_neg]
      rintro ⟨rfl, he⟩
      have := h.full
      omega
    have hle : (m : ℚ) + 1 ≤ m' := by exact_mod_cast hlt
    rw [hgap]
    refine ⟨by gcongr; linarith, fun heq => ?_⟩
    have : (m + 1 : ℚ) = m' := by linarith [mul_right_cancel₀ hpos.ne' heq]
    have : m + 1 = m' := by exact_mod_cast this
    omega

private theorem not_contains_both (h : Normal m e) (h' : Normal m' e')
    (hlt : e < e' ∨ e = e' ∧ m < m')
    {q : ℚ} (hq : (neighbourhood m e).Contains q) : ¬(neighbourhood m' e').Contains q := by
  intro hq'
  obtain ⟨hle, hmeet⟩ := h.high_le_low h' hlt
  have hhigh := hq.le.2
  have hlow := hq'.le.1
  rw [high_div_den] at hhigh
  rw [low_div_den h'.pos] at hlow
  rcases hmeet (le_antisymm hle (hlow.trans hhigh)) with hodd | hodd
  · rw [Neighbourhood.Contains, if_neg (by simp [neighbourhood, hodd]), high_div_den] at hq
    exact absurd (hq.2.trans_le (hle.trans hlow)) (lt_irrefl q)
  · rw [Neighbourhood.Contains, if_neg (by simp [neighbourhood, hodd]), low_div_den h'.pos] at hq'
    exact absurd (hq'.1.trans_le (hhigh.trans hle)) (lt_irrefl _)

private theorem eq_of_contains (h : Normal m e) (h' : Normal m' e') {q : ℚ}
    (hq : (neighbourhood m e).Contains q) (hq' : (neighbourhood m' e').Contains q) :
    e = e' ∧ m = m' := by
  rcases lt_trichotomy e e' with he | he | he
  · exact absurd hq' (h.not_contains_both h' (.inl he) hq)
  · rcases lt_trichotomy m m' with hm | hm | hm
    · exact absurd hq' (h.not_contains_both h' (.inr ⟨he, hm⟩) hq)
    · exact ⟨he, hm⟩
    · exact absurd hq (h'.not_contains_both h (.inr ⟨he.symm, hm⟩) hq')
  · exact absurd hq (h'.not_contains_both h (.inl he) hq')

end Normal

end Neighbourhood

section Shortest

variable {x y : Double}

theorem normal (hfinite : x.isFinite) (hzero : x.isZero = false) :
    Normal x.significand x.exponent := by
  have hmagnitude : x.magnitude < 0x7ff * 2 ^ 52 := of_decide_eq_true hfinite
  have hne : x.magnitude ≠ 0 := by simpa [isZero] using hzero
  simp only [significand, exponent, Nat.pow_eq]
  split
  · exact ⟨by omega, by omega, by omega, by omega, .inl rfl⟩
  · exact ⟨by omega, by omega, by omega, by omega, .inr (by omega)⟩

private theorem magnitude_eq (x : Double) :
    (x.magnitude : ℤ) = (x.exponent + 1074) * 2 ^ 52 + x.significand := by
  simp only [significand, exponent, Nat.pow_eq]
  split
  · push_cast
    omega
  · push_cast
    omega

theorem contains_shortest (hfinite : x.isFinite) (hzero : x.isZero = false) :
    (neighbourhood x.significand x.exponent).Contains x.shortest.value := by
  simp only [shortest, value_normalize]
  exact (normal hfinite hzero).contains_search

theorem value_shortest_pos (hfinite : x.isFinite) (hzero : x.isZero = false) :
    0 < x.shortest.value := by
  have hproper := proper_neighbourhood (normal hfinite hzero).pos x.exponent
  have hlow : (0 : ℚ) < (neighbourhood x.significand x.exponent).low := by
    exact_mod_cast hproper.low_pos
  have hden : (0 : ℚ) < (neighbourhood x.significand x.exponent).den := by
    exact_mod_cast hproper.den_pos
  exact (div_pos hlow hden).trans_le (contains_shortest hfinite hzero).le.1

/-- Doubles that the same digits are shortest for have the same magnitude. -/
theorem magnitude_eq_of_shortest (hx : x.isFinite) (hxzero : x.isZero = false) (hy : y.isFinite)
    (hyzero : y.isZero = false) (h : x.shortest.value = y.shortest.value) :
    x.magnitude = y.magnitude := by
  obtain ⟨hexponent, hsignificand⟩ := (normal hx hxzero).eq_of_contains (normal hy hyzero)
    (contains_shortest hx hxzero) (h ▸ contains_shortest hy hyzero)
  have hmagnitude := magnitude_eq x
  rw [hexponent, hsignificand, ← magnitude_eq y] at hmagnitude
  exact_mod_cast hmagnitude

theorem eq_of_magnitude (hsign : x.isNegative = y.isNegative) (h : x.magnitude = y.magnitude) :
    x = y := by
  have hbits (x : Double) :
      x.bits.toNat = x.magnitude + if x.isNegative then 2 ^ 63 else 0 := by
    have := x.bits.toNat_lt
    simp only [magnitude, isNegative, Nat.pow_eq, decide_eq_true_iff]
    split <;> omega
  have hsame : x.bits.toNat = y.bits.toNat := by rw [hbits x, hbits y, hsign, h]
  obtain ⟨bits⟩ := x
  obtain ⟨bits'⟩ := y
  exact congrArg Double.mk (UInt64.toNat.inj hsame)

end Shortest

end AssetQuery.Double
