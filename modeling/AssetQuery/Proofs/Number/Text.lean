import AssetQuery.Number.Text
import AssetQuery.Proofs.Json.Compact
import AssetQuery.Proofs.Number.Shortest

/-!
# Doubles in JSON

The JSON text of a finite double tells the number that its shortest digits stand for, and so which
double it is. It has a point or a power of ten, which the text of a whole number has not.
-/

namespace AssetQuery

/-- Digits, some of them perhaps after a point, and perhaps a power of ten. There is a point or a
power. -/
structure Decimal where
  whole : List Char
  fraction : List Char
  power : Option ℤ
  whole_ne_nil : whole ≠ []
  isDigit_whole : ∀ c ∈ whole, Json.isDigit c
  isDigit_fraction : ∀ c ∈ fraction, Json.isDigit c
  not_whole : fraction ≠ [] ∨ power ≠ none

namespace Decimal

/-- How a power of ten is written. -/
def powerChars : Option ℤ → List Char
  | none => []
  | some k => 'e' :: (if 0 ≤ k then '+' else '-') :: Nat.toDigits 10 k.natAbs

/-- What stands after the digits before the point. -/
def endChars (d : Decimal) : List Char :=
  (if d.fraction = [] then [] else '.' :: d.fraction) ++ powerChars d.power

def chars (d : Decimal) : List Char := d.whole ++ d.endChars

/-- The number that is written. -/
def value (d : Decimal) : ℚ :=
  Nat.ofDigitChars 10 (d.whole ++ d.fraction) 0 * 10 ^ (d.power.getD 0 - d.fraction.length)

theorem value_eq {d : Decimal} {n : Nat} {k : ℤ}
    (hdigits : Nat.ofDigitChars 10 (d.whole ++ d.fraction) 0 = n)
    (hplaces : d.power.getD 0 - d.fraction.length = k) : d.value = n * 10 ^ k := by
  rw [value, hdigits, hplaces]

private theorem powerChars_injective : Function.Injective powerChars
  | none, none, _ => rfl
  | none, some _, h => by cases h
  | some _, none, h => by cases h
  | some k, some k', h => by
    rw [powerChars, powerChars, List.cons.injEq, List.cons.injEq] at h
    obtain ⟨-, hsign, hdigits⟩ := h
    have hsame : k.natAbs = k'.natAbs := by
      rw [← Nat.ofDigitChars_ten_toDigits (n := k.natAbs), hdigits, Nat.ofDigitChars_ten_toDigits]
    split at hsign <;> split at hsign
    · exact congrArg some (by omega)
    · cases hsign
    · cases hsign
    · exact congrArg some (by omega)

theorem isDigit_head?_powerChars (power : Option ℤ) :
    ∀ c ∈ (powerChars power).head?, Json.isDigit c = false := by
  cases power with
  | none => simp [powerChars]
  | some k =>
    rintro _ ⟨⟩
    rfl

private theorem isDigit_head?_endChars (d : Decimal) :
    ∀ c ∈ d.endChars.head?, Json.isDigit c = false := by
  rw [endChars]
  split
  · exact isDigit_head?_powerChars d.power
  · rintro _ ⟨⟩
    rfl

private theorem chars_injective : Function.Injective chars := by
  intro d d' h
  obtain ⟨hwhole, hend⟩ := told_of_forall d.isDigit_whole _ _ _ d'.isDigit_whole
    d.isDigit_head?_endChars d'.isDigit_head?_endChars h
  have hrest : d.fraction = d'.fraction ∧ d.power = d'.power := by
    rw [endChars, endChars] at hend
    split at hend <;> split at hend
    · next hnil hnil' => exact ⟨hnil.trans hnil'.symm, powerChars_injective hend⟩
    · cases hpower : d.power with
      | none => rw [hpower] at hend; cases hend
      | some k => rw [hpower] at hend; cases hend
    · cases hpower : d'.power with
      | none => rw [hpower] at hend; cases hend
      | some k => rw [hpower] at hend; cases hend
    · obtain ⟨hfraction, hpower⟩ := told_of_forall d.isDigit_fraction _ _ _ d'.isDigit_fraction
        (isDigit_head?_powerChars _) (isDigit_head?_powerChars _) (List.cons.inj hend).2
      exact ⟨hfraction, powerChars_injective hpower⟩
  cases d
  cases d'
  simp only [mk.injEq]
  exact ⟨hwhole, hrest⟩

private theorem head?_chars_ne (d : Decimal) : d.chars.head? ≠ some '-' := by
  obtain ⟨c, cs, hwhole⟩ := List.exists_cons_of_ne_nil d.whole_ne_nil
  have hdigit := d.isDigit_whole c (hwhole ▸ List.mem_cons_self)
  rw [chars, hwhole]
  rintro ⟨⟩
  cases hdigit

private theorem exists_mem_chars (d : Decimal) : ∃ c ∈ d.chars, ¬(Json.isDigit c ∨ c = '-') := by
  rcases d.not_whole with hne | hne
  · exact ⟨'.', by simp [chars, endChars, hne], by decide⟩
  · obtain ⟨k, hk⟩ := Option.ne_none_iff_exists'.mp hne
    exact ⟨'e', by simp [chars, endChars, powerChars, hk], by decide⟩

private theorem isNumeric_chars (d : Decimal) : ∀ c ∈ d.chars, Json.isNumeric c := by
  have hpower : ∀ c ∈ powerChars d.power, Json.isNumeric c := by
    cases d.power with
    | none => exact List.forall_mem_nil _
    | some k =>
      rw [powerChars]
      refine List.forall_mem_cons.mpr ⟨rfl, List.forall_mem_cons.mpr ⟨?_, fun c hc => ?_⟩⟩
      · split <;> rfl
      · exact Json.isNumeric_of_isDigit (Json.isDigit_of_mem_toDigits c hc)
  have hfraction : ∀ c ∈ (if d.fraction = [] then [] else '.' :: d.fraction), Json.isNumeric c := by
    split
    · exact List.forall_mem_nil _
    · exact List.forall_mem_cons.mpr
        ⟨rfl, fun c hc => Json.isNumeric_of_isDigit (d.isDigit_fraction c hc)⟩
  rw [chars, endChars]
  exact List.forall_mem_append.mpr
    ⟨fun c hc => Json.isNumeric_of_isDigit (d.isDigit_whole c hc),
      List.forall_mem_append.mpr ⟨hfraction, hpower⟩⟩

end Decimal

namespace NumberLayout

open Json (isDigit_of_mem_replicate isDigit_of_mem_toDigits length_toString)

private theorem exists_decimal_writePositional (n : Nat) (exponent : ℤ) :
    ∃ d : Decimal, (json.writePositional (toString n) exponent).toList = d.chars ∧
      d.value = n * 10 ^ exponent := by
  have hvalue : Nat.ofDigitChars 10 (Nat.toDigits 10 n) 0 = n := Nat.ofDigitChars_ten_toDigits
  simp only [writePositional]
  split
  · next hexponent =>
    obtain ⟨k, rfl⟩ := Int.eq_ofNat_of_zero_le hexponent
    refine ⟨⟨Nat.toDigits 10 n ++ List.replicate k '0', ['0'], none, by simp,
      List.forall_mem_append.mpr ⟨isDigit_of_mem_toDigits, isDigit_of_mem_replicate⟩,
      List.forall_mem_singleton.mpr rfl, .inl (by simp)⟩, ?_, ?_⟩
    · simp [Decimal.chars, Decimal.endChars, Decimal.powerChars, json]
    · have hdigits : Nat.ofDigitChars 10 (Nat.toDigits 10 n ++ List.replicate k '0' ++ ['0']) 0 =
          n * 10 ^ (k + 1) := by
        rw [Nat.ofDigitChars_append, Nat.ofDigitChars_append, hvalue,
          Nat.ofDigitChars_replicate_zero, Nat.ofDigitChars_cons, Nat.ofDigitChars_nil,
          Nat.sub_self]
        ring
      have hplaces : (Option.getD none 0 - (['0'].length : ℕ) : ℤ) = -1 := rfl
      rw [Decimal.value, hdigits, hplaces]
      push_cast
      rw [pow_succ, zpow_natCast]
      ring
  · next hexponent =>
    obtain ⟨places, hplaces⟩ := Int.eq_ofNat_of_zero_le (show 0 ≤ -exponent by omega)
    obtain rfl : exponent = -places := by omega
    rw [neg_neg, Int.toNat_natCast, length_toString]
    split
    · next hlt =>
      set whole := (Nat.toDigits 10 n).length - places with hwhole
      refine ⟨⟨(Nat.toDigits 10 n).take whole, (Nat.toDigits 10 n).drop whole, none,
        List.ne_nil_of_length_pos (by rw [List.length_take]; omega),
        fun c hc => isDigit_of_mem_toDigits c (List.mem_of_mem_take hc),
        fun c hc => isDigit_of_mem_toDigits c (List.mem_of_mem_drop hc),
        .inl (List.ne_nil_of_length_pos (by rw [List.length_drop]; omega))⟩, ?_,
        Decimal.value_eq ?_ ?_⟩
      · have hne : whole < (Nat.toDigits 10 n).length := by omega
        simp [Decimal.chars, Decimal.endChars, Decimal.powerChars, hne]
      · rw [List.take_append_drop, hvalue]
      · rw [Option.getD_none, List.length_drop]
        omega
    · next hle =>
      refine ⟨⟨['0'],
        List.replicate (places - (Nat.toDigits 10 n).length) '0' ++ Nat.toDigits 10 n, none,
        by simp, List.forall_mem_singleton.mpr rfl,
        List.forall_mem_append.mpr ⟨isDigit_of_mem_replicate, isDigit_of_mem_toDigits⟩,
        .inl (by simp)⟩, ?_, Decimal.value_eq ?_ ?_⟩
      · simp [Decimal.chars, Decimal.endChars, Decimal.powerChars]
      · rw [Nat.ofDigitChars_append, Nat.ofDigitChars_append, Nat.ofDigitChars_replicate_zero]
        exact hvalue
      · rw [Option.getD_none, List.length_append, List.length_replicate]
        omega

private theorem exists_decimal_writeScientific (n : Nat) (power : ℤ) :
    ∃ d : Decimal, (writeScientific (toString n) power).toList = d.chars ∧
      d.value = n * 10 ^ (power + 1 - (toString n).length) := by
  obtain ⟨c, cs, hdigits, hc⟩ := Json.exists_toDigits_eq_cons n
  have hdigit : ∀ c ∈ cs, Json.isDigit c := fun c hc =>
    isDigit_of_mem_toDigits (n := n) c (hdigits ▸ List.mem_cons_of_mem _ hc)
  refine ⟨⟨[c], cs, some power, by simp, by simpa using hc, hdigit, .inr (by simp)⟩, ?_,
    Decimal.value_eq ?_ ?_⟩
  · by_cases hcs : cs = [] <;> by_cases hpower : 0 ≤ power <;>
      simp [writeScientific, hdigits, Decimal.chars, Decimal.endChars, Decimal.powerChars, hcs,
        hpower]
  · rw [List.singleton_append, ← hdigits, Nat.ofDigitChars_ten_toDigits]
  · show power - (cs.length : ℤ) = _
    rw [length_toString, hdigits, List.length_cons]
    omega

theorem exists_decimal_write {x : Double} (hfinite : x.isFinite) :
    ∃ d : Decimal, (json.write x).toList = (if x.isNegative then ['-'] else []) ++ d.chars ∧
      d.value = if x.isZero then 0 else x.shortest.value := by
  have hmagnitude : x.magnitude < Double.infiniteMagnitude := of_decide_eq_true hfinite
  have hnan : x.isNaN = false := decide_eq_false (by omega)
  have hinfinite : x.isInfinite = false := beq_false_of_ne (by omega)
  have hsign : (if x.isNegative then "-" else "").toList = if x.isNegative then ['-'] else [] := by
    split <;> rfl
  simp only [write, hnan, hinfinite, Bool.false_eq_true, if_false]
  split
  · obtain ⟨d, hchars, hvalue⟩ := exists_decimal_writePositional 0 0
    refine ⟨d, ?_, by rw [hvalue, Nat.cast_zero, zero_mul]⟩
    rw [String.toList_append, hsign, ← hchars]
    rfl
  split
  · obtain ⟨d, hchars, hvalue⟩ :=
      exists_decimal_writePositional x.shortest.digits x.shortest.exponent
    exact ⟨d, by rw [String.toList_append, hsign, hchars], hvalue⟩
  · obtain ⟨d, hchars, hvalue⟩ := exists_decimal_writeScientific x.shortest.digits
      (x.shortest.exponent + (toString x.shortest.digits).length - 1)
    refine ⟨d, by rw [String.toList_append, hsign, hchars], hvalue.trans ?_⟩
    rw [sub_add_cancel, add_sub_cancel_right, DecimalDigits.value]

theorem delimited_write {x : Double} (hfinite : x.isFinite) :
    (Json.number (json.write x)).Delimited := by
  obtain ⟨d, hchars, -⟩ := exists_decimal_write hfinite
  refine .number ?_ ?_
  · rw [hchars]
    exact List.append_ne_nil_of_right_ne_nil _ (List.append_ne_nil_of_left_ne_nil d.whole_ne_nil _)
  · rw [hchars]
    refine List.forall_mem_append.mpr ⟨?_, d.isNumeric_chars⟩
    split <;> simp [Json.isNumeric]

theorem write_ne_toString {x : Double} (hfinite : x.isFinite) (n : ℤ) :
    json.write x ≠ toString n := by
  intro h
  obtain ⟨d, hchars, -⟩ := exists_decimal_write hfinite
  obtain ⟨c, hc, hne⟩ := d.exists_mem_chars
  rw [h] at hchars
  exact hne (Json.isDigit_or_of_mem_toString n c (hchars ▸ List.mem_append_right _ hc))

theorem write_injective {x y : Double} (hx : x.isFinite) (hy : y.isFinite)
    (h : json.write x = json.write y) : x = y := by
  obtain ⟨d, hchars, hvalue⟩ := exists_decimal_write hx
  obtain ⟨d', hchars', hvalue'⟩ := exists_decimal_write hy
  rw [h, hchars'] at hchars
  obtain ⟨hsign, hsame⟩ := Json.signed_injective d.head?_chars_ne d'.head?_chars_ne hchars.symm
  obtain rfl := Decimal.chars_injective hsame
  rw [hvalue] at hvalue'
  refine Double.eq_of_magnitude (Bool.eq_iff_iff.mpr hsign) ?_
  cases hxzero : x.isZero with
  | true =>
    cases hyzero : y.isZero with
    | true => exact (eq_of_beq hxzero).trans (eq_of_beq hyzero).symm
    | false =>
      rw [hxzero, hyzero] at hvalue'
      exact absurd hvalue' (Double.value_shortest_pos hy hyzero).ne
  | false =>
    cases hyzero : y.isZero with
    | true =>
      rw [hxzero, hyzero] at hvalue'
      exact absurd hvalue' (Double.value_shortest_pos hx hxzero).ne'
    | false =>
      rw [hxzero, hyzero] at hvalue'
      exact Double.magnitude_eq_of_shortest hx hxzero hy hyzero hvalue'

end NumberLayout

end AssetQuery
