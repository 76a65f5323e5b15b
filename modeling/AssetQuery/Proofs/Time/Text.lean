import AssetQuery.Proofs.Json.Number
import AssetQuery.Proofs.Text.Separated
import AssetQuery.Time
import Mathlib.Tactic.IntervalCases

/-!
# Points in time told by their texts

No two days have the same date, and no two points in time the same text.
-/

namespace AssetQuery

namespace Date

/-- The days from the start of an era to that of one of its years. -/
def yearStart (yearOfEra : Nat) : Nat := 365 * yearOfEra + yearOfEra / 4 - yearOfEra / 100

/-- The count of days that a date stands for, as in `ofDay`. -/
def toDay (date : Date) : Int :=
  let year := if date.month ≤ 2 then date.year - 1 else date.year
  let marchMonth := if 3 ≤ date.month then date.month - 3 else date.month + 9
  let dayOfYear := (153 * marchMonth + 2) / 5 + date.day - 1
  let dayOfEra := yearStart (year % 400).toNat + dayOfYear
  year / 400 * 146097 + dayOfEra - 719468

private theorem yearStart_le {dayOfEra yearOfEra : Nat} (hday : dayOfEra < 146097)
    (hyear : yearOfEra =
      (dayOfEra - dayOfEra / 1460 + dayOfEra / 36524 - dayOfEra / 146096) / 365) :
    yearOfEra < 400 ∧ yearStart yearOfEra ≤ dayOfEra ∧ dayOfEra - yearStart yearOfEra ≤ 365 := by
  refine ⟨by omega, ?_⟩
  have hle : 365 * yearOfEra ≤
    dayOfEra - dayOfEra / 1460 + dayOfEra / 36524 - dayOfEra / 146096 := by omega
  have hlt : dayOfEra - dayOfEra / 1460 + dayOfEra / 36524 - dayOfEra / 146096 <
    365 * yearOfEra + 365 := by omega
  clear hyear
  rw [yearStart]
  -- the centuries of an era are gone through one by one
  have hcentury : yearOfEra / 100 ≤ 3 := by omega
  generalize hc : yearOfEra / 100 = century at *
  interval_cases century <;> omega

private theorem monthStart_le {dayOfYear marchMonth : Nat} (hday : dayOfYear ≤ 365)
    (hmonth : (5 * dayOfYear + 2) / 153 = marchMonth) :
    marchMonth < 12 ∧ (153 * marchMonth + 2) / 5 ≤ dayOfYear := by
  omega

private theorem toDay_ofDay (day : Int) : (ofDay day).toDay = day := by
  simp only [ofDay]
  generalize hshifted : day + 719468 = shifted
  generalize hdayOfEra : (shifted % 146097).toNat = dayOfEra
  generalize hyearOfEra :
    (dayOfEra - dayOfEra / 1460 + dayOfEra / 36524 - dayOfEra / 146096) / 365 = yearOfEra
  obtain ⟨hyear, hstart, hend⟩ := yearStart_le (by omega) hyearOfEra.symm
  have hdayOfYear : dayOfEra - (365 * yearOfEra + yearOfEra / 4 - yearOfEra / 100) =
    dayOfEra - yearStart yearOfEra := rfl
  rw [hdayOfYear]
  generalize hdoy : dayOfEra - yearStart yearOfEra = dayOfYear at *
  generalize hmarch : (5 * dayOfYear + 2) / 153 = marchMonth
  obtain ⟨hlt, hmonthStart⟩ := monthStart_le hend hmarch
  clear hyearOfEra hdayOfYear hmarch
  have hera : ((yearOfEra : Int) + shifted / 146097 * 400) % 400 = yearOfEra ∧
      ((yearOfEra : Int) + shifted / 146097 * 400) / 400 = shifted / 146097 := by omega
  -- from January on a date has the number of the next year
  by_cases hmonth : marchMonth < 10
  · rw [if_pos hmonth, if_neg (by omega), Int.add_zero, toDay]
    dsimp only
    rw [if_neg (by omega), if_pos (by omega), hera.1, hera.2, Int.toNat_natCast]
    omega
  · rw [if_neg hmonth, if_pos (by omega), toDay]
    dsimp only
    rw [if_pos (by omega), if_neg (by omega), Int.add_sub_cancel, hera.1, hera.2,
      Int.toNat_natCast]
    omega

private theorem ofDay_injective :
    Function.Injective ofDay := Function.LeftInverse.injective toDay_ofDay

end Date

section Padded

open Json (isDigit isDigit_of_mem_replicate isDigit_of_mem_toDigits length_toString)

variable {width n : Nat}

theorem toList_padded (width n : Nat) :
    (padded width n).toList =
      List.replicate (width - (toString n).length) '0' ++ Nat.toDigits 10 n := by
  rw [padded, String.toList_append, String.toList_ofList]
  exact congrArg (_ ++ ·) Nat.toList_repr

theorem isDigit_of_mem_padded (width n : Nat) : ∀ c ∈ (padded width n).toList, isDigit c := by
  rw [toList_padded]
  exact List.forall_mem_append.mpr ⟨isDigit_of_mem_replicate, isDigit_of_mem_toDigits⟩

theorem ofDigitChars_padded (width n : Nat) :
    Nat.ofDigitChars 10 (padded width n).toList 0 = n := by
  rw [toList_padded, Nat.ofDigitChars_append, Nat.ofDigitChars_replicate_zero, Nat.mul_zero,
    Nat.ofDigitChars_ten_toDigits]

private theorem padded_ne_nil (width n : Nat) : (padded width n).toList ≠ [] := by
  rw [toList_padded]
  exact List.append_ne_nil_of_right_ne_nil _ Nat.toDigits_ne_nil

private theorem length_padded (hwidth : 0 < width) (h : n < 10 ^ width) :
    (padded width n).toList.length = width := by
  have hle : (Nat.toDigits 10 n).length ≤ width :=
    (Nat.length_toDigits_le_iff (by decide) hwidth).mpr h
  rw [toList_padded, List.length_append, List.length_replicate, length_toString]
  omega

/-- Whether a text goes on with no digit. -/
def NoDigit (text : List Char) : Prop := ∀ c ∈ text.head?, isDigit c = false

theorem noDigit_cons {c : Char} (h : isDigit c = false) (rest : List Char) :
    NoDigit (c :: rest) := by
  rintro _ ⟨⟩
  exact h

theorem told_padded (width n : Nat) :
    Told (fun n => (padded width n).toList) (fun _ => True) NoDigit n := by
  intro n' rest rest' _ hrest hrest' heq
  obtain ⟨hsame, hafter⟩ := told_of_forall (isDigit_of_mem_padded width n) _ _ _
    (isDigit_of_mem_padded width n') hrest hrest' heq
  refine ⟨?_, hafter⟩
  rw [← ofDigitChars_padded width n, hsame, ofDigitChars_padded]

end Padded

namespace Instant

/-- The sign of a year. -/
def yearSign (year : Int) : List Char :=
  if 0 ≤ year ∧ year ≤ 9999 then [] else if year < 0 then ['-'] else ['+']

private theorem toList_yearText (year : Int) :
    (yearText year).toList = yearSign year ++ (padded 4 year.natAbs).toList := by
  have hsign : (if year < 0 then "-" else "+").toList = if year < 0 then ['-'] else ['+'] := by
    split <;> rfl
  simp only [yearText, yearSign, Bool.and_eq_true, decide_eq_true_iff]
  split
  · rw [List.nil_append]
  · rw [String.toList_append, hsign]

private theorem not_isDigit_of_mem_yearSign (year : Int) :
    ∀ c ∈ yearSign year, (!Json.isDigit c) = true := by
  rw [yearSign]
  split
  · exact List.forall_mem_nil _
  · split <;> exact List.forall_mem_singleton.mpr rfl

private theorem yearSign_eq_minus {year : Int} : yearSign year = ['-'] ↔ year < 0 := by
  rw [yearSign]
  split
  · exact ⟨fun h => absurd h.symm (List.cons_ne_nil _ _), by omega⟩
  split
  · exact ⟨fun _ => ‹_›, fun _ => rfl⟩
  · exact ⟨fun h => absurd h (by decide), by omega⟩

private theorem told_yearText (year : Int) :
    Told (fun year => (yearText year).toList) (fun _ => True) NoDigit year := by
  have hdigits (year : Int) (rest : List Char) :
      ∀ c ∈ ((padded 4 year.natAbs).toList ++ rest).head?, (!Json.isDigit c) = false := by
    intro c hc
    rw [List.head?_append_of_ne_nil _ (padded_ne_nil 4 year.natAbs)] at hc
    rw [isDigit_of_mem_padded 4 _ c (List.mem_of_mem_head? hc), Bool.not_true]
  intro year' rest rest' _ hrest hrest' heq
  simp only [toList_yearText, List.append_assoc] at heq
  obtain ⟨hsign, hdigit⟩ := told_of_forall (not_isDigit_of_mem_yearSign year) _ _ _
    (not_isDigit_of_mem_yearSign year') (hdigits year rest) (hdigits year' rest') heq
  obtain ⟨habs, hafter⟩ := told_padded 4 year.natAbs _ _ _ trivial hrest hrest' hdigit
  have hnegative : year < 0 ↔ year' < 0 := by
    rw [← yearSign_eq_minus, ← yearSign_eq_minus]
    exact hsign ▸ Iff.rfl
  exact ⟨by omega, hafter⟩

theorem toList_fractionText {nanos : Nat} (hne : nanos ≠ 0) (hlt : nanos < 1000000000) :
    ∃ digits, (fractionText nanos).toList = '.' :: digits ∧ (∀ c ∈ digits, Json.isDigit c) ∧
      Nat.ofDigitChars 10 digits 0 * 10 ^ (9 - digits.length) = nanos := by
  have hpoint (width n : Nat) :
      ("." ++ padded width n).toList = '.' :: (padded width n).toList := by
    rw [String.toList_append]
    rfl
  rw [fractionText, if_neg hne]
  split
  · refine ⟨_, hpoint 3 _, isDigit_of_mem_padded 3 _, ?_⟩
    rw [ofDigitChars_padded, length_padded (by decide) (by omega)]
    omega
  split
  · refine ⟨_, hpoint 6 _, isDigit_of_mem_padded 6 _, ?_⟩
    rw [ofDigitChars_padded, length_padded (by decide) (by omega)]
    omega
  · refine ⟨_, hpoint 9 _, isDigit_of_mem_padded 9 _, ?_⟩
    rw [ofDigitChars_padded, length_padded (by decide) (by omega)]
    omega

private theorem noDigit_fractionText {nanos : Nat} (hlt : nanos < 1000000000) :
    NoDigit ((fractionText nanos).toList ++ ['Z']) := by
  by_cases hzero : nanos = 0
  · rw [hzero]
    exact noDigit_cons rfl []
  · obtain ⟨digits, htext, -⟩ := toList_fractionText hzero hlt
    rw [htext]
    exact noDigit_cons rfl _

private theorem fractionText_injective {nanos nanos' : Nat} (h : nanos < 1000000000)
    (h' : nanos' < 1000000000)
    (heq : (fractionText nanos).toList ++ ['Z'] = (fractionText nanos').toList ++ ['Z']) :
    nanos = nanos' := by
  have hnone : (fractionText 0).toList = [] := rfl
  by_cases hzero : nanos = 0 <;> by_cases hzero' : nanos' = 0
  · exact hzero.trans hzero'.symm
  · obtain ⟨digits, htext, -⟩ := toList_fractionText hzero' h'
    rw [hzero, hnone, htext] at heq
    cases heq
  · obtain ⟨digits, htext, -⟩ := toList_fractionText hzero h
    rw [hzero', hnone, htext] at heq
    cases heq
  · obtain ⟨digits, htext, hdigits, hvalue⟩ := toList_fractionText hzero h
    obtain ⟨digits', htext', hdigits', hvalue'⟩ := toList_fractionText hzero' h'
    rw [htext, htext'] at heq
    obtain rfl : digits = digits' := List.append_cancel_right (List.cons.inj heq).2
    exact hvalue.symm.trans hvalue'

private theorem toList_text (t : Instant) :
    t.text.toList =
      (yearText (Date.ofDay (t.seconds / 86400)).year).toList ++ '-' ::
      ((padded 2 (Date.ofDay (t.seconds / 86400)).month).toList ++ '-' ::
      ((padded 2 (Date.ofDay (t.seconds / 86400)).day).toList ++ 'T' ::
      ((padded 2 ((t.seconds % 86400).toNat / 3600)).toList ++ ':' ::
      ((padded 2 ((t.seconds % 86400).toNat / 60 % 60)).toList ++ ':' ::
      ((padded 2 ((t.seconds % 86400).toNat % 60 + t.nanos / 1000000000)).toList ++
      ((fractionText (t.nanos % 1000000000)).toList ++ ['Z'])))))) := by
  have hlt := t.twoSeconds
  have hshown (second : Nat) : (if 1000000000 ≤ t.nanos then second + 1 else second) =
      second + t.nanos / 1000000000 := by
    split <;> omega
  have hnanos : (if 1000000000 ≤ t.nanos then t.nanos - 1000000000 else t.nanos) =
      t.nanos % 1000000000 := by
    split <;> omega
  simp [text, hshown, hnanos]

theorem text_injective {t t' : Instant} (ht : t.Regular) (ht' : t'.Regular)
    (h : t.text = t'.text) : t = t' := by
  have heq := congrArg String.toList h
  rw [toList_text, toList_text] at heq
  obtain ⟨hyear, heq⟩ := told_yearText _ _ _ _ trivial (noDigit_cons rfl _) (noDigit_cons rfl _) heq
  obtain ⟨hmonth, heq⟩ := told_padded 2 _ _ _ _ trivial (noDigit_cons rfl _) (noDigit_cons rfl _)
    (List.cons.inj heq).2
  obtain ⟨hday, heq⟩ := told_padded 2 _ _ _ _ trivial (noDigit_cons rfl _) (noDigit_cons rfl _)
    (List.cons.inj heq).2
  obtain ⟨hhour, heq⟩ := told_padded 2 _ _ _ _ trivial (noDigit_cons rfl _) (noDigit_cons rfl _)
    (List.cons.inj heq).2
  obtain ⟨hminute, heq⟩ := told_padded 2 _ _ _ _ trivial (noDigit_cons rfl _)
    (noDigit_cons rfl _) (List.cons.inj heq).2
  obtain ⟨hsecond, heq⟩ := told_padded 2 _ _ _ _ trivial
    (noDigit_fractionText (Nat.mod_lt _ (by decide)))
    (noDigit_fractionText (Nat.mod_lt _ (by decide))) (List.cons.inj heq).2
  have hfraction := fractionText_injective (Nat.mod_lt _ (by decide)) (Nat.mod_lt _ (by decide)) heq
  have hdate : t.seconds / 86400 = t'.seconds / 86400 := by
    refine Date.ofDay_injective ?_
    generalize Date.ofDay (t.seconds / 86400) = date at hyear hmonth hday ⊢
    generalize Date.ofDay (t'.seconds / 86400) = date' at hyear hmonth hday ⊢
    cases date
    cases date'
    simp only [Date.mk.injEq]
    exact ⟨hyear, hmonth, hday⟩
  -- the sixtieth second is the last one of a minute run on
  have hregular : t.nanos < 1000000000 ∨ t.seconds % 60 = 59 := ht
  have hregular' : t'.nanos < 1000000000 ∨ t'.seconds % 60 = 59 := ht'
  have hlt := t.twoSeconds
  have hlt' := t'.twoSeconds
  have hseconds : t.seconds = t'.seconds := by omega
  have hnanos : t.nanos = t'.nanos := by omega
  cases t
  cases t'
  simp only [mk.injEq]
  exact ⟨hseconds, hnanos⟩

end Instant

end AssetQuery
