import AssetQuery.Number.Double

/-!
# The text of a double

The shortest digits that stand for a double and for no other one, and two ways to write the double
by them: in JSON, and in plain positional notation.
-/

namespace AssetQuery

/-- A positive decimal number: `digits`, read as a whole number, times `10 ^ exponent`. -/
structure DecimalDigits where
  digits : Nat
  exponent : Int
  deriving DecidableEq, Repr

namespace Double

/-- The interval of ratios that round to a double, on a common denominator: its ends, the double
itself and the denominator. The ends belong to it if the significand is even. -/
structure Neighbourhood where
  low : Nat
  value : Nat
  high : Nat
  den : Nat
  closed : Bool

/-- The neighbourhood of the double `m * 2 ^ e`. The gap below a power of two is half as wide. -/
def neighbourhood (m : Nat) (e : Int) : Neighbourhood :=
  let narrow := m == Nat.pow 2 52 && -1074 < e
  let up := Nat.pow 2 e.toNat
  let down := Nat.pow 2 (-e).toNat
  { low := (if narrow then 4 * m - 1 else 4 * m - 2) * up
    value := 4 * m * up
    high := (4 * m + 2) * up
    den := 4 * down
    closed := m % 2 == 0 }

/-- Whether `digits * 10 ^ k` lies in the neighbourhood. -/
def Neighbourhood.holds (n : Neighbourhood) (digits : Nat) (k : Int) : Bool :=
  let x := digits * Nat.pow 10 k.toNat * n.den
  let scale := Nat.pow 10 (-k).toNat
  if n.closed then n.low * scale ≤ x && x ≤ n.high * scale
  else n.low * scale < x && x < n.high * scale

/-- The multiple of `10 ^ k` in the neighbourhood that is nearest to its value, if there is one. -/
def Neighbourhood.onGrid? (n : Neighbourhood) (k : Int) : Option Nat :=
  let num := n.value * Nat.pow 10 (-k).toNat
  let den := n.den * Nat.pow 10 k.toNat
  let below := num / den
  let above := below + 1
  match n.holds below k, n.holds above k with
  | true, true =>
    -- twice the distance from the lower neighbour, against the width of the grid
    let r := num % den
    if 2 * r < den || (2 * r == den && below % 2 == 0) then some below else some above
  | true, false => some below
  | false, true => some above
  | false, false => none

/-- The digits on the first grid, of the `grids` grids from `10 ^ k` on down, that has any. -/
def Neighbourhood.search (n : Neighbourhood) : (grids : Nat) → (k : Int) → DecimalDigits
  | 0, k => ⟨n.value / n.den, k⟩
  | grids + 1, k =>
    match n.onGrid? k with
    | some digits => ⟨digits, k⟩
    | none => n.search grids (k - 1)

/-- The number of decimal digits before the point of a ratio, or minus the number of zeros after
it, found from an estimate that is off by at most one. -/
def decimalMagnitude (num den : Nat) : Int :=
  let estimate : Int := ((Nat.log2 num : Int) - Nat.log2 den) * 30103 / 100000
  let least (k : Int) : Bool := den * Nat.pow 10 k.toNat ≤ num * Nat.pow 10 (-k).toNat
  if least (estimate + 1) then estimate + 2
  else if least estimate then estimate + 1
  else if least (estimate - 1) then estimate
  else estimate - 1

/-- Moves the zeros at the end of the digits into the exponent, `count` of them at most. -/
def DecimalDigits.normalize : (count : Nat) → DecimalDigits → DecimalDigits
  | 0, d => d
  | count + 1, d =>
    if d.digits % 10 = 0 && d.digits ≠ 0 then normalize count ⟨d.digits / 10, d.exponent + 1⟩
    else d

/-- The shortest digits of a finite double other than zero. -/
def shortest (x : Double) : DecimalDigits :=
  let n := neighbourhood x.significand x.exponent
  DecimalDigits.normalize 20 (n.search 20 (decimalMagnitude n.value n.den))

end Double

/-- How doubles are written. -/
structure NumberLayout where
  /-- The powers of ten of the first digit that are written without an exponent. -/
  positional : Int → Bool
  /-- Whether a whole number written without an exponent ends in `.0`. -/
  pointZero : Bool
  notANumber : String
  infinity : String
  minusInfinity : String

namespace NumberLayout

/-- JSON has no text for what is not a finite number, and keeps whole doubles apart from integers
by `.0`. -/
def json : NumberLayout where
  positional e := -5 ≤ e && e < 16
  pointZero := true
  notANumber := "null"
  infinity := "null"
  minusInfinity := "null"

/-- Positional notation for every double. -/
def plain : NumberLayout where
  positional _ := true
  pointZero := false
  notANumber := "NaN"
  infinity := "inf"
  minusInfinity := "-inf"

/-- Digits times `10 ^ exponent` without an exponent. -/
def writePositional (layout : NumberLayout) (digits : String) (exponent : Int) : String :=
  if 0 ≤ exponent then
    digits ++ String.ofList (List.replicate exponent.toNat '0') ++
      (if layout.pointZero then ".0" else "")
  else
    let places := (-exponent).toNat
    if places < digits.length then
      let whole := digits.length - places
      String.ofList (digits.toList.take whole) ++ "." ++ String.ofList (digits.toList.drop whole)
    else "0." ++ String.ofList (List.replicate (places - digits.length) '0') ++ digits

/-- One digit, the others after a point, and the power of ten with its sign. -/
def writeScientific (digits : String) (power : Int) : String :=
  let first := String.ofList (digits.toList.take 1)
  let others := String.ofList (digits.toList.drop 1)
  let sign := if 0 ≤ power then "+" else "-"
  first ++ (if others.isEmpty then "" else "." ++ others) ++ "e" ++ sign ++ toString power.natAbs

/-- The text of a double. -/
def write (layout : NumberLayout) (x : Double) : String :=
  if x.isNaN then layout.notANumber
  else if x.isInfinite then (if x.isNegative then layout.minusInfinity else layout.infinity)
  else
    let sign := if x.isNegative then "-" else ""
    if x.isZero then sign ++ layout.writePositional "0" 0
    else
      let d := x.shortest
      let digits := toString d.digits
      let power := d.exponent + digits.length - 1
      if layout.positional power then sign ++ layout.writePositional digits d.exponent
      else sign ++ writeScientific digits power

end NumberLayout

end AssetQuery
