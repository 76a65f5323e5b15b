/-!
# Double-precision numbers

A double is its 64 bits. Order, rounding to the nearest double and the decimal text of a double
are worked out from the bits in exact arithmetic.
-/

namespace AssetQuery

/-- A double-precision number, given by its bits. -/
structure Double where
  bits : UInt64
  deriving DecidableEq, Repr, Inhabited

namespace Double

def isNegative (x : Double) : Bool := Nat.pow 2 63 ≤ x.bits.toNat

/-- The bits below the sign. They grow with the magnitude. -/
def magnitude (x : Double) : Nat := x.bits.toNat % Nat.pow 2 63

/-- The magnitude of infinity; larger ones are not numbers. -/
def infiniteMagnitude : Nat := 0x7ff * Nat.pow 2 52

def isNaN (x : Double) : Bool := infiniteMagnitude < x.magnitude

def isInfinite (x : Double) : Bool := x.magnitude == infiniteMagnitude

def isFinite (x : Double) : Bool := x.magnitude < infiniteMagnitude

def isZero (x : Double) : Bool := x.magnitude == 0

/-- A whole number that orders the doubles which are numbers; the two zeros share one. -/
def order (x : Double) : Int := if x.isNegative then -x.magnitude else x.magnitude

/-- How two doubles compare. What is not a number compares with nothing. -/
def compare? (x y : Double) : Option Ordering :=
  if x.isNaN || y.isNaN then none else some (compare x.order y.order)

/-- A finite double is `significand * 2 ^ exponent`, up to its sign. -/
def significand (x : Double) : Nat :=
  let e := x.magnitude / Nat.pow 2 52
  let m := x.magnitude % Nat.pow 2 52
  if e = 0 then m else Nat.pow 2 52 + m

def exponent (x : Double) : Int :=
  let e : Nat := x.magnitude / Nat.pow 2 52
  if e = 0 then -1074 else (e : Int) - 1075

/-- The double of a sign and a magnitude. -/
def ofMagnitude (negative : Bool) (magnitude : Nat) : Double :=
  ⟨UInt64.ofNat (magnitude + if negative then Nat.pow 2 63 else 0)⟩

/-- The magnitude of the double nearest to `num / den`, ties going to the even one, where
`den` is not zero. -/
def nearestMagnitude (num den : Nat) : Nat :=
  if num = 0 then 0 else
    -- the exponent for which the quotient has 53 digits, or the least one
    let guess : Int := (Nat.log2 num : Int) - Nat.log2 den - 52
    let scaled (e : Int) : Nat × Nat :=
      if 0 ≤ e then (num, den * Nat.pow 2 e.toNat) else (num * Nat.pow 2 (-e).toNat, den)
    let low := (scaled guess).1 < (scaled guess).2 * Nat.pow 2 52
    let e := max (-1074) (if low then guess - 1 else guess)
    let (n, d) := scaled e
    let q := n / d
    let r := n % d
    let rounded := if 2 * r > d || (2 * r == d && q % 2 == 1) then q + 1 else q
    -- a carry out of the significand moves on to the next exponent by itself
    let magnitude := (e + 1074).toNat * Nat.pow 2 52 + rounded
    min magnitude infiniteMagnitude

/-- The double nearest to `num / den`. -/
def ofRatio (negative : Bool) (num den : Nat) : Double :=
  ofMagnitude negative (nearestMagnitude num den)

/-- The magnitude of a finite double as a ratio. -/
def ratio (x : Double) : Nat × Nat :=
  if 0 ≤ x.exponent then (x.significand * Nat.pow 2 x.exponent.toNat, 1)
  else (x.significand, Nat.pow 2 (-x.exponent).toNat)

/-- The sixteen hexadecimal digits of the bits. -/
def hex (x : Double) : String :=
  String.ofList <| (List.range 16).map fun i =>
    Nat.digitChar (x.bits.toNat / Nat.pow 16 (15 - i) % 16)

end Double

end AssetQuery
