import AssetQuery.Json.Reader
import AssetQuery.Number.Double

/-!
# What a JSON number stands for

A number that is written without point and exponent and fits in 64 bits is a whole number. Any
other is a double: of its digits those count that together fit in 64 bits, and the double nearest
to them is scaled by a power of ten that is itself rounded.
-/

namespace AssetQuery.Json

/-- What a number stands for. -/
inductive Numeral where
  | whole (n : Int)
  | double (x : Double)
  deriving DecidableEq, Repr

/-- The leading digits of a number and the power of ten they are scaled by. -/
structure Scaled where
  significand : Nat
  exponent : Int

/-- Digits before the point: those that do not fit any more count as places. -/
def Scaled.ofWhole (ds : List Char) : Scaled × Bool :=
  let rec go (acc : Nat) : List Char → Scaled × Bool
    | [] => (⟨acc, 0⟩, true)
    | c :: rest =>
      let next := acc * 10 + (c.toNat - '0'.toNat)
      if next < UInt64.size then go next rest else (⟨acc, (c :: rest).length⟩, false)
  go 0 ds

/-- Digits after the point: those that do not fit any more are dropped. -/
def Scaled.addFraction (s : Scaled) : List Char → Scaled
  | [] => s
  | c :: rest =>
    let next := s.significand * 10 + (c.toNat - '0'.toNat)
    if next < UInt64.size then addFraction ⟨next, s.exponent - 1⟩ rest else s

/-- The number that digits spell. -/
def readDigits (ds : List Char) : Nat := ds.foldl (fun n c => n * 10 + (c.toNat - '0'.toNat)) 0

/-- The product of two finite doubles. -/
def mulDoubles (x y : Double) : Double :=
  Double.ofRatio false (x.ratio.1 * y.ratio.1) (x.ratio.2 * y.ratio.2)

/-- The quotient of two finite doubles, the second not zero. -/
def divDoubles (x y : Double) : Double :=
  Double.ofRatio false (x.ratio.1 * y.ratio.2) (x.ratio.2 * y.ratio.1)

def powerOfTen (n : Nat) : Double := Double.ofRatio false (Nat.pow 10 n) 1

/-- Divides by `10 ^ places`, by at most `10 ^ 308` at a time. -/
def scaleDown (x : Double) (places : Nat) : Double :=
  if places ≤ 308 then divDoubles x (powerOfTen places)
  else if x.isZero then x
  else scaleDown (divDoubles x (powerOfTen 308)) (places - 308)
termination_by places

/-- The double without its sign. A number that is too large has none. -/
def Scaled.toDouble? (s : Scaled) : Option Double :=
  let x := Double.ofRatio false s.significand 1
  if s.exponent < 0 then some (scaleDown x s.exponent.natAbs)
  else if s.exponent ≤ 308 then
    let y := mulDoubles x (powerOfTen s.exponent.toNat)
    if y.isInfinite then none else some y
  else if x.isZero then some x
  else none

/-- The largest exponent that is worked with. -/
def exponentLimit : Nat := 2147483647

/-- Adds an exponent that is written out. One that is too large makes a number other than zero too
large or nothing. -/
def Scaled.withExponent? (s : Scaled) (negative : Bool) (ds : List Char) : Option Double :=
  let e := readDigits ds
  if e ≤ exponentLimit then
    let total : Int := if negative then s.exponent - e else s.exponent + e
    Scaled.toDouble? ⟨s.significand, max (-2147483648) (min 2147483647 total)⟩
  else if s.significand ≠ 0 && !negative then none
  else some (Double.ofMagnitude false 0)

/-- Gives a double its sign. -/
def signed (negative : Bool) (x : Double) : Double := Double.ofMagnitude negative x.magnitude

/-- What a number without its sign stands for. -/
def unsignedNumeral? (negative : Bool) (text : List Char) : Option Numeral :=
  let (ds, text) := digits text
  let (s, fits) := Scaled.ofWhole ds
  let double (x : Option Double) : Option Numeral := x.map fun x => .double (signed negative x)
  let withRest (s : Scaled) : List Char → Option Numeral
    | [] => double s.toDouble?
    | _ :: '-' :: ds => double (s.withExponent? true ds)
    | _ :: '+' :: ds => double (s.withExponent? false ds)
    | _ :: ds => double (s.withExponent? false ds)
  match text with
  | [] =>
    if !fits then double s.toDouble?
    else if !negative then some (.whole s.significand)
    else if s.significand = 0 || Nat.pow 2 63 < s.significand then
      double (some (Double.ofRatio false s.significand 1))
    else some (.whole (-s.significand))
  | '.' :: rest =>
    let (ds, rest) := digits rest
    withRest (s.addFraction ds) rest
  | rest => withRest s rest

/-- What a number of JSON stands for. A number too large for a double stands for nothing. -/
def numeral? (spelling : String) : Option Numeral :=
  match spelling.toList with
  | '-' :: rest => unsignedNumeral? true rest
  | text => unsignedNumeral? false text

/-- The number as a double. -/
def Numeral.toDouble : Numeral → Double
  | .whole n => Double.ofRatio (n < 0) n.natAbs 1
  | .double x => x

end AssetQuery.Json
