/-!
# Points in time

A point in time is a count of seconds since 1970 began and the nanoseconds of that second, which may
run on for a second more. Only at the end of a minute is that taken for a leap second. The text is
that of RFC 3339 in UTC: the fraction of a second has as many groups of three digits as it takes,
and years of other than four digits have a sign.
-/

namespace AssetQuery

/-- A point in time. The seconds are those of the years from -262143 to 262142. -/
structure Instant where
  seconds : Int
  nanos : Nat
  inRange : -8334601228800 ≤ seconds ∧ seconds ≤ 8210266876799
  twoSeconds : nanos < 2000000000
  deriving DecidableEq, Repr

namespace Instant

/-- Whether a second that runs on is the last of a minute. -/
def Regular (t : Instant) : Prop := t.nanos < 1000000000 ∨ t.seconds % 60 = 59

instance (t : Instant) : Decidable t.Regular :=
  inferInstanceAs (Decidable (t.nanos < 1000000000 ∨ t.seconds % 60 = 59))

/-- The point in time with these counts of seconds and nanoseconds, if there is a regular one. -/
def of? (seconds : Int) (nanos : Nat) : Option Instant :=
  if hs : -8334601228800 ≤ seconds ∧ seconds ≤ 8210266876799 then
    if hn : nanos < 2000000000 then
      let t : Instant := ⟨seconds, nanos, hs, hn⟩
      if t.Regular then some t else none
    else none
  else none

theorem of?_self (t : Instant) :
    of? t.seconds t.nanos = if t.Regular then some t else none := by
  rw [of?, dif_pos t.inRange, dif_pos t.twoSeconds]

protected def compare (a b : Instant) : Ordering :=
  (compare a.seconds b.seconds).then (compare a.nanos b.nanos)

end Instant

/-- A date of the Gregorian calendar, carried on to all years. -/
structure Date where
  year : Int
  month : Nat
  day : Nat
  deriving DecidableEq, Repr

/-- The date so many days after 1 January 1970. Years are counted from March, so that a leap day
ends its year; an era of 400 years has 146097 days. -/
def Date.ofDay (day : Int) : Date :=
  let shifted := day + 719468
  let era := shifted / 146097
  let dayOfEra := (shifted % 146097).toNat
  let yearOfEra := (dayOfEra - dayOfEra / 1460 + dayOfEra / 36524 - dayOfEra / 146096) / 365
  let dayOfYear := dayOfEra - (365 * yearOfEra + yearOfEra / 4 - yearOfEra / 100)
  let marchMonth := (5 * dayOfYear + 2) / 153
  let month := if marchMonth < 10 then marchMonth + 3 else marchMonth - 9
  { year := yearOfEra + era * 400 + (if month ≤ 2 then 1 else 0)
    month
    day := dayOfYear - (153 * marchMonth + 2) / 5 + 1 }

/-- A number with zeros in front, up to a width. -/
def padded (width n : Nat) : String :=
  let digits := toString n
  String.ofList (List.replicate (width - digits.length) '0') ++ digits

namespace Instant

def yearText (year : Int) : String :=
  if 0 ≤ year && year ≤ 9999 then padded 4 year.natAbs
  else (if year < 0 then "-" else "+") ++ padded 4 year.natAbs

def fractionText (nanos : Nat) : String :=
  if nanos = 0 then ""
  else if nanos % 1000000 = 0 then "." ++ padded 3 (nanos / 1000000)
  else if nanos % 1000 = 0 then "." ++ padded 6 (nanos / 1000)
  else "." ++ padded 9 nanos

/-- The RFC 3339 text. What a second runs on shows in the second after it, be it second 60. -/
def text (t : Instant) : String :=
  let date := Date.ofDay (t.seconds / 86400)
  let second := (t.seconds % 86400).toNat
  let leap := 1000000000 ≤ t.nanos
  let nanos := if leap then t.nanos - 1000000000 else t.nanos
  let shown := if leap then second % 60 + 1 else second % 60
  yearText date.year ++ "-" ++ padded 2 date.month ++ "-" ++ padded 2 date.day ++ "T" ++
    padded 2 (second / 3600) ++ ":" ++ padded 2 (second / 60 % 60) ++ ":" ++ padded 2 shown ++
    fractionText nanos ++ "Z"

end Instant

end AssetQuery
