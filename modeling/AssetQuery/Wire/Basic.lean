import AssetQuery.Text.Utf8

/-!
# The wire format

Values are written one after the other without names or separators. Whole numbers are of a fixed
number of bytes, the low byte first, or of variable length: in groups of seven bits, the lowest
first, every byte but the last with its high bit set. A text or a list is preceded by its length, an
optional value by 0 or 1. Here are the writers and readers of these parts.
-/

namespace AssetQuery

namespace Wire

/-- Why bytes cannot be read. -/
inductive Error where
  | endOfBuffer
  | unterminatedNumber
  | badText
  | badOption
  | rejected
  deriving DecidableEq, Repr

def Error.message : Error → String
  | endOfBuffer => "Hit the end of buffer, expected more data"
  | unterminatedNumber =>
    "Found a varint that didn't terminate. Is the usize too big for this platform?"
  | badText => "Tried to parse invalid utf-8"
  | badOption => "Found an Option discriminant that wasn't 0 or 1"
  | rejected => "Serde Deserialization Error"

end Wire

/-- The `count` low bytes of a number, the lowest first. -/
def littleEndian : (count : Nat) → Nat → Bytes
  | 0, _ => []
  | count + 1, n => UInt8.ofNat n :: littleEndian count (n / 256)

/-- The number whose bytes are given, the lowest first. -/
def ofLittleEndian : Bytes → Nat
  | [] => 0
  | b :: rest => b.toNat + 256 * ofLittleEndian rest

@[simp] theorem length_littleEndian (count n : Nat) : (littleEndian count n).length = count := by
  induction count generalizing n with
  | zero => rfl
  | succ count ih => simp [littleEndian, ih]

namespace Wire

/-- The bytes of a number. -/
def varint (n : Nat) : Bytes :=
  if n < 128 then [UInt8.ofNat n] else UInt8.ofNat (n % 128 + 128) :: varint (n / 128)
termination_by n
decreasing_by omega

/-- Reads a number of at most `bytes` bytes, the last of which, if all are used, is at most
`last`. -/
def takeVarint : (bytes last : Nat) → Bytes → Except Error (Nat × Bytes)
  | 0, _, _ => .error .unterminatedNumber
  | _ + 1, _, [] => .error .endOfBuffer
  | bytes + 1, last, b :: rest =>
    if b.toNat < 128 then
      if bytes = 0 && last < b.toNat then .error .unterminatedNumber else .ok (b.toNat, rest)
    else
      match takeVarint bytes last rest with
      | .ok (high, rest) => .ok (b.toNat - 128 + 128 * high, rest)
      | .error e => .error e

/-- Folds the signed numbers onto the others: 0, -1, 1, -2, 2, … -/
def zigzag (n : Int) : Nat := if 0 ≤ n then 2 * n.toNat else 2 * (-n).toNat - 1

def unzigzag (n : Nat) : Int := if n % 2 = 0 then (n / 2 : Nat) else -((n + 1) / 2 : Nat)

theorem unzigzag_zigzag (n : Int) : unzigzag (zigzag n) = n := by
  simp only [zigzag, unzigzag]
  split <;> split <;> omega

/-- Reads a value from the front of some bytes. -/
abbrev Reader (α : Type) := Bytes → Except Error (α × Bytes)

variable {α β : Type}

namespace Reader

def done (a : α) : Reader α := fun bytes => .ok (a, bytes)

def fail (e : Error) : Reader α := fun _ => .error e

/-- Reads a value and then what depends on it. -/
def andThen (r : Reader α) (k : α → Reader β) : Reader β := fun bytes =>
  match r bytes with
  | .ok (a, rest) => k a rest
  | .error e => .error e

instance : Monad Reader where
  pure := done
  bind := andThen

/-- A length: at most 64 bits. -/
def length : Reader Nat := takeVarint 10 1

/-- A number of at most 32 bits. -/
def number32 : Reader Nat := takeVarint 5 15

def int32 : Reader Int32 := andThen number32 fun n => done (Int32.ofInt (unzigzag n))

/-- So many bytes. -/
def take (count : Nat) : Reader Bytes := fun bytes =>
  if count ≤ bytes.length then .ok (bytes.take count, bytes.drop count) else .error .endOfBuffer

/-- Bytes after their number. -/
def bytes : Reader Bytes := andThen length take

/-- A text after the number of its bytes. -/
def text : Reader String := andThen bytes fun b =>
  match Utf8.decode b with
  | .ok s => done s
  | .error _ => fail .badText

/-- So many values. -/
def times (item : Reader α) : Nat → Reader (List α)
  | 0 => done []
  | count + 1 => andThen item fun a => andThen (times item count) fun as => done (a :: as)

/-- Values after their number. -/
def list (item : Reader α) : Reader (List α) := andThen length (times item)

def pair (first : Reader α) (second : Reader β) : Reader (α × β) :=
  andThen first fun a => andThen second fun b => done (a, b)

/-- A value that may be missing. -/
def optional (item : Reader α) : Reader (Option α) := fun input =>
  match input with
  | [] => .error .endOfBuffer
  | b :: rest =>
    if b = 0 then .ok (none, rest)
    else if b = 1 then andThen item (fun a => done (some a)) rest
    else .error .badOption

end Reader

def writeInt32 (n : Int32) : Bytes := varint (zigzag n.toInt)

def writeBytes (b : Bytes) : Bytes := varint b.length ++ b

def writeText (s : String) : Bytes := writeBytes (Utf8.encode s)

end Wire

end AssetQuery
