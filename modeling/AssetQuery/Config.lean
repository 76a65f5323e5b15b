import AssetQuery.Json.Decoder

/-!
# Configuration

How many workers evaluate a code, whether failed fields are kept, and how deep evaluation may go.
-/

namespace AssetQuery

structure Config where
  /-- The number of workers. -/
  concurrency : Nat
  /-- Whether failures to compute a field are kept. -/
  cacheErrors : Bool
  /-- How deep the evaluation of a chunk may go. -/
  maxDepth : Nat
  deriving DecidableEq, Repr

namespace Config

def default : Config := ⟨5, true, 1024⟩

inductive Error where
  | notRead
  | noConcurrency
  | noDepth
  deriving DecidableEq, Repr

def Error.message : Error → String
  | notRead => "<json>"
  | noConcurrency => "concurrency must be at least 1"
  | noDepth => "maxDepth must be at least 1"

def validate (c : Config) : Except Error Config :=
  if c.concurrency = 0 then .error .noConcurrency
  else if c.maxDepth = 0 then .error .noDepth
  else .ok c

/-- Reads a configuration; what is not given is as in `base`. -/
def decoder (base : Config) : Json.Decoder Config := fun room doc => do
  let fields ← Json.Decoder.record ["concurrency", "cacheErrors", "maxDepth"] room doc
  let concurrency ← fields.orElse "concurrency" (.natBelow UInt64.size) base.concurrency
  let cacheErrors ← fields.orElse "cacheErrors" .bool base.cacheErrors
  let maxDepth ← fields.orElse "maxDepth" (.natBelow UInt64.size) base.maxDepth
  return ⟨concurrency, cacheErrors, maxDepth⟩

/-- The configuration that a JSON text gives. -/
def read (text : String) : Except Error Config :=
  match Json.Decoder.run (decoder default) text with
  | none => .error .notRead
  | some c => c.validate

end Config

end AssetQuery
