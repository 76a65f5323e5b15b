import AssetQuery.Primitive.Basic
import AssetQuery.Schema.Basic
import AssetQuery.Value.Basic

/-!
# Errors of evaluation
-/

namespace AssetQuery

/-- What is wrong with an argument or a receiver. -/
inductive ArgumentFault where
  | receiver (t : Ty)
  | notInt
  | notString
  | notStrings
  | notBlock
  /-- An entry of a block's row is an error. -/
  | failedEntry (label error : String)
  /-- Names and values do not alternate. -/
  | unpaired
  | notLoaded (name id : String)
  deriving DecidableEq, Repr

def ArgumentFault.message : ArgumentFault → String
  | receiver t => s!"unexpected receiver of type '{t.label}'"
  | notInt => "expected an int argument"
  | notString => "expected a string argument"
  | notStrings => "expected a []string argument"
  | notBlock => "expected a block"
  | failedEntry label error => s!"{label}: {error}"
  | unpaired => "resource arguments must come in name/value pairs"
  | notLoaded name id => s!"resource {name} id = {id} is not loaded"

/-- Why a chunk cannot be evaluated. -/
inductive EvalError where
  | invalidReference (r : Ref)
  | invalidFunction (r : Ref)
  | unknownFunction (name : String) (receiver : Ty)
  | invalidArgument (function : String) (fault : ArgumentFault)
  | missingProperty (name : String)
  | depthExceeded (most : Nat)
  | resource (e : ResourceError)
  | serial (e : SerialError)
  deriving DecidableEq, Repr

def EvalError.message : EvalError → String
  | invalidReference r => s!"chunk <{r.toInt}> does not exist"
  | invalidFunction r => s!"function <{r.toInt}> does not exist"
  | unknownFunction name receiver =>
    s!"cannot find runtime function '{name}' for type '{receiver.label}'"
  | invalidArgument function fault => s!"invalid argument for '{function}': {fault.message}"
  | missingProperty name => s!"property '{name}' was not provided"
  | depthExceeded most => s!"execution exceeded the maximum depth of {most}"
  | resource e => e.message
  | serial e => e.message

end AssetQuery
