import AssetQuery.Code.Basic
import AssetQuery.Number.Text
import AssetQuery.Text.Quoted

/-!
# Listings

A code in readable form: a line for each chunk, then the entry points and the blocks, which stand
further in.
-/

namespace AssetQuery

/-- What is shown for a number that cannot be read. -/
def shownOr {α : Type} (read : Except SerialError α) (shown : α → String) (otherwise : String) :
    String :=
  match read with
  | .ok a => shown a
  | .error _ => otherwise

namespace Primitive

mutual

/-- The short form of a primitive. -/
def describe : Primitive → String
  | ⟨.array _, _, items, _⟩ => "[" ++ ", ".intercalate (describeItems items) ++ "]"
  | ⟨.map _ _, _, _, entries⟩ =>
    "\x7b" ++ ", ".intercalate (describeEntries entries) ++ "\x7d"
  | p@⟨typ, _, _, _⟩ =>
    match typ with
    | .ref => shownOr p.asRef (fun r => s!"<{r.toInt}>") "<?>"
    | .functionLike => shownOr p.asRef (fun r => s!"fn{r.toInt}") "fn?"
    | .string => shownOr p.asText quoted "\"?\""
    | .int | .score => shownOr p.asInt (fun n => toString n.toInt) "?"
    | .float => shownOr p.asFloat NumberLayout.plain.write "?"
    | .bool => shownOr p.asBool (fun b => if b then "true" else "false") "?"
    | t => t.label

def describeItems : List Primitive → List String
  | [] => []
  | p :: rest => p.describe :: describeItems rest

def describeEntries : List (String × Primitive) → List String
  | [] => []
  | (key, p) :: rest => (key ++ ": " ++ p.describe) :: describeEntries rest

end

end Primitive

namespace Chunk

/-- What a chunk does. -/
def describe (c : Chunk) : String :=
  match c.kind with
  | .primitive => (c.primitive.map (·.describe)).getD "null"
  | .property =>
    let typ := (c.primitive.map (fun p => p.typ)).getD .any
    s!"property {c.id} <{typ.label}>"
  | .function =>
    match c.function with
    | none => ""
    | some f =>
      let receiver := if 0 < f.binding.toInt then s!"<{f.binding.toInt}>." else ""
      let args := ", ".intercalate (f.args.map (·.describe))
      s!"{receiver}{c.id}({args}) -> {f.typ.label}"

end Chunk

namespace Code

/-- A number in a column four characters wide. -/
def column (n : Nat) : String :=
  let digits := toString n
  String.ofList (List.replicate (4 - digits.length) ' ') ++ digits

/-- The lines for chunks, counted on from `index`. -/
def chunkLines (indent : String) (labels : List (Ref × String)) (index : Nat) :
    List Chunk → List String
  | [] => []
  | c :: rest =>
    let label := match labels.lookup (Int32.ofNat index) with
      | some label => "    ; " ++ label
      | none => ""
    (indent ++ column index ++ ": " ++ c.describe ++ label) ::
      chunkLines indent labels (index + 1) rest

mutual

/-- The lines of a code that stands some levels in. -/
def lines (level : Nat) : Code → List String
  | ⟨id, chunks, entrypoints, labels, functions, parameters, _⟩ =>
    let indent := String.ofList (List.replicate (2 * level) ' ')
    let shownId := if id.isEmpty then "<unfinalized>" else id
    let head := s!"{indent}; code {shownId} - {chunks.length} chunks, " ++
      s!"{entrypoints.length} entrypoints, {parameters.toInt} parameters"
    let ends := entrypoints.map fun r => s!"<{r.toInt}>"
    head :: (chunkLines indent labels 1 chunks ++
      (if entrypoints.isEmpty then []
       else [indent ++ "; entrypoints: " ++ " ".intercalate ends]) ++
      functionLines level 1 functions)

/-- The lines for blocks, counted on from `index`. -/
def functionLines (level index : Nat) : List Code → List String
  | [] => []
  | code :: rest =>
    let indent := String.ofList (List.replicate (2 * level) ' ')
    (indent ++ s!"; function {index}") ::
      (code.lines (level + 1) ++ functionLines level (index + 1) rest)

end

def listing (code : Code) : String := String.join ((code.lines 0).map (· ++ "\n"))

end Code

end AssetQuery
