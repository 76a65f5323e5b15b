import AssetQuery.Proofs.Builtin.Clauses
import AssetQuery.Proofs.Builtin.Columns
import AssetQuery.Proofs.Eval.Execution
import Mathlib.Data.List.Forall2

/-!
# Projections

A projection evaluates the entry points of its block for one item after the other. It makes a map of
the values for each of them, with an entry for every entry point; which keys there are depends on
the labels alone.
-/

namespace AssetQuery

variable {σ α β γ : Type}

/-- The labels of the entry points of a code. -/
def Code.columns (code : Code) : List String :=
  code.entrypoints.map fun r => (code.labels.lookup r).getD ""

section Traversal

variable {m : Type → Type} [Monad m] [LawfulMonad m]

private theorem mapM_pair (f : α → β) (g : α → m γ) (as : List α) :
    (as.mapM fun a => do return (f a, ← g a)) = (fun cs => (as.map f).zip cs) <$> as.mapM g := by
  induction as with
  | nil => simp
  | cons a rest ih =>
    rw [List.mapM_cons, List.mapM_cons, ih]
    simp

private theorem Builtin.plain_projection {receiver : Data} {items : List Value}
    (hitems : receiver.value = .array items) (hlist : receiver.typ.underlying ≠ .arrayLike) (t : Ty)
    (args : List Data) : ∃ e, Builtin.plain Builtin.projection t receiver args = .error e := by
  rw [Builtin.plain]
  cases hclass : receiver.typ.underlying with
  | arrayLike => exact absurd hclass hlist
  | string =>
    refine ⟨.invalidArgument Builtin.projection (.receiver receiver.typ), ?_⟩
    show Builtin.ofString _ _ _ = _
    rw [Builtin.ofString, if_neg (by decide), hitems]
    rfl
  | _ => exact ⟨_, rfl⟩

private theorem Builtin.apply_projection (block : Ref → Data → ExceptT EvalError m Row)
    {receiver : Data}
    {args : List Data} {items : List Value} {r : Ref} (hitems : receiver.value = .array items)
    (hargs : args.head?.map (·.value) = some (.function r)) (t : Ty) :
    (∃ e, Builtin.apply block Builtin.projection t receiver args = throw e) ∨
      Builtin.apply block Builtin.projection t receiver args =
        (fun rows => .of (.array (rows.map Row.toValue)) (.array (.map .string .any))) <$>
          items.mapM fun item => block r (Builtin.element receiver.typ item) := by
  have hcomparison : Comparison.ofName? Builtin.projection = none := by decide
  rw [Builtin.apply, hcomparison]
  simp only [hitems, Value.isNil, Bool.false_eq_true, if_false]
  by_cases hlist : receiver.typ.underlying = .arrayLike
  · right
    obtain ⟨⟨_, u, cause⟩, hfirst, rfl⟩ := Option.map_eq_some_iff.mp hargs
    obtain ⟨rest, rfl⟩ := List.head?_eq_some_iff.mp hfirst
    have hitems' : Builtin.items projection receiver = .ok items := by rw [Builtin.items, hitems]
    have hwhere : projection ≠ "where" := by decide
    simp [hlist, hwhere, hitems', projectItems_eq, blockArg, MonadExcept.ofExcept]
  · left
    obtain ⟨e, he⟩ := Builtin.plain_projection hitems hlist t args
    refine ⟨e, ?_⟩
    rw [if_neg (by simp [hlist]), he]
    rfl

end Traversal

namespace Execution

variable {before after : Progress σ}

private theorem isolated_map (f : α → β) (x : Execution σ α) : isolated
    (f <$> x) = f <$> isolated x := by
  funext progress
  rw [map_eq_pure_bind, map_eq_pure_bind]
  show (Option.bind _ _).bind _ = (Option.bind _ _).bind _
  cases x { progress with values := [] } with
  | none => rfl
  | some outcome =>
    obtain ⟨reply, after⟩ := outcome
    cases reply <;> rfl

private theorem eq_ok_of_map {f : α → β} {x : Execution σ α} {b : β}
    (h : (f <$> x) before = some (.ok b, after)) :
    ∃ a, x before = some (.ok a, after) ∧ b = f a := by
  rw [map_eq_pure_bind] at h
  rcases eq_some_of_bind h with ⟨_, herror, _⟩ | ⟨a, mid, hx, hpure⟩
  · cases herror
  · cases hpure
    exact ⟨a, hx, rfl⟩

theorem results_of_mapM {f : α → Execution σ β} {as : List α} {bs : List β}
    (h : as.mapM f before = some (.ok bs, after)) :
    bs.length = as.length ∧ ∀ b ∈ bs, ∃ a start stop, f a start = some (.ok b, stop) := by
  induction as generalizing bs before with
  | nil =>
    cases h
    exact ⟨rfl, List.forall_mem_nil _⟩
  | cons a rest ih =>
    rw [List.mapM_cons] at h
    rcases eq_some_of_bind h with ⟨_, herror, _⟩ | ⟨b, mid, ha, h⟩
    · cases herror
    rcases eq_some_of_bind h with ⟨_, herror, _⟩ | ⟨others, last, hrest, hpure⟩
    · cases herror
    cases hpure
    obtain ⟨hlength, hall⟩ := ih hrest
    exact ⟨congrArg (· + 1) hlength, List.forall_mem_cons.mpr ⟨⟨a, before, mid, ha⟩, hall⟩⟩

/-- The values of the entry points of a block for an element. -/
def cells (value : Frame → Ref → Execution σ Data) (block : Code) (element : Data) :
    Execution σ (List Data) :=
  isolated (block.entrypoints.mapM (value (Frame.ofBlock block element)))

private theorem requests_block {s : Setting σ} {frame : Frame} {r : Ref} {block : Code}
    (h : frame.code.function? r = some block) (value target : Frame → Ref → Execution σ Data)
    (element : Data) :
    (requests s frame value target).block r element =
      (fun values => block.columns.zip values) <$> cells value block element := by
  show isolated (Eval.row value frame r element) = _
  rw [Eval.row, h, cells, ← isolated_map]
  exact congrArg isolated (mapM_pair _ _ _)

private theorem length_cells {value : Frame → Ref → Execution σ Data} {block : Code}
    {element : Data}
    {values : List Data} (h : cells value block element before = some (.ok values, after)) :
    values.length = block.columns.length := by
  obtain ⟨⟨reply, last⟩, hrun, hreply⟩ := Option.bind_eq_some_iff.mp h
  cases hreply
  rw [Code.columns, List.length_map, (results_of_mapM hrun).1]

section Runs

variable {s : Setting σ} {levels : Nat} {target : Frame → Ref → Execution σ Data} {frame : Frame}
  {r : Ref} {block : Code} {t : Ty} {receiver data : Data} {args : List Data} {items : List Value}

private theorem exists_table (hblock : frame.code.function? r = some block)
    (hitems : receiver.value = .array items)
    (hargs : args.head?.map (·.value) = some (.function r))
    (h : Builtin.apply (requests s frame (value s levels) target).block Builtin.projection t
      receiver args before = some (.ok data, after)) :
    ∃ table : List (List Data),
      (items.mapM fun item => cells (value s levels) block (Builtin.element receiver.typ item))
        before = some (.ok table, after) ∧
      data = .of (.array (table.map fun values => Row.toValue (block.columns.zip values)))
        (.array (.map .string .any)) ∧
      table.length = items.length ∧
      ∀ values ∈ table, block.columns.length = values.length := by
  rcases Builtin.apply_projection (requests s frame (value s levels) target).block hitems hargs t
    with ⟨e, he⟩ | heq
  · rw [he] at h
    cases h
  · -- labels are put to values after the run, which is then a traversal of the values alone
    rw [heq] at h
    simp only [requests_block hblock, mapM_map_eq] at h
    obtain ⟨given, hgiven, rfl⟩ := eq_ok_of_map h
    obtain ⟨table, hrun, rfl⟩ := eq_ok_of_map hgiven
    obtain ⟨hlength, hresults⟩ := results_of_mapM hrun
    refine ⟨table, hrun, by rw [List.map_map]; rfl, hlength, fun values hvalues => ?_⟩
    obtain ⟨_, _, _, hcells⟩ := hresults values hvalues
    exact (length_cells hcells).symm

/-- A projection loses nothing. What the entry points of its block give for the items, one item
after the other, is in the rows, one for each item in order: a row is a map with an entry for each
entry point, under the key of that, and has no others. The keys are the same in all rows. They are
different from each other, and each is the label of its entry point, unless a key before is that
label: then it is the label and the position of the entry point, with the fewest marks that make it
differ from the keys before. -/
theorem projection_holds (hblock : frame.code.function? r = some block)
    (hitems : receiver.value = .array items)
    (hargs : args.head?.map (·.value) = some (.function r))
    (h : Builtin.apply (requests s frame (value s levels) target).block Builtin.projection t
      receiver args before = some (.ok data, after)) :
    ∃ (table : List (List Data)) (rows : List (List (String × Value))) (keys : List String),
      (items.mapM fun item => cells (value s levels) block (Builtin.element receiver.typ item))
        before = some (.ok table, after) ∧
      data = .of (.array (rows.map .map)) (.array (.map .string .any)) ∧
      table.length = items.length ∧
      List.Forall₂ (fun values row => values.length = block.entrypoints.length ∧
        row.length = block.entrypoints.length ∧ Row.Holds keys values row) table rows ∧
      keys.length = block.entrypoints.length ∧ keys.Nodup ∧
      ∀ i label, block.columns[i]? = some label →
        ∃ key, keys[i]? = some key ∧ Row.Names (keys.take i) i label key := by
  obtain ⟨table, hrun, rfl, hlength, hvalues⟩ := exists_table hblock hitems hargs h
  have hcolumns : block.columns.length = block.entrypoints.length := by
    rw [Code.columns, List.length_map]
  have hkeys : (Row.columnKeys block.columns).length = block.entrypoints.length := by
    rw [Row.length_columnKeys, hcolumns]
  have hrows : (table.map fun values => Row.toValue (block.columns.zip values)) =
      (table.map (Row.entries block.columns)).map .map := by
    rw [List.map_map]
    exact List.map_congr_left fun values h => Row.toValue_zip (hvalues values h)
  refine ⟨table, table.map (Row.entries block.columns), Row.columnKeys block.columns, hrun,
    by rw [hrows], hlength, ?_, hkeys, Row.nodup_columnKeys _, fun i label => Row.names_columnKeys⟩
  refine List.forall₂_map_right_iff.mpr (List.forall₂_same.mpr fun values h => ?_)
  have hholds := Row.holds_entries (hvalues values h)
  refine ⟨hcolumns ▸ (hvalues values h).symm, ?_, hholds⟩
  rw [← List.length_map (·.1), hholds.perm.length_eq, hkeys]

end Runs

/-- A block that gives its element, a text and a number. One label is there twice, and the first is
what it becomes with its second position. -/
def namesakes : Code :=
  { Code.empty with
    chunks := [.property "_" .int, .ofPrimitive (.string "x"), .ofPrimitive (.int 2)]
    entrypoints := [1, 2, 3]
    labels := [(1, "a#2"), (2, "a"), (3, "a")] }

/-- A code with that block. -/
def namesakesFrame : Frame := ⟨{ Code.empty with functions := [namesakes] }, .empty⟩

theorem projection_namesakes :
    ∃ (data : Data) (table : List (List Data)) (rows : List (List (String × Value)))
      (keys : List String),
      ([.int 7, .int 8].mapM fun item =>
        cells (value Setting.bareSetting 1) namesakes (Builtin.element (.array .int) item))
        ⟨[], .new ()⟩ = some (.ok table, ⟨[], .new ()⟩) ∧
      data = .of (.array (rows.map .map)) (.array (.map .string .any)) ∧
      data.value = .array [
        .map [("a", .string "x"), ("a#2", .int 7), ("a#2#", .int 2)],
        .map [("a", .string "x"), ("a#2", .int 8), ("a#2#", .int 2)]] ∧
      keys.length = 3 ∧ keys.Nodup := by
  have hblock : namesakesFrame.code.function? 1 = some namesakes := rfl
  have hitems : (Data.of (.array [.int 7, .int 8]) (.array .int)).value =
      .array [.int 7, .int 8] := rfl
  have hargs : [Data.of (.function 1) .functionLike].head?.map (·.value) =
      some (.function 1) := rfl
  have hrun : Builtin.apply (requests Setting.bareSetting namesakesFrame
        (value Setting.bareSetting 1) (value Setting.bareSetting 0)).block
      Builtin.projection .any (.of (.array [.int 7, .int 8]) (.array .int))
      [.of (.function 1) .functionLike] ⟨[], .new ()⟩ =
      some (.ok (.of (.array [
        .map [("a", .string "x"), ("a#2", .int 7), ("a#2#", .int 2)],
        .map [("a", .string "x"), ("a#2", .int 8), ("a#2#", .int 2)]])
        (.array (.map .string .any))), ⟨[], .new ()⟩) := rfl
  obtain ⟨table, rows, keys, htable, hdata, _, _, hlength, hnodup, _⟩ :=
    projection_holds hblock hitems hargs hrun
  exact ⟨_, table, rows, keys, htable, hdata, rfl, hlength, hnodup⟩

end Execution

end AssetQuery
