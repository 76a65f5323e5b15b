import AssetQuery.Builtin.Apply

/-!
# Laws of the comparisons

What the six operators tell of two values, however deep these are nested. The operators fit together
as those of an order do, up to what does not compare; a value that is missing is in order with
nothing but another that is missing, which it is the same as.
-/

namespace AssetQuery

/-- The kinds of values. Ints and scores are of one kind. -/
inductive Value.Kind where
  | nil | bool | int | float | string | time | array | map | resource | ref | function
  deriving DecidableEq, Repr

namespace Value

def kind : Value → Kind
  | nil => .nil
  | bool _ => .bool
  | int _ => .int
  | float _ => .float
  | string _ => .string
  | time _ => .time
  | array _ => .array
  | map _ => .map
  | resource _ _ => .resource
  | ref _ => .ref
  | function _ => .function

variable {a b : Value}

private theorem kind_eq_of_same (h : a.same b = true) : a.kind = b.kind := by
  revert h
  fun_cases same a b with
  | case12 => exact nofun
  | _ => exact fun _ => rfl

private theorem eq_nil_of_kind_eq (h : a = nil ∨ b = nil) (hkind : a.kind = b.kind) :
    a = nil ∧ b = nil := by
  rcases h with rfl | rfl
  · cases b with
    | nil => exact ⟨rfl, rfl⟩
    | _ => cases hkind
  · cases a with
    | nil => exact ⟨rfl, rfl⟩
    | _ => cases hkind

private theorem compare?_of_kind_ne (h : a.kind ≠ b.kind) : a.compare? b = none := by
  fun_cases compare? a b with
  | case5 _ _ _ _ _ _ hsame => exact absurd (kind_eq_of_same hsame) h
  | case6 => rfl
  | _ => exact absurd rfl h

end Value

theorem Double.compare?_swap (x y : Double) : (x.compare? y).map Ordering.swap = y.compare? x := by
  rw [compare?, compare?, Bool.or_comm y.isNaN]
  split
  · rfl
  · exact congrArg some Std.OrientedCmp.eq_swap.symm

private theorem Instant.compare_swap (a b : Instant) : (a.compare b).swap = b.compare a := by
  rw [Instant.compare, Instant.compare, Ordering.swap_then, ← Std.OrientedCmp.eq_swap,
    ← Std.OrientedCmp.eq_swap]

private theorem Instant.compare_eq_iff {a b : Instant} : a.compare b = .eq ↔ a = b := by
  rw [Instant.compare, Ordering.then_eq_eq, Std.compare_eq_iff_eq, Std.compare_eq_iff_eq]
  constructor
  · intro h
    cases a
    cases b
    simpa using h
  · rintro rfl
    exact ⟨rfl, rfl⟩

namespace Value

mutual

private theorem same_symm {a b : Value} (h : a.same b = true) : b.same a = true := by
  cases a with
  | array items =>
    cases b with
    | array others => exact sameItems_symm h
    | _ => cases h
  | map entries =>
    cases b with
    | map others => exact sameEntries_symm h
    | _ => cases h
  | float x =>
    cases b with
    | float y =>
      rw [same, beq_iff_eq] at h ⊢
      rw [← Double.compare?_swap, h]
      rfl
    | _ => cases h
  | _ => cases b <;> simp_all [same]

theorem sameItems_symm {as bs : List Value} (h : sameItems as bs = true) :
    sameItems bs as = true := by
  cases as with
  | nil =>
    cases bs with
    | nil => rfl
    | cons => cases h
  | cons a as =>
    cases bs with
    | nil => cases h
    | cons b bs =>
      rw [sameItems, Bool.and_eq_true] at h ⊢
      exact ⟨same_symm h.1, sameItems_symm h.2⟩

theorem sameEntries_symm {as bs : List (String × Value)} (h : sameEntries as bs = true) :
    sameEntries bs as = true := by
  cases as with
  | nil =>
    cases bs with
    | nil => rfl
    | cons => cases h
  | cons a as =>
    cases bs with
    | nil => cases h
    | cons b bs =>
      rw [sameEntries, Bool.and_eq_true, Bool.and_eq_true, beq_iff_eq] at h ⊢
      exact ⟨⟨h.1.1.symm, same_symm h.1.2⟩, sameEntries_symm h.2⟩

end

private theorem same_comm (a b : Value) : a.same b = b.same a :=
  Bool.eq_iff_iff.mpr ⟨same_symm, same_symm⟩

private theorem compare?_swap (a b : Value) : (a.compare? b).map Ordering.swap = b.compare? a := by
  fun_cases compare? a b with
  | case1 | case3 => exact congrArg some Std.OrientedCmp.eq_swap.symm
  | case2 x y => exact Double.compare?_swap x y
  | case4 s t => exact congrArg some (Instant.compare_swap s t)
  | case5 a b hint hfloat hstring htime hsame | case6 a b hint hfloat hstring htime hsame =>
    rw [compare?, same_comm]
    · simp [hsame]
    · exact fun _ _ hb ha => hint _ _ ha hb
    · exact fun _ _ hb ha => hfloat _ _ ha hb
    · exact fun _ _ hb ha => hstring _ _ ha hb
    · exact fun _ _ hb ha => htime _ _ ha hb

end Value

namespace Comparison

/-- Whether an operator holds of two values. -/
def relates (op : Comparison) (a b : Value) : Bool := op.holds (a.compare? b)

/-- The function that an operator is called as. -/
def name : Comparison → String
  | eq => "=="
  | ne => "!="
  | lt => "<"
  | le => "<="
  | gt => ">"
  | ge => ">="

/-- The operator that holds of two values exactly if this one holds of them the other way round. -/
def converse : Comparison → Comparison
  | eq => eq
  | ne => ne
  | lt => gt
  | le => ge
  | gt => lt
  | ge => le

private theorem relates_converse (op : Comparison) (a b : Value) :
    op.converse.relates a b = op.relates b a := by
  rw [relates, relates, ← Value.compare?_swap a b]
  rcases a.compare? b with _ | _ | _ | _ <;> cases op <;> rfl

private theorem relates_of_kind_ne {op : Comparison} {a b : Value} (h : a.kind ≠ b.kind) :
    op.relates a b = decide (op = ne) := by
  rw [relates, Value.compare?_of_kind_ne h]
  cases op <;> rfl

private theorem relates_ne (a b : Value) : ne.relates a b = !eq.relates a b := rfl

private theorem relates_eq (a b : Value) : eq.relates a b = a.same b := by
  rw [Bool.eq_iff_iff]
  simp only [relates, holds, beq_iff_eq]
  fun_cases Value.compare? a b with
  | case1 x y => simp [Value.same]
  | case2 x y => simp [Value.same]
  | case3 x y => simp [Value.same]
  | case4 s t => simp [Value.same, Instant.compare_eq_iff]
  | case5 _ _ _ _ _ _ hsame => simp [hsame]
  | case6 _ _ _ _ _ _ hsame => simp [hsame]

private theorem relates_le (a b : Value) : le.relates a b =
    (lt.relates a b || eq.relates a b) := rfl

private theorem relates_unique (a b : Value) :
    ([lt, eq, gt].filter fun op => op.relates a b).length ≤ 1 := by
  simp only [relates]
  rcases a.compare? b with _ | _ | _ | _ <;> decide

private theorem apply_name {m : Type → Type} [Monad m]
    (block : Ref → Data → ExceptT EvalError m Row)
    (op : Comparison) (t : Ty) (receiver : Data) (args : List Data) :
    Builtin.apply block op.name t receiver args =
      pure (.bool (op.relates receiver.value ((args.head?.map (·.value)).getD .nil))) := by
  cases op <;> rfl

/-- What the functions `==`, `!=`, `<`, `<=`, `>` and `>=` give, and the laws that this obeys for
any two values. The functions that order hold of a missing value and another only if both are
missing and the function includes that they are the same. -/
theorem lawful (a b : Value) :
    (∀ {m : Type → Type} [Monad m] (block : Ref → Data → ExceptT EvalError m Row) (op : Comparison)
      (t u w : Ty) (cause cause' : Option String) (rest : List Data),
      Builtin.apply block op.name t ⟨a, u, cause⟩ (⟨b, w, cause'⟩ :: rest) =
        pure (.bool (op.relates a b)) ∧
      Builtin.apply block op.name t ⟨a, u, cause⟩ [] = pure (.bool (op.relates a .nil))) ∧
    eq.relates a b = a.same b ∧
    ne.relates a b = !eq.relates a b ∧
    lt.relates a b = gt.relates b a ∧
    le.relates a b = ge.relates b a ∧
    le.relates a b = (lt.relates a b || eq.relates a b) ∧
    ([lt, eq, gt].filter fun op => op.relates a b).length ≤ 1 ∧
    (a.kind ≠ b.kind → ∀ op, op.relates a b = decide (op = ne)) ∧
    (a = .nil ∨ b = .nil → lt.relates a b = false ∧ gt.relates a b = false ∧
      (le.relates a b = true ↔ a = .nil ∧ b = .nil) ∧
      (ge.relates a b = true ↔ a = .nil ∧ b = .nil)) := by
  refine ⟨fun block op t u w cause cause' rest => ⟨?_, ?_⟩, relates_eq a b,
    relates_ne a b, relates_converse gt a b, relates_converse ge a b, relates_le a b,
    relates_unique a b, fun hkind op => relates_of_kind_ne hkind, fun hnil => ?_⟩
  · exact apply_name block op t _ _
  · exact apply_name block op t _ []
  · by_cases hkind : a.kind = b.kind
    · obtain ⟨rfl, rfl⟩ := Value.eq_nil_of_kind_eq hnil hkind
      exact ⟨rfl, rfl, ⟨fun _ => ⟨rfl, rfl⟩, fun _ => rfl⟩, ⟨fun _ => ⟨rfl, rfl⟩, fun _ => rfl⟩⟩
    · have hboth : ¬(a = .nil ∧ b = .nil) := by
        rintro ⟨rfl, rfl⟩
        exact hkind rfl
      simp [relates_of_kind_ne hkind, hboth]

theorem lawful_nil_int :
    Value.kind .nil ≠ Value.kind (.int 5) ∧ (∀ op, op.relates .nil (.int 5) = decide (op = ne)) ∧
      lt.relates .nil (.int 5) = false ∧ le.relates .nil (.int 5) = false := by
  obtain ⟨_, _, _, _, _, _, _, hkind, hnil⟩ := lawful .nil (.int 5)
  have hne : Value.kind .nil ≠ Value.kind (.int 5) := nofun
  obtain ⟨hlt, _, hle, _⟩ := hnil (.inl rfl)
  exact ⟨hne, hkind hne, hlt, Bool.eq_false_iff.mpr fun h => nomatch (hle.mp h).2⟩

/-- Two missing values are in order, being the same. -/
theorem relates_nil_nil :
    ¬∀ a b : Value, a = .nil ∨ b = .nil → ∀ op ∈ [lt, le, gt, ge], op.relates a b = false :=
  fun h => Bool.noConfusion (h .nil .nil (.inl rfl) le (by decide))

end Comparison

end AssetQuery
