import AssetQuery.Proofs.Value.Mixed

/-!
# Uniform constants

A constant compiles exactly if the items of each array in it have one type. The type of a constant
is told by recursion on it, without its primitive and without its value; for a constant that
compiles all three have the same type. So the data that it stands for is always written, as the
primitive that the constant compiles to, and read back as it was.
-/

namespace AssetQuery

namespace Literal

mutual

/-- The type of a constant: an array is an array of what its first item is, a map holds what all its
values are. -/
def typ : Literal → Ty
  | nil => .nil
  | bool _ => .bool
  | int _ => .int
  | float _ => .float
  | string _ => .string
  | array items => .array ((itemTypes items).head?.getD .any)
  | map entries => .map .string (Value.commonType (entryTypes entries))

def itemTypes : List Literal → List Ty
  | [] => []
  | l :: rest => l.typ :: itemTypes rest

def entryTypes : List (String × Literal) → List Ty
  | [] => []
  | (_, l) :: rest => l.typ :: entryTypes rest

end

/-- Whether a constant is another one or stands in it, at any depth. -/
inductive Inside : Literal → Literal → Prop
  | self {l : Literal} : Inside l l
  | item {l item : Literal} {items : List Literal} : item ∈ items → Inside l item →
    Inside l (.array items)
  | entry {l : Literal} {e : String × Literal} {entries : List (String × Literal)} :
    e ∈ entries → Inside l e.2 → Inside l (.map entries)

/-- Whether the items of each array in a constant have one type. -/
def Uniform (l : Literal) : Prop :=
  ∀ items, (array items).Inside l → ∀ a ∈ items, ∀ b ∈ items, a.typ = b.typ

section Uniform

variable {l : Literal} {items : List Literal} {entries : List (String × Literal)}

private theorem itemTypes_eq_map (items : List Literal) : itemTypes items = items.map typ := by
  induction items with
  | nil => rfl
  | cons l rest ih => rw [itemTypes, ih, List.map_cons]

private theorem uniform_of_scalar (h : ∀ items, ¬(array items).Inside l) : l.Uniform :=
  fun items hinside => absurd hinside (h items)

private theorem uniform_array_iff :
    (array items).Uniform ↔
      (∀ a ∈ items, ∀ b ∈ items, a.typ = b.typ) ∧ ∀ l ∈ items, l.Uniform := by
  constructor
  · intro h
    refine ⟨h items .self, ?_⟩
    intro l hl inner hinner
    exact h inner (.item hl hinner)
  · rintro ⟨hsame, hitems⟩ inner hinner
    cases hinner with
    | self => exact hsame
    | item hmem hinner => exact hitems _ hmem inner hinner

private theorem uniform_map_iff : (map entries).Uniform ↔ ∀ e ∈ entries, e.2.Uniform := by
  constructor
  · intro h e he inner hinner
    exact h inner (.entry he hinner)
  · intro hentries inner hinner
    cases hinner with
    | entry he hinner => exact hentries _ he inner hinner

private theorem forall_eq_head_iff {types : List Ty} :
    (∀ t ∈ types, t = types.head?.getD .any) ↔ ∀ t ∈ types, ∀ u ∈ types, t = u := by
  cases types with
  | nil => simp
  | cons first rest =>
    constructor
    · intro h t ht u hu
      rw [h t ht, h u hu]
    · intro h t ht
      exact h t ht first List.mem_cons_self

end Uniform

section Types

mutual

private theorem typ_of_toPrimitive {l : Literal} {p : Primitive} (h : l.toPrimitive = .ok p) :
    p.typ = l.typ := by
  cases l with
  | array items =>
    obtain ⟨ps, hps, _, rfl⟩ := toPrimitive_array_eq_ok.mp h
    rw [typ, ← types_of_itemPrimitives hps, List.head?_map]
    rfl
  | map entries =>
    obtain ⟨ps, hps, rfl⟩ := toPrimitive_map_eq_ok.mp h
    rw [typ, ← types_of_entryPrimitives hps]
    rfl
  | _ => exact Except.ok.inj h ▸ rfl

private theorem types_of_itemPrimitives {ls : List Literal} {ps : List Primitive}
    (h : itemPrimitives ls = .ok ps) : ps.map (·.typ) = itemTypes ls := by
  cases ls with
  | nil => exact Except.ok.inj h ▸ rfl
  | cons l rest =>
    obtain ⟨p, ps, hp, hps, rfl⟩ := itemPrimitives_cons_eq_ok.mp h
    rw [List.map_cons, typ_of_toPrimitive hp, types_of_itemPrimitives hps, itemTypes]

theorem types_of_entryPrimitives {ls : List (String × Literal)} {ps : List (String × Primitive)}
    (h : entryPrimitives ls = .ok ps) : ps.map (·.2.typ) = entryTypes ls := by
  rcases ls with _ | ⟨⟨key, l⟩, rest⟩
  · exact Except.ok.inj h ▸ rfl
  · obtain ⟨p, ps, hp, hps, rfl⟩ := entryPrimitives_cons_eq_ok.mp h
    rw [List.map_cons, typ_of_toPrimitive hp, types_of_entryPrimitives hps, entryTypes]

end

private theorem firstOther?_eq_none_iff {items : List Literal} {ps : List Primitive}
    (h : itemPrimitives items = .ok ps) :
    firstOther? ((ps.head?.map fun p => p.typ).getD .any) 0 ps = none ↔
      ∀ a ∈ items, ∀ b ∈ items, a.typ = b.typ := by
  have htypes : ps.map (·.typ) = items.map typ :=
    (types_of_itemPrimitives h).trans (itemTypes_eq_map items)
  have hhead : (ps.head?.map fun p => p.typ) = (ps.map (·.typ)).head? := by simp
  rw [firstOther?_eq_none, hhead]
  calc (∀ p ∈ ps, p.typ = (ps.map (·.typ)).head?.getD .any)
      ↔ ∀ t ∈ ps.map (·.typ), t = (ps.map (·.typ)).head?.getD .any := by
        rw [List.forall_mem_map]
    _ ↔ ∀ t ∈ items.map typ, ∀ u ∈ items.map typ, t = u := by rw [forall_eq_head_iff, htypes]
    _ ↔ ∀ a ∈ items, ∀ b ∈ items, a.typ = b.typ := by simp only [List.forall_mem_map]

private theorem toPrimitive_array_succeeds_iff {items : List Literal} :
    (∃ p, (array items).toPrimitive = .ok p) ↔
      (∃ ps, itemPrimitives items = .ok ps) ∧ ∀ a ∈ items, ∀ b ∈ items, a.typ = b.typ := by
  simp only [toPrimitive_array_eq_ok]
  constructor
  · rintro ⟨_, ps, hps, hnone, _⟩
    exact ⟨⟨ps, hps⟩, (firstOther?_eq_none_iff hps).mp hnone⟩
  · rintro ⟨⟨ps, hps⟩, hsame⟩
    exact ⟨_, ps, hps, (firstOther?_eq_none_iff hps).mpr hsame, rfl⟩

mutual

private theorem toPrimitive_succeeds_iff_uniform (l : Literal) :
    (∃ p, l.toPrimitive = .ok p) ↔ l.Uniform := by
  cases l with
  | array items =>
    rw [toPrimitive_array_succeeds_iff, uniform_array_iff, itemPrimitives_succeeds_iff items]
    exact and_comm
  | map entries =>
    rw [toPrimitive, Except.bind_pure_succeeds_iff, uniform_map_iff,
      entryPrimitives_succeeds_iff entries]
  | _ =>
    refine iff_of_true ⟨_, rfl⟩ (uniform_of_scalar ?_)
    intro items h
    cases h

theorem itemPrimitives_succeeds_iff (ls : List Literal) :
    (∃ ps, itemPrimitives ls = .ok ps) ↔ ∀ l ∈ ls, l.Uniform := by
  cases ls with
  | nil => exact iff_of_true ⟨_, rfl⟩ (List.forall_mem_nil _)
  | cons l rest =>
    rw [itemPrimitives, List.forall_mem_cons, ← toPrimitive_succeeds_iff_uniform l,
      ← itemPrimitives_succeeds_iff rest]
    simp only [Except.bind_eq_ok, pure, Except.pure, Except.ok.injEq]
    exact Except.both_succeed_iff

theorem entryPrimitives_succeeds_iff (ls : List (String × Literal)) :
    (∃ ps, entryPrimitives ls = .ok ps) ↔ ∀ e ∈ ls, e.2.Uniform := by
  rcases ls with _ | ⟨⟨key, l⟩, rest⟩
  · exact iff_of_true ⟨_, rfl⟩ (List.forall_mem_nil _)
  · rw [entryPrimitives, List.forall_mem_cons, ← toPrimitive_succeeds_iff_uniform l,
      ← entryPrimitives_succeeds_iff rest]
    simp only [Except.bind_eq_ok, pure, Except.pure, Except.ok.injEq]
    exact Except.both_succeed_iff

end

end Types

section Writing

mutual

/-- The value of a constant that compiles is written, under the type of the primitive, as that
primitive. -/
private theorem toPrimitive_toValue {l : Literal} {p : Primitive} (h : l.toPrimitive = .ok p) :
    l.toValue.toPrimitive p.typ = .ok p := by
  cases l with
  | array items =>
    obtain ⟨ps, hps, hsame, rfl⟩ := toPrimitive_array_eq_ok.mp h
    have htypes := firstOther?_eq_none.mp hsame
    -- a first item has a type of its own, so that only an empty array holds `any`
    have hwritten : ¬(decide ((ps.head?.map fun p => p.typ).getD .any = .any) &&
        !(itemValues items).isEmpty) = true := by
      cases items with
      | nil => simp [itemValues]
      | cons l rest =>
        obtain ⟨p, ps, hp, _, rfl⟩ := itemPrimitives_cons_eq_ok.mp hps
        simp [(toPrimitive_written hp).typ, Value.inferType_ne_any]
    rw [toValue]
    show (Value.array (itemValues items)).toPrimitive (.array _) = _
    rw [Value.toPrimitive_array, if_neg hwritten, itemPrimitives_itemValues hps htypes 0]
    rfl
  | map entries =>
    obtain ⟨ps, hps, rfl⟩ := toPrimitive_map_eq_ok.mp h
    have hvalue := Value.commonType_eq_any_or (ps.map fun e => e.2.typ)
    rw [List.forall_mem_map] at hvalue
    rw [toValue]
    show (Value.map (entryValues entries)).toPrimitive (.map .string _) = _
    rw [Value.toPrimitive_map, entryPrimitives_entryValues hps hvalue]
    rfl
  | _ => exact Except.ok.inj h ▸ rfl

theorem itemPrimitives_itemValues {ls : List Literal} {ps : List Primitive}
    (h : itemPrimitives ls = .ok ps) {elem : Ty} (helem : ∀ p ∈ ps, p.typ = elem) (index : Nat) :
    Value.itemPrimitives (itemValues ls) elem index = .ok ps := by
  cases ls with
  | nil => exact Except.ok.inj h ▸ rfl
  | cons l rest =>
    obtain ⟨p, ps, hp, hps, rfl⟩ := itemPrimitives_cons_eq_ok.mp h
    obtain ⟨rfl, hrest⟩ := List.forall_mem_cons.mp helem
    rw [itemValues, Value.itemPrimitives, toPrimitive_toValue hp]
    simp only
    rw [itemPrimitives_itemValues hps hrest]
    rfl

theorem entryPrimitives_entryValues {ls : List (String × Literal)}
    {ps : List (String × Primitive)} (h : entryPrimitives ls = .ok ps) {value : Ty}
    (hvalue : value = .any ∨ ∀ e ∈ ps, e.2.typ = value) :
    Value.entryPrimitives (entryValues ls) value = .ok ps := by
  rcases ls with _ | ⟨⟨key, l⟩, rest⟩
  · exact Except.ok.inj h ▸ rfl
  · obtain ⟨p, ps, hp, hps, rfl⟩ := entryPrimitives_cons_eq_ok.mp h
    have hfirst : l.toValue.toPrimitive value = .ok p := by
      rcases hvalue with rfl | hall
      · rw [← Value.toPrimitive_inferType, ← (toPrimitive_written hp).typ]
        exact toPrimitive_toValue hp
      · rw [← hall _ List.mem_cons_self]
        exact toPrimitive_toValue hp
    have hrest := hvalue.imp_right fun hall e he => hall e (List.mem_cons_of_mem _ he)
    rw [entryValues, Value.entryPrimitives, hfirst, entryPrimitives_entryValues hps hrest]
    rfl

end

/-- A constant compiles exactly if the items of each array in it have one type. What it compiles to
is read as its value with the type that the value tells; that data is written as the same primitive,
and is what comes back. -/
theorem compiles_iff_uniform (l : Literal) (codeId : String) :
    ((∃ p, l.toPrimitive = .ok p) ↔ l.Uniform) ∧
      ∀ p, l.toPrimitive = .ok p →
        p.toData = .ok (.of l.toValue l.toValue.inferType) ∧
          (Data.of l.toValue l.toValue.inferType).toAnswer codeId = .ok ⟨codeId, p, none⟩ ∧
          (Answer.mk codeId p none).toData = .ok (.of l.toValue l.toValue.inferType) := by
  refine ⟨toPrimitive_succeeds_iff_uniform l, ?_⟩
  intro p hp
  have hread : p.toData = .ok (.of l.toValue l.toValue.inferType) := toData_of_toPrimitive hp
  have hwritten : l.toValue.toPrimitive l.toValue.inferType = .ok p := by
    rw [← (toPrimitive_written hp).typ]
    exact toPrimitive_toValue hp
  refine ⟨hread, ?_, ?_⟩
  · rw [Data.toAnswer, Data.toPrimitive]
    simp only [Data.of, hwritten]
    rfl
  · rw [Answer.toData, hread]
    rfl

/-- Lists of lists, an empty list and a map of several types in a map of several types. -/
def mixedConstant : Literal :=
  .map [("empty", .array []), ("grid", .array [.array [.int 1, .int 2], .array [.int 3]]),
    ("rest", .map [("name", .string "a"), ("size", .nil)])]

theorem compiles_mixedConstant :
    mixedConstant.Uniform ∧ ∃ p, mixedConstant.toPrimitive = .ok p ∧
      p.typ = .map .string .any ∧
      (Data.of mixedConstant.toValue mixedConstant.toValue.inferType).toAnswer "" =
        .ok ⟨"", p, none⟩ ∧
      (Answer.mk "" p none).toData =
        .ok (.of mixedConstant.toValue mixedConstant.toValue.inferType) := by
  obtain ⟨p, hp⟩ : ∃ p, mixedConstant.toPrimitive = .ok p := ⟨_, rfl⟩
  obtain ⟨huniform, hsurvives⟩ := compiles_iff_uniform mixedConstant ""
  obtain ⟨_, hwritten, hread⟩ := hsurvives p hp
  exact ⟨huniform.mp ⟨p, hp⟩, p, hp, typ_of_toPrimitive hp, hwritten, hread⟩

/-- An empty list is of no type that a list of numbers has. -/
example : (array [.array [], .array [.int 1]]).toPrimitive =
    .error (.mixedArray 1 (.array .int) (.array .any)) := rfl

end Writing

end Literal

end AssetQuery
