import AssetQuery.Compile.Build
import AssetQuery.Expr.Evaluate
import AssetQuery.Proofs.Builtin.Standard
import AssetQuery.Proofs.Primitive.Payload

/-!
# Constants as compiled

The primitive that a constant compiles to has the type of the constant's value, and is read back as
that value. Unlike references and blocks, such primitives say by themselves what they are.
-/

namespace AssetQuery

namespace Literal

theorem firstOther?_eq_none {held : Ty} {index : Nat} {ps : List Primitive} :
    firstOther? held index ps = none ↔ ∀ p ∈ ps, p.typ = held := by
  induction ps generalizing index with
  | nil => simp [firstOther?]
  | cons p rest ih =>
    rw [firstOther?]
    split
    · next hp => simp [ih, hp]
    · next hp => simp [hp]

theorem commonType_of_forall {held : Ty} {types : List Ty} (h : ∀ t ∈ types, t = held)
    (hhead : held = types.head?.getD .any) : Value.commonType types = held := by
  cases types with
  | nil => exact hhead.symm
  | cons t rest =>
    have hrest : rest.all (· == t) = true := by
      simp only [List.all_eq_true, beq_iff_eq]
      intro u hu
      rw [h u (List.mem_cons_of_mem _ hu), h t List.mem_cons_self]
    rw [Value.commonType, if_pos hrest]
    exact h t List.mem_cons_self

private theorem isLiteral_commonType {types : List Ty} (h : ∀ t ∈ types, t.isLiteral) :
    (Value.commonType types).isLiteral := by
  cases types with
  | nil => rfl
  | cons t rest =>
    rw [Value.commonType]
    split
    · exact h t List.mem_cons_self
    · rfl

structure Written (p : Primitive) (v : Value) : Prop where
  typ : p.typ = v.inferType
  isLiteral : p.typ.isLiteral
  value : p.toValue = .ok v

/-- What an array compiles to: the primitives of its items, of which none has another type than the
first. -/
theorem toPrimitive_array_eq_ok {items : List Literal} {p : Primitive} :
    (array items).toPrimitive = .ok p ↔
      ∃ ps, itemPrimitives items = .ok ps ∧
        firstOther? ((ps.head?.map fun p => p.typ).getD .any) 0 ps = none ∧
        .array ((ps.head?.map fun p => p.typ).getD .any) ps = p := by
  rw [toPrimitive, Except.bind_eq_ok]
  refine exists_congr fun ps => and_congr_right fun _ => ?_
  simp only
  split
  · next hother =>
    constructor
    · intro h
      cases h
    · rintro ⟨hnone, _⟩
      cases hother.symm.trans hnone
  · next hnone =>
    refine Iff.trans ?_ (and_iff_right hnone).symm
    exact ⟨Except.ok.inj, congrArg Except.ok⟩

theorem toPrimitive_map_eq_ok {entries : List (String × Literal)} {p : Primitive} :
    (map entries).toPrimitive = .ok p ↔
      ∃ ps, entryPrimitives entries = .ok ps ∧
        .map .string (Value.commonType (ps.map fun e => e.2.typ)) ps = p := by
  rw [toPrimitive, Except.bind_eq_ok]
  refine exists_congr fun ps => and_congr_right fun _ => ?_
  exact ⟨Except.ok.inj, congrArg Except.ok⟩

theorem itemPrimitives_cons_eq_ok {l : Literal} {rest : List Literal} {ps : List Primitive} :
    itemPrimitives (l :: rest) = .ok ps ↔
      ∃ p qs, l.toPrimitive = .ok p ∧ itemPrimitives rest = .ok qs ∧ p :: qs = ps := by
  rw [itemPrimitives]
  simp only [Except.bind_eq_ok]
  constructor
  · rintro ⟨p, hp, qs, hqs, h⟩
    exact ⟨p, qs, hp, hqs, Except.ok.inj h⟩
  · rintro ⟨p, qs, hp, hqs, rfl⟩
    exact ⟨p, hp, qs, hqs, rfl⟩

theorem entryPrimitives_cons_eq_ok {key : String} {l : Literal} {rest : List (String × Literal)}
    {ps : List (String × Primitive)} :
    entryPrimitives ((key, l) :: rest) = .ok ps ↔
      ∃ p qs, l.toPrimitive = .ok p ∧ entryPrimitives rest = .ok qs ∧ (key, p) :: qs = ps := by
  rw [entryPrimitives]
  simp only [Except.bind_eq_ok]
  constructor
  · rintro ⟨p, hp, qs, hqs, h⟩
    exact ⟨p, qs, hp, hqs, Except.ok.inj h⟩
  · rintro ⟨p, qs, hp, hqs, rfl⟩
    exact ⟨p, hp, qs, hqs, rfl⟩

mutual

theorem toPrimitive_written {l : Literal} {p : Primitive} (h : l.toPrimitive = .ok p) :
    Written p l.toValue := by
  cases l with
  | nil => exact Except.ok.inj h ▸ ⟨rfl, rfl, rfl⟩
  | bool b => exact Except.ok.inj h ▸ ⟨rfl, rfl, Primitive.toValue_bool b⟩
  | int n => exact Except.ok.inj h ▸ ⟨rfl, rfl, Primitive.toValue_int n⟩
  | float x => exact Except.ok.inj h ▸ ⟨rfl, rfl, Primitive.toValue_float x⟩
  | string s => exact Except.ok.inj h ▸ ⟨rfl, rfl, Primitive.toValue_string s⟩
  | array items =>
    obtain ⟨ps, hps, hsame, rfl⟩ := toPrimitive_array_eq_ok.mp h
    obtain ⟨htypes, hliteral, hvalues⟩ := itemPrimitives_written hps
    have hhead : (ps.head?.map fun p => p.typ) = (ps.map (·.typ)).head? := by simp
    have hcommon : (ps.head?.map fun p => p.typ).getD .any =
        Value.commonType (Value.itemTypes (itemValues items)) := by
      rw [← htypes]
      refine (commonType_of_forall ?_ (by rw [hhead])).symm
      simpa using firstOther?_eq_none.mp hsame
    have helem : (Value.commonType (Value.itemTypes (itemValues items))).isLiteral := by
      rw [← htypes]
      exact isLiteral_commonType (List.forall_mem_map.mpr hliteral)
    rw [hcommon]
    exact ⟨rfl, Ty.isLiteral_array.trans helem, Primitive.toValue_array hvalues⟩
  | map entries =>
    obtain ⟨ps, hps, rfl⟩ := toPrimitive_map_eq_ok.mp h
    obtain ⟨htypes, hliteral, hvalues⟩ := entryPrimitives_written hps
    have hvalue : (Value.commonType (Value.entryTypes (entryValues entries))).isLiteral := by
      rw [← htypes]
      exact isLiteral_commonType (List.forall_mem_map.mpr hliteral)
    rw [htypes]
    refine ⟨rfl, ?_, Primitive.toValue_map hvalues⟩
    exact Ty.isLiteral_map.trans (by rw [hvalue]; rfl)

theorem itemPrimitives_written {ls : List Literal} {ps : List Primitive}
    (h : itemPrimitives ls = .ok ps) :
    ps.map (·.typ) = Value.itemTypes (itemValues ls) ∧
      (∀ p ∈ ps, p.typ.isLiteral) ∧ Primitive.itemValues ps = .ok (itemValues ls) := by
  cases ls with
  | nil => exact Except.ok.inj h ▸ ⟨rfl, by simp, rfl⟩
  | cons l rest =>
    obtain ⟨p, ps, hp, hps, rfl⟩ := itemPrimitives_cons_eq_ok.mp h
    have hwritten := toPrimitive_written hp
    obtain ⟨htypes, hliteral, hvalues⟩ := itemPrimitives_written hps
    refine ⟨?_, ?_, Primitive.itemValues_cons hwritten.value hvalues⟩
    · rw [List.map_cons, htypes, hwritten.typ, itemValues, Value.itemTypes]
    · exact List.forall_mem_cons.mpr ⟨hwritten.isLiteral, hliteral⟩

theorem entryPrimitives_written {ls : List (String × Literal)} {ps : List (String × Primitive)}
    (h : entryPrimitives ls = .ok ps) :
    ps.map (·.2.typ) = Value.entryTypes (entryValues ls) ∧
      (∀ e ∈ ps, e.2.typ.isLiteral) ∧ Primitive.entryValues ps = .ok (entryValues ls) := by
  cases ls with
  | nil => exact Except.ok.inj h ▸ ⟨rfl, by simp, rfl⟩
  | cons entry rest =>
    obtain ⟨key, l⟩ := entry
    obtain ⟨p, ps, hp, hps, rfl⟩ := entryPrimitives_cons_eq_ok.mp h
    have hwritten := toPrimitive_written hp
    obtain ⟨htypes, hliteral, hvalues⟩ := entryPrimitives_written hps
    refine ⟨?_, ?_, Primitive.entryValues_cons hwritten.value hvalues⟩
    · rw [List.map_cons, htypes, hwritten.typ, entryValues, Value.entryTypes]
    · exact List.forall_mem_cons.mpr ⟨hwritten.isLiteral, hliteral⟩

end

/-- The primitive that a constant compiles to is read back as the constant's data. -/
theorem toData_of_toPrimitive {l : Literal} {p : Primitive} (h : l.toPrimitive = .ok p) :
    p.toData = .ok l.toData := by
  have hwritten := toPrimitive_written h
  rw [Primitive.toData, hwritten.value, toData, hwritten.typ]
  rfl

end Literal

/-- The types of constants without parts. -/
def Ty.isFlat : Ty → Bool
  | nil | bool | int | float | string => true
  | _ => false

namespace Primitive

/-- Whether a primitive is written from a constant. The items of an array all have the type that is
held. -/
inductive Constant : Primitive → Prop
  | flat {t : Ty} {bytes : Bytes} : t.isFlat → Constant (.scalar t bytes)
  | array {elem : Ty} {items : List Primitive} : (∀ p ∈ items, p.typ = elem) →
    (∀ p ∈ items, Constant p) → Constant (.array elem items)
  | map {value : Ty} {entries : List (String × Primitive)} : (∀ e ∈ entries, Constant e.2) →
    Constant (.map .string value entries)

theorem Constant.typ_ne_ref {p : Primitive} (h : p.Constant) : p.typ ≠ .ref := by
  cases h with
  | @flat t bytes ht =>
    rintro rfl
    cases ht
  | array => exact nofun
  | map => exact nofun

theorem Constant.typ_ne_functionLike {p : Primitive} (h : p.Constant) : p.typ ≠ .functionLike := by
  cases h with
  | @flat t bytes ht =>
    rintro rfl
    cases ht
  | array => exact nofun
  | map => exact nofun

end Primitive

namespace Literal

mutual

theorem constant_of_toPrimitive {l : Literal} {p : Primitive} (h : l.toPrimitive = .ok p) :
    p.Constant := by
  cases l with
  | array items =>
    obtain ⟨ps, hps, hsame, rfl⟩ := toPrimitive_array_eq_ok.mp h
    exact .array (firstOther?_eq_none.mp hsame) (constant_of_itemPrimitives hps)
  | map entries =>
    obtain ⟨ps, hps, rfl⟩ := toPrimitive_map_eq_ok.mp h
    exact .map (constant_of_entryPrimitives hps)
  | _ => exact Except.ok.inj h ▸ .flat rfl

theorem constant_of_itemPrimitives {ls : List Literal} {ps : List Primitive}
    (h : itemPrimitives ls = .ok ps) : ∀ p ∈ ps, p.Constant := by
  cases ls with
  | nil => exact Except.ok.inj h ▸ List.forall_mem_nil _
  | cons l rest =>
    obtain ⟨p, ps, hp, hps, rfl⟩ := itemPrimitives_cons_eq_ok.mp h
    exact List.forall_mem_cons.mpr ⟨constant_of_toPrimitive hp, constant_of_itemPrimitives hps⟩

theorem constant_of_entryPrimitives {ls : List (String × Literal)}
    {ps : List (String × Primitive)} (h : entryPrimitives ls = .ok ps) :
    ∀ e ∈ ps, e.2.Constant := by
  cases ls with
  | nil => exact Except.ok.inj h ▸ List.forall_mem_nil _
  | cons entry rest =>
    obtain ⟨key, l⟩ := entry
    obtain ⟨p, ps, hp, hps, rfl⟩ := entryPrimitives_cons_eq_ok.mp h
    exact List.forall_mem_cons.mpr ⟨constant_of_toPrimitive hp, constant_of_entryPrimitives hps⟩

end

end Literal

end AssetQuery
