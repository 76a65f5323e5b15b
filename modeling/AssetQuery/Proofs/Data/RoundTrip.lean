import AssetQuery.Data.Answer
import AssetQuery.Proofs.Except
import AssetQuery.Proofs.Primitive.Payload

/-!
# Answers read back

Data that is written as an answer is read back if the points in time in it are regular, and is then
written as the same answer again. It is the same data if each resource has the name that its type
declares, but for its type where that is `any` or the value is missing.
-/

namespace AssetQuery

namespace Value

mutual

/-- Whether each resource in a value of a type has the name that the type declares for it. -/
def Named : Value → Ty → Prop
  | .resource name _, .resource declared => name = declared
  | .array items, .array elem => NamedItems items elem
  | .map entries, .map _ value => NamedEntries entries value
  | _, _ => True

def NamedItems : List Value → (elem : Ty) → Prop
  | [], _ => True
  | v :: rest, elem => v.Named elem ∧ NamedItems rest elem

def NamedEntries : List (String × Value) → (value : Ty) → Prop
  | [], _ => True
  | (_, v) :: rest, value => v.Named value ∧ NamedEntries rest value

end

mutual

/-- The points in time that a value is made of. -/
def times : Value → List Instant
  | .time t => [t]
  | .array items => itemTimes items
  | .map entries => entryTimes entries
  | _ => []

def itemTimes : List Value → List Instant
  | [] => []
  | v :: rest => v.times ++ itemTimes rest

def entryTimes : List (String × Value) → List Instant
  | [] => []
  | (_, v) :: rest => v.times ++ entryTimes rest

end

/-- The type that a value of a declared type is written with. -/
def writtenType (v : Value) (t : Ty) : Ty :=
  if v.isNil then .nil else if t = .any then v.inferType else t

theorem named_any (v : Value) : v.Named .any := by
  cases v <;> exact trivial

private theorem namedItems_any (items : List Value) : NamedItems items .any := by
  induction items with
  | nil => exact trivial
  | cons v rest ih => exact ⟨named_any v, ih⟩

theorem namedEntries_any (entries : List (String × Value)) : NamedEntries entries .any := by
  induction entries with
  | nil => exact trivial
  | cons e rest ih => exact ⟨named_any e.2, ih⟩

theorem commonType_eq_any_or (types : List Ty) :
    commonType types = .any ∨ ∀ t ∈ types, t = commonType types := by
  cases types with
  | nil => exact .inl rfl
  | cons t rest =>
    rw [commonType]
    split
    · next hall =>
      refine .inr fun u hu => ?_
      rcases List.mem_cons.mp hu with rfl | hu
      · rfl
      · exact eq_of_beq (List.all_eq_true.mp hall u hu)
    · exact .inl rfl

mutual

theorem named_inferType (v : Value) : v.Named v.inferType := by
  cases v with
  | resource name id => rfl
  | array items =>
    rw [inferType, Named]
    rcases commonType_eq_any_or (itemTypes items) with hany | hall
    · exact hany ▸ namedItems_any items
    · exact namedItems_of_types items hall
  | map entries =>
    rw [inferType, Named]
    rcases commonType_eq_any_or (entryTypes entries) with hany | hall
    · exact hany ▸ namedEntries_any entries
    · exact namedEntries_of_types entries hall
  | _ => exact trivial

theorem namedItems_of_types (items : List Value) {elem : Ty}
    (h : ∀ t ∈ itemTypes items, t = elem) : NamedItems items elem := by
  cases items with
  | nil => exact trivial
  | cons v rest =>
    rw [itemTypes] at h
    obtain ⟨rfl, hrest⟩ := List.forall_mem_cons.mp h
    exact ⟨named_inferType v, namedItems_of_types rest hrest⟩

theorem namedEntries_of_types (entries : List (String × Value)) {value : Ty}
    (h : ∀ t ∈ entryTypes entries, t = value) : NamedEntries entries value := by
  cases entries with
  | nil => exact trivial
  | cons e rest =>
    obtain ⟨key, v⟩ := e
    rw [entryTypes] at h
    obtain ⟨rfl, hrest⟩ := List.forall_mem_cons.mp h
    exact ⟨named_inferType v, namedEntries_of_types rest hrest⟩

end

theorem toPrimitive_inferType (v : Value) : v.toPrimitive v.inferType = v.toPrimitive .any := by
  cases v with
  | array items => rw [inferType, toPrimitive, toPrimitive]; rfl
  | map entries => rw [inferType, toPrimitive, toPrimitive]; rfl
  | _ => rfl

theorem toPrimitive_array (items : List Value) (elem : Ty) :
    (array items).toPrimitive (.array elem) =
      if elem = .any && !items.isEmpty then .error (.anyArray (.array elem))
      else do return .array elem (← itemPrimitives items elem 0) := by
  rw [toPrimitive]
  rfl

theorem toPrimitive_map (entries : List (String × Value)) (key value : Ty) :
    (map entries).toPrimitive (.map key value) =
      (do return .map key value (← entryPrimitives entries value)) := by
  rw [toPrimitive]
  rfl

/-- Whether reading what was written of some points in time gives one of `possible`, or fails for
one of them that is not regular. -/
inductive Reads {α : Type} (times : List Instant) (possible : α → Prop) :
    Except SerialError α → Prop
  | ok {a : α} : (∀ t ∈ times, t.Regular) → possible a → Reads times possible (.ok a)
  | error {t : Instant} : t ∈ times → ¬t.Regular →
    Reads times possible (.error (.invalidPayload .time (.timeOutOfRange t.seconds t.nanos)))

namespace Reads

variable {α β : Type} {times times' : List Instant} {possible : α → Prop} {later : β → Prop}
  {x : Except SerialError α}

theorem timeless {a : α} (h : possible a) : Reads [] possible (.ok a) :=
  .ok (List.forall_mem_nil _) h

private theorem imp {possible' : α → Prop} (h : Reads times possible x)
    (himp : ∀ a, possible a → possible' a) : Reads times possible' x := by
  cases h with
  | ok hall ha => exact .ok hall (himp _ ha)
  | error hmem ht => exact .error hmem ht

theorem bind {f : α → Except SerialError β} (h : Reads times possible x)
    (hf : ∀ a, possible a → Reads times' later (f a)) :
    Reads (times ++ times') later (x >>= f) := by
  cases h with
  | error hmem ht => exact .error (List.mem_append_left _ hmem) ht
  | @ok a hall ha =>
    have hnext := hf a ha
    show Reads (times ++ times') later (f a)
    generalize f a = y at hnext ⊢
    cases hnext with
    | ok hall' hb => exact .ok (List.forall_mem_append.mpr ⟨hall, hall'⟩) hb
    | error hmem ht => exact .error (List.mem_append_right _ hmem) ht

theorem map {f : α → β} (h : Reads times possible x) (hf : ∀ a, possible a → later (f a)) :
    Reads times later (do return f (← x)) := by
  have hbind : Reads (times ++ []) later (do return f (← x)) :=
    h.bind fun a ha => .timeless (hf a ha)
  rwa [List.append_nil] at hbind

private theorem succeeds_iff (h : Reads times possible x) :
    (∃ a, x = .ok a) ↔ ∀ t ∈ times, t.Regular := by
  cases h with
  | ok hall _ => exact iff_of_true ⟨_, rfl⟩ hall
  | error hmem ht => exact iff_of_false nofun fun hall => ht (hall _ hmem)

end Reads

/-- Whether a primitive that a value is written as has the type that it should, and is read back as
a value that is written as the same primitive. -/
structure RoundTrips (v : Value) (t : Ty) (p : Primitive) : Prop where
  typ : p.typ = v.writtenType t
  value : Reads v.times (fun v' => v'.toPrimitive t = .ok p ∧ (v.Named t → v' = v)) p.toValue

private theorem RoundTrips.of_same {v : Value} {t : Ty} {p : Primitive}
    (htyp : p.typ = v.writtenType t)
    (htimes : v.times = []) (hvalue : p.toValue = .ok v) (h : v.toPrimitive t = .ok p) :
    RoundTrips v t p := by
  refine ⟨htyp, ?_⟩
  rw [htimes, hvalue]
  exact .timeless ⟨h, fun _ => rfl⟩

private theorem roundTrips_time {t : Ty} {at_ : Instant} (htyp : Ty.time = (time at_).writtenType t)
    (h : (time at_).toPrimitive t = .ok (.time at_)) :
    RoundTrips (time at_) t (.time at_) := by
  refine ⟨htyp, ?_⟩
  rw [Primitive.toValue_time]
  split
  · next hregular => exact .ok (List.forall_mem_singleton.mpr hregular) ⟨h, fun _ => rfl⟩
  · next hregular => exact .error (List.mem_singleton.mpr rfl) hregular

mutual

private theorem toPrimitive_roundTrips {v : Value} {t : Ty} {p : Primitive}
    (h : v.toPrimitive t = .ok p) : RoundTrips v t p := by
  cases v with
  | nil => exact Except.ok.inj h ▸ .of_same rfl rfl rfl rfl
  | bool b =>
    cases t with
    | bool => exact Except.ok.inj h ▸ .of_same rfl rfl (Primitive.toValue_bool b) rfl
    | any => exact Except.ok.inj h ▸ .of_same rfl rfl (Primitive.toValue_bool b) rfl
    | _ => cases h
  | int n =>
    cases t with
    | int => exact Except.ok.inj h ▸ .of_same rfl rfl (Primitive.toValue_int n) rfl
    | score => exact Except.ok.inj h ▸ .of_same rfl rfl (Primitive.toValue_score n) rfl
    | any => exact Except.ok.inj h ▸ .of_same rfl rfl (Primitive.toValue_int n) rfl
    | _ => cases h
  | float x =>
    cases t with
    | float => exact Except.ok.inj h ▸ .of_same rfl rfl (Primitive.toValue_float x) rfl
    | any => exact Except.ok.inj h ▸ .of_same rfl rfl (Primitive.toValue_float x) rfl
    | _ => cases h
  | string s =>
    cases t with
    | string => exact Except.ok.inj h ▸ .of_same rfl rfl (Primitive.toValue_string s) rfl
    | any => exact Except.ok.inj h ▸ .of_same rfl rfl (Primitive.toValue_string s) rfl
    | _ => cases h
  | time at_ =>
    cases t with
    | time => exact Except.ok.inj h ▸ roundTrips_time rfl rfl
    | any => exact Except.ok.inj h ▸ roundTrips_time rfl rfl
    | _ => cases h
  | ref r =>
    cases t with
    | ref => exact Except.ok.inj h ▸ .of_same rfl rfl (Primitive.toValue_ref r) rfl
    | any => exact Except.ok.inj h ▸ .of_same rfl rfl (Primitive.toValue_ref r) rfl
    | _ => cases h
  | function r =>
    cases t with
    | functionLike => exact Except.ok.inj h ▸ .of_same rfl rfl (Primitive.toValue_function r) rfl
    | any => exact Except.ok.inj h ▸ .of_same rfl rfl (Primitive.toValue_function r) rfl
    | _ => cases h
  | resource name id =>
    cases t with
    | resource declared =>
      obtain rfl := Except.ok.inj h
      refine ⟨rfl, ?_⟩
      rw [Primitive.toValue_resource]
      exact .timeless ⟨rfl, fun hnamed => congrArg (resource · id) hnamed.symm⟩
    | any => exact Except.ok.inj h ▸ .of_same rfl rfl (Primitive.toValue_resource name id) rfl
    | _ => cases h
  | array items =>
    have hread {elem : Ty} {p : Primitive} (h : (array items).toPrimitive (.array elem) = .ok p) :
        p.typ = .array elem ∧ Reads (array items).times (fun v' =>
          v'.toPrimitive (.array elem) = .ok p ∧ (NamedItems items elem → v' = array items))
            p.toValue := by
      rw [toPrimitive_array] at h
      split at h
      · cases h
      · next hconcrete =>
        obtain ⟨ps, hps, h⟩ := Except.bind_eq_ok.mp h
        obtain rfl := Except.ok.inj h
        refine ⟨rfl, (itemPrimitives_roundTrip hps).map ?_⟩
        rintro items' ⟨hempty, hagain, hnamed⟩
        refine ⟨?_, fun h => congrArg array (hnamed h)⟩
        rw [toPrimitive_array, hempty, if_neg hconcrete, hagain]
        rfl
    cases t with
    | array elem =>
      obtain ⟨htyp, hvalue⟩ := hread h
      exact ⟨htyp, hvalue⟩
    | any =>
      -- under the inferred type every resource is named as declared
      have hinferred := h
      rw [← toPrimitive_inferType] at hinferred
      obtain ⟨htyp, hvalue⟩ := hread hinferred
      refine ⟨htyp, hvalue.imp fun v' hv' => ?_⟩
      obtain rfl := hv'.2 (named_inferType (.array items))
      exact ⟨h, fun _ => rfl⟩
    | _ => cases h
  | map entries =>
    have hread {key value : Ty} {p : Primitive}
        (h : (map entries).toPrimitive (.map key value) = .ok p) :
        p.typ = .map key value ∧ Reads (map entries).times (fun v' =>
          v'.toPrimitive (.map key value) = .ok p ∧
            (NamedEntries entries value → v' = map entries)) p.toValue := by
      rw [toPrimitive_map] at h
      obtain ⟨ps, hps, h⟩ := Except.bind_eq_ok.mp h
      obtain rfl := Except.ok.inj h
      refine ⟨rfl, (entryPrimitives_roundTrip hps).map ?_⟩
      rintro entries' ⟨hagain, hnamed⟩
      refine ⟨?_, fun h => congrArg map (hnamed h)⟩
      rw [toPrimitive_map, hagain]
      rfl
    cases t with
    | map key value =>
      obtain ⟨htyp, hvalue⟩ := hread h
      exact ⟨htyp, hvalue⟩
    | any =>
      have hinferred := h
      rw [← toPrimitive_inferType] at hinferred
      obtain ⟨htyp, hvalue⟩ := hread hinferred
      refine ⟨htyp, hvalue.imp fun v' hv' => ?_⟩
      obtain rfl := hv'.2 (named_inferType (.map entries))
      exact ⟨h, fun _ => rfl⟩
    | _ => cases h

theorem itemPrimitives_roundTrip {items : List Value} {elem : Ty} {index : Nat}
    {ps : List Primitive} (h : itemPrimitives items elem index = .ok ps) :
    Reads (itemTimes items) (fun items' => items'.isEmpty = items.isEmpty ∧
      (∀ index, itemPrimitives items' elem index = .ok ps) ∧
      (NamedItems items elem → items' = items)) (Primitive.itemValues ps) := by
  cases items with
  | nil => exact Except.ok.inj h ▸ .timeless ⟨rfl, fun _ => rfl, fun _ => rfl⟩
  | cons v rest =>
    rw [itemPrimitives] at h
    split at h
    · cases h
    · next p hp =>
      obtain ⟨ps, hps, h⟩ := Except.bind_eq_ok.mp h
      obtain rfl := Except.ok.inj h
      refine (toPrimitive_roundTrips hp).value.bind ?_
      rintro v' ⟨hagain, hnamed⟩
      refine (itemPrimitives_roundTrip hps).map ?_
      rintro rest' ⟨_, hagains, hnameds⟩
      refine ⟨rfl, fun index => ?_, fun h => ?_⟩
      · rw [itemPrimitives, hagain]
        simp only
        rw [hagains]
        rfl
      · rw [hnamed h.1, hnameds h.2]

theorem entryPrimitives_roundTrip {entries : List (String × Value)} {value : Ty}
    {ps : List (String × Primitive)} (h : entryPrimitives entries value = .ok ps) :
    Reads (entryTimes entries) (fun entries' => entryPrimitives entries' value = .ok ps ∧
      (NamedEntries entries value → entries' = entries)) (Primitive.entryValues ps) := by
  cases entries with
  | nil => exact Except.ok.inj h ▸ .timeless ⟨rfl, fun _ => rfl⟩
  | cons e rest =>
    obtain ⟨key, v⟩ := e
    rw [entryPrimitives] at h
    obtain ⟨p, hp, h⟩ := Except.bind_eq_ok.mp h
    obtain ⟨ps, hps, h⟩ := Except.bind_eq_ok.mp h
    obtain rfl := Except.ok.inj h
    refine (toPrimitive_roundTrips hp).value.bind ?_
    rintro v' ⟨hagain, hnamed⟩
    refine (entryPrimitives_roundTrip hps).map ?_
    rintro rest' ⟨hagains, hnameds⟩
    refine ⟨?_, fun h => ?_⟩
    · rw [entryPrimitives, hagain, hagains]
      rfl
    · rw [hnamed h.1, hnameds h.2]

end

private theorem toPrimitive_writtenType (v : Value) {t : Ty} :
    v.toPrimitive (v.writtenType t) = v.toPrimitive t := by
  rw [writtenType]
  split
  · next hnil =>
    cases v with
    | nil => rfl
    | _ => cases hnil
  · split
    · next hany => rw [hany, toPrimitive_inferType]
    · rfl

end Value

namespace Data

/-- The data that comes back when data is written as an answer. -/
def readBack (d : Data) : Data := { d with typ := d.value.writtenType d.typ }

/-- An answer that data is written as is read exactly if the points in time in the data are regular,
and else it fails for one of them. What is read is written as that answer. It is the data that was
written, with the type that it was written with, if its resources are named as declared. -/
theorem toAnswer_toData {d : Data} {codeId : String} {a : Answer}
    (h : d.toAnswer codeId = .ok a) :
    ((∃ d', a.toData = .ok d') ↔ ∀ t ∈ d.value.times, t.Regular) ∧
    (∀ d', a.toData = .ok d' →
      d'.toAnswer a.codeId = .ok a ∧ (d.value.Named d.typ → d' = d.readBack)) ∧
    ∀ e, a.toData = .error e → ∃ t ∈ d.value.times, ¬t.Regular ∧
      e = .invalidPayload .time (.timeOutOfRange t.seconds t.nanos) := by
  obtain ⟨p, hp, h⟩ := Except.bind_eq_ok.mp h
  obtain rfl := Except.ok.inj h
  obtain ⟨htyp, hvalue⟩ := Value.toPrimitive_roundTrips hp
  have hdata : Value.Reads d.value.times (fun d' : Data => ∃ v : Value,
      (v.toPrimitive d.typ = .ok p ∧ (d.value.Named d.typ → v = d.value)) ∧ d' = .of v p.typ)
      p.toData := hvalue.map fun v hv => ⟨v, hv, rfl⟩
  have hread : Value.Reads d.value.times (fun d' : Data => d'.toAnswer codeId =
      .ok ⟨codeId, p, d.error⟩ ∧ (d.value.Named d.typ → d' = d.readBack))
      (Answer.toData ⟨codeId, p, d.error⟩) := by
    refine hdata.map ?_
    rintro _ ⟨v, ⟨hagain, hnamed⟩, rfl⟩
    have hwritten : v.toPrimitive p.typ = .ok p := by
      rw [(Value.toPrimitive_roundTrips hagain).typ, Value.toPrimitive_writtenType, hagain]
    refine ⟨?_, fun h => ?_⟩
    · simp only [toAnswer, toPrimitive, Data.of, hwritten]
      rfl
    · rw [hnamed h, htyp]
      rfl
  refine ⟨hread.succeeds_iff, fun d' hd' => ?_, fun e he => ?_⟩
  · rw [hd'] at hread
    cases hread with
    | ok _ hsame => exact hsame
  · rw [he] at hread
    cases hread with
    | error hmem ht => exact ⟨_, hmem, ht, rfl⟩

/-- Rows of values of several types, one of them missing. -/
def rows : Data :=
  .of (.array [.map [("owner", .resource "user" "root"), ("size", .nil)],
    .map [("size", .float ⟨0x7ff8000000000001⟩)]]) (.array (.map .string .any))

theorem toAnswer_toData_rows :
    ∃ a, rows.toAnswer "sum" = .ok a ∧ rows.value.Named rows.typ ∧ a.toData = .ok rows ∧
      rows.toAnswer a.codeId = .ok a := by
  obtain ⟨a, ha⟩ : ∃ a, rows.toAnswer "sum" = .ok a := ⟨_, rfl⟩
  have hnamed : rows.value.Named rows.typ :=
    ⟨⟨trivial, trivial, trivial⟩, ⟨trivial, trivial⟩, trivial⟩
  obtain ⟨hreads, hback, -⟩ := toAnswer_toData ha
  obtain ⟨d', hread⟩ := hreads.mpr (by decide)
  obtain ⟨hagain, hsame⟩ := hback d' hread
  obtain rfl : d' = rows := hsame hnamed
  exact ⟨a, ha, hnamed, hread, hagain⟩

/-- Half a second after 12:34:56 has run on for a second. -/
def lateInstant : Instant := ⟨45296, 1500000000, by decide, by decide⟩

/-- It is written, but what is written is not read. -/
theorem not_toData_lateInstant :
    let d : Data := .of (.time lateInstant) .time
    d.value.Named d.typ ∧ ∃ a, d.toAnswer "" = .ok a ∧
      a.toData = .error (.invalidPayload .time (.timeOutOfRange 45296 1500000000)) :=
  ⟨trivial, _, rfl, rfl⟩

end Data

end AssetQuery
