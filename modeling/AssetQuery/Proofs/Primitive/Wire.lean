import AssetQuery.Proofs.Entries
import AssetQuery.Proofs.Ty.Encoding

/-!
# Primitives read back

A primitive is read off its bytes on the wire, whatever follows them, if the entries in it are in
the order of their keys. It is written unless one of its types cannot be encoded.
-/

namespace AssetQuery

namespace Primitive

theorem induction {motive : Primitive → Prop}
    (mk : ∀ typ bytes items entries, (∀ p ∈ items, motive p) → (∀ e ∈ entries, motive e.2) →
      motive ⟨typ, bytes, items, entries⟩) (p : Primitive) : motive p := by
  obtain ⟨typ, bytes, items, entries⟩ := p
  exact mk typ bytes items entries (fun p _ => induction mk p) fun e _ => induction mk e.2
termination_by p
decreasing_by
  · have hitem := List.sizeOf_lt_of_mem ‹_›
    simp only [Primitive.mk.sizeOf_spec]
    omega
  · have hentry := List.sizeOf_lt_of_mem ‹_›
    obtain ⟨key, p⟩ := e
    simp only [Primitive.mk.sizeOf_spec, Prod.mk.sizeOf_spec] at hentry ⊢
    omega

/-- Whether the entries of a primitive and of its parts are in the order of their keys, as those of
every primitive that is read are. -/
inductive Sorted : Primitive → Prop
  | mk {typ : Ty} {bytes : Bytes} {items : List Primitive} {entries : List (String × Primitive)}
    (hitems : ∀ p ∈ items, p.Sorted) (hentries : ∀ e ∈ entries, e.2.Sorted)
    (hordered : Entries.Ordered entries) : Sorted ⟨typ, bytes, items, entries⟩

theorem sorted_scalar (typ : Ty) (bytes : Bytes) : (scalar typ bytes).Sorted :=
  .mk nofun nofun .nil

mutual

/-- The types in a primitive: its own and those of its parts. -/
def types : Primitive → List Ty
  | ⟨typ, _, items, entries⟩ => typ :: (itemTypes items ++ entryTypes entries)

def itemTypes : List Primitive → List Ty
  | [] => []
  | p :: rest => p.types ++ itemTypes rest

def entryTypes : List (String × Primitive) → List Ty
  | [] => []
  | (_, p) :: rest => p.types ++ entryTypes rest

end

/-- The bytes of an entry. -/
def writeEntry (e : String × Primitive) : Except TyError Bytes := do
  let p ← e.2.writeWire
  return Wire.writeText e.1 ++ p

theorem writeItems_eq_writeEach (items : List Primitive) :
    writeItems items = Wire.writeEach writeWire items := by
  induction items with
  | nil => rfl
  | cons p rest ih => rw [writeItems, Wire.writeEach, ih]

private theorem writeEntries_eq_writeEach (entries : List (String × Primitive)) :
    writeEntries entries = Wire.writeEach writeEntry entries := by
  induction entries with
  | nil => rfl
  | cons e rest ih =>
    rw [writeEntries, Wire.writeEach, ih, writeEntry]
    cases e.2.writeWire <;> rfl

theorem writeWire_eq_ok {typ : Ty} {bytes b : Bytes} {items : List Primitive}
    {entries : List (String × Primitive)} :
    writeWire ⟨typ, bytes, items, entries⟩ = .ok b ↔
      ∃ bt, typ.writeWire = .ok bt ∧ ∃ bi, Wire.writeEach writeWire items = .ok bi ∧
        ∃ be, Wire.writeEach writeEntry entries = .ok be ∧
          bt ++ (Wire.writeBytes bytes ++ (Wire.varint items.length ++ bi ++
            (Wire.varint entries.length ++ be))) = b := by
  rw [writeWire, writeItems_eq_writeEach, writeEntries_eq_writeEach]
  simp only [Except.bind_eq_ok, List.append_assoc, pure, Except.pure, Except.ok.injEq]

theorem itemTypes_eq_flatMap (items : List Primitive) : itemTypes items = items.flatMap types := by
  induction items with
  | nil => rfl
  | cons p rest ih => rw [itemTypes, ih, List.flatMap_cons]

theorem entryTypes_eq_flatMap (entries : List (String × Primitive)) :
    entryTypes entries = entries.flatMap fun e => e.2.types := by
  induction entries with
  | nil => rfl
  | cons e rest ih => rw [entryTypes, ih, List.flatMap_cons]

theorem forall_types_iff {typ : Ty} {bytes : Bytes} {items : List Primitive}
    {entries : List (String × Primitive)} {P : Ty → Prop} :
    (∀ t ∈ types ⟨typ, bytes, items, entries⟩, P t) ↔
      P typ ∧ (∀ p ∈ items, ∀ t ∈ p.types, P t) ∧ ∀ e ∈ entries, ∀ t ∈ e.2.types, P t := by
  rw [types, itemTypes_eq_flatMap, entryTypes_eq_flatMap, List.forall_mem_cons,
    List.forall_mem_append, List.forall_mem_flatMap, List.forall_mem_flatMap]

theorem writeWire_succeeds_iff (p : Primitive) :
    (∃ b, p.writeWire = .ok b) ↔ ∀ t ∈ p.types, ¬t.NameTooLong := by
  induction p using induction with
  | mk typ bytes items entries ihitems ihentries =>
    have hentries : ∀ e ∈ entries,
        (∃ b, writeEntry e = .ok b) ↔ ∀ t ∈ e.2.types, ¬t.NameTooLong := fun e he => by
      rw [← ihentries e he]
      exact Except.bind_pure_succeeds_iff
    rw [types, List.forall_mem_cons, List.forall_mem_append, itemTypes_eq_flatMap,
      entryTypes_eq_flatMap, ← Ty.writeWire_succeeds_iff, ← Ty.writeEach_succeeds_iff ihitems,
      ← Ty.writeEach_succeeds_iff hentries]
    simp only [writeWire_eq_ok]
    constructor
    · rintro ⟨_, bt, htyp, bi, hitems, be, hentries, _⟩
      exact ⟨⟨bt, htyp⟩, ⟨bi, hitems⟩, be, hentries⟩
    · rintro ⟨⟨bt, htyp⟩, ⟨bi, hitems⟩, be, hentries⟩
      exact ⟨_, bt, htyp, bi, hitems, be, hentries, rfl⟩

private theorem restores_writeEntry {e : String × Primitive} {room : Nat}
    {read : Wire.Reader Primitive}
    (hroom : room < UInt64.size) (h : Wire.Restores room writeWire read e.2) :
    Wire.Restores room writeEntry (.pair .text read) e := by
  intro b hwrite hlength
  obtain ⟨bp, hprimitive, hb⟩ := Except.bind_eq_ok.mp hwrite
  cases hb
  have hcount := Wire.length_varint_pos (Utf8.encode e.1).length
  simp only [Wire.writeText, Wire.writeBytes, List.length_append] at hlength ⊢
  constructor
  · omega
  · exact (Wire.Reader.reads_text (by omega)).pair (h bp hprimitive (by omega)).2

private theorem restores_readLevels {p : Primitive} {room levels : Nat} (hsorted : p.Sorted)
    (hroom : room < UInt64.size) (hlevels : room < levels) :
    Wire.Restores room writeWire (readLevels levels) p := by
  induction hsorted generalizing room levels with
  | @mk typ bytes items entries _ _ hordered ihitems ihentries =>
    intro b hwrite hlength
    obtain ⟨bt, htyp, bi, hitems, be, hentries, rfl⟩ := writeWire_eq_ok.mp hwrite
    have hcount := Wire.length_varint_pos bytes.length
    simp only [Wire.writeBytes, List.length_append] at hlength ⊢
    -- the bytes of the items, like those of the entries, are fewer than all bytes
    obtain ⟨levels, rfl⟩ := Nat.exists_eq_add_one_of_ne_zero (Nat.ne_zero_of_lt hlevels)
    have hreadTyp := (Ty.restores_writeWire hroom typ bt htyp (by omega)).2
    have hreadItems := Wire.reads_list hitems (by omega) (Nat.le_refl _)
      fun p hp => ihitems p hp (by omega) (by omega : bi.length < levels)
    have hreadEntries := Wire.reads_list hentries (by omega) (Nat.le_refl _)
      fun e he => restores_writeEntry (by omega)
        (ihentries e he (by omega) (by omega : be.length < levels))
    constructor
    · omega
    · refine hreadTyp.andThen ((Wire.Reader.reads_bytes (by omega)).andThen
        (hreadItems.andThen (hreadEntries.map ?_)))
      rw [Entries.ofList_of_ordered hordered]

theorem restores_writeWire {p : Primitive} {room : Nat} (hsorted : p.Sorted)
    (hroom : room < UInt64.size) : Wire.Restores room writeWire readWire p :=
  Wire.restores_of_levels hroom fun _ _ => restores_readLevels hsorted

end Primitive

end AssetQuery
