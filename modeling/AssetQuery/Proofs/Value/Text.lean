import AssetQuery.Proofs.Number.Text
import AssetQuery.Proofs.Time.Text
import AssetQuery.Proofs.Value.Conforms
import AssetQuery.Value.Text

/-!
# Values told by their texts

JSON has no kinds of its own for times, resources, references and functions, and none for what is
not a finite number. Where a type is declared, the text of a value of the type tells which value it
is, if the type says where the values of these kinds are.
-/

namespace AssetQuery.Value

/-- Whether the type of a value tells what its text leaves open. -/
inductive Legible : Value → Ty → Prop
  | nil {t : Ty} : Legible .nil t
  | bool {b : Bool} {t : Ty} : Legible (.bool b) t
  | int {n : Int64} {t : Ty} : Legible (.int n) t
  | float {x : Double} {t : Ty} : x.isFinite → Legible (.float x) t
  | string {s : String} {t : Ty} : Legible (.string s) t
  | time {i : Instant} : i.Regular → Legible (.time i) .time
  | array {items : List Value} {t : Ty} : (∀ v ∈ items, Legible v (t.child?.getD .any)) →
    Legible (.array items) t
  | map {entries : List (String × Value)} {t : Ty} :
    (∀ e ∈ entries, Legible e.2 (t.child?.getD .any)) → Legible (.map entries) t
  | resource {name id : String} {t : Ty} : t.isResource → Legible (.resource name id) t
  | ref {r : Ref} : Legible (.ref r) .ref
  | function {r : Ref} : Legible (.function r) .functionLike

private theorem itemsJson_eq (items : List Value) : itemsJson items = items.map toJson := by
  induction items with
  | nil => rw [itemsJson, List.map_nil]
  | cons v items ih => rw [itemsJson, ih, List.map_cons]

/-- What is written of an entry. -/
def entryJson (e : String × Value) : String × Json := (Json.spell e.1, e.2.toJson)

private theorem entriesJson_eq (entries : List (String × Value)) :
    entriesJson entries = entries.map entryJson := by
  induction entries with
  | nil => rw [entriesJson, List.map_nil]
  | cons e entries ih => rw [entriesJson, ih, List.map_cons, entryJson]

mutual

theorem delimited_toJson (v : Value) : v.toJson.Delimited := by
  cases v with
  | nil => rw [toJson]; exact .null
  | bool b => rw [toJson]; exact .bool b
  | int n => rw [toJson]; exact Json.delimited_ofInt _
  | float x =>
    rw [toJson]
    split
    · next hfinite => exact NumberLayout.delimited_write hfinite
    · exact .null
  | string s => rw [toJson]; exact Json.delimited_ofText s
  | time i => rw [toJson]; exact Json.delimited_ofText _
  | array items => rw [toJson]; exact .array (delimited_itemsJson items)
  | map entries =>
    rw [toJson]
    exact .object (fun m hm => (delimited_entriesJson entries m hm).1)
      fun m hm => (delimited_entriesJson entries m hm).2
  | resource name id =>
    rw [toJson]
    refine Json.delimited_ofMembers ?_
    exact List.forall_mem_cons.mpr
      ⟨Json.delimited_ofText _, List.forall_mem_singleton.mpr (Json.delimited_ofText _)⟩
  | ref r => rw [toJson]; exact Json.delimited_ofInt _
  | function r => rw [toJson]; exact Json.delimited_ofInt _

theorem delimited_itemsJson (items : List Value) : ∀ doc ∈ itemsJson items, doc.Delimited := by
  cases items with
  | nil => rw [itemsJson]; exact List.forall_mem_nil _
  | cons v items =>
    rw [itemsJson]
    exact List.forall_mem_cons.mpr ⟨delimited_toJson v, delimited_itemsJson items⟩

theorem delimited_entriesJson (entries : List (String × Value)) :
    ∀ m ∈ entriesJson entries, Json.Closed m.1 ∧ m.2.Delimited := by
  rcases entries with _ | ⟨⟨key, v⟩, entries⟩
  · rw [entriesJson]; exact List.forall_mem_nil _
  · rw [entriesJson]
    exact List.forall_mem_cons.mpr
      ⟨⟨Json.closed_spell key, delimited_toJson v⟩, delimited_entriesJson entries⟩

end

section Injective

variable {v v' : Value} {t : Ty}

private theorem eq_of_map_eq {α β : Type} {f : α → β} {as bs : List α}
    (h : ∀ a ∈ as, ∀ b ∈ bs, f a = f b → a = b) (heq : as.map f = bs.map f) : as = bs := by
  induction as generalizing bs with
  | nil => exact (List.map_eq_nil_iff.mp heq.symm).symm
  | cons a as ih =>
    obtain ⟨b, bs, rfl, hb, hbs⟩ := List.map_eq_cons_iff.mp heq.symm
    rw [h a List.mem_cons_self b List.mem_cons_self hb.symm,
      ih (fun a ha b hb => h a (List.mem_cons_of_mem _ ha) b (List.mem_cons_of_mem _ hb)) hbs.symm]

private theorem ofMembers_injective {id id' name name' : String}
    (h : Json.ofMembers [("id", .ofText id), ("resource", .ofText name)] =
      Json.ofMembers [("id", .ofText id'), ("resource", .ofText name')]) :
    name = name' ∧ id = id' := by
  simp only [Json.ofMembers, List.map_cons, List.map_nil, Json.object.injEq, List.cons.injEq,
    Prod.mk.injEq, true_and, and_true] at h
  exact ⟨Json.ofText_injective h.2, Json.ofText_injective h.1⟩

private theorem Conforms.of_mem_items {items : List Value} (h : (Value.array items).Conforms t) :
    ∀ item ∈ items, item.Conforms (t.child?.getD .any) := by
  cases h with
  | any => exact fun _ _ => .any
  | array h => exact h
  | arrayLike => exact fun _ _ => .any

private theorem Conforms.of_mem_entries {entries : List (String × Value)}
    (h : (Value.map entries).Conforms t) :
    ∀ e ∈ entries, e.2.Conforms (t.child?.getD .any) := by
  cases h with
  | any => exact fun _ _ => .any
  | map _ h => exact h
  | mapLike => exact fun _ _ => .any

/-- A character for each kind of documents that values are written as. -/
def lead : Value → Char
  | nil => 'n'
  | bool _ => 't'
  | int _ | float _ | ref _ | function _ => '0'
  | string _ | time _ => '"'
  | array _ => '['
  | map _ | resource _ _ => '\x7b'

private theorem Legible.lead_toJson (h : v.Legible t) : v.toJson.lead = v.lead := by
  cases h with
  | float hfinite =>
    rw [toJson, if_pos hfinite]
    rfl
  | _ =>
    rw [toJson]
    rfl

private theorem Legible.lead_eq {t' : Ty} (h : v.Legible t) (h' : v'.Legible t')
    (heq : v.toJson = v'.toJson) : v.lead = v'.lead := by
  rw [← h.lead_toJson, ← h'.lead_toJson, heq]

theorem toJson_injective (h : v.Conforms t) (h' : v'.Conforms t) (hlegible : v.Legible t)
    (hlegible' : v'.Legible t) (heq : v.toJson = v'.toJson) : v = v' := by
  have hlead := hlegible.lead_eq hlegible' heq
  induction hlegible generalizing v' with
  | nil =>
    cases hlegible' with
    | nil => rfl
    | _ => simp [lead] at hlead
  | bool =>
    cases hlegible' with
    | bool => simpa [toJson] using heq
    | _ => simp [lead] at hlead
  | @int n =>
    cases hlegible' with
    | @int n' =>
      simp only [toJson] at heq
      exact congrArg int (Int64.toInt.inj (Json.ofInt_injective heq))
    | float hfinite =>
      simp only [toJson, hfinite, if_true] at heq
      exact absurd (Json.number.inj heq).symm (NumberLayout.write_ne_toString hfinite _)
    | ref => cases h
    | function => cases h
    | _ => simp [lead] at hlead
  | float hfinite =>
    cases hlegible' with
    | int =>
      simp only [toJson, hfinite, if_true] at heq
      exact absurd (Json.number.inj heq) (NumberLayout.write_ne_toString hfinite _)
    | float hfinite' =>
      simp only [toJson, hfinite, hfinite', if_true] at heq
      exact congrArg float (NumberLayout.write_injective hfinite hfinite' (Json.number.inj heq))
    | ref => cases h
    | function => cases h
    | _ => simp [lead] at hlead
  | string =>
    cases hlegible' with
    | string =>
      simp only [toJson] at heq
      exact congrArg string (Json.ofText_injective heq)
    | time => cases h
    | _ => simp [lead] at hlead
  | time hregular =>
    cases hlegible' with
    | string => cases h'
    | time hregular' =>
      simp only [toJson] at heq
      exact congrArg time (Instant.text_injective hregular hregular' (Json.ofText_injective heq))
    | _ => simp [lead] at hlead
  | array hitems ih =>
    cases hlegible' with
    | array hitems' =>
      simp only [toJson, Json.array.injEq, itemsJson_eq] at heq
      refine congrArg array (eq_of_map_eq (fun item hitem item' hitem' hsame => ?_) heq)
      exact ih item hitem (h.of_mem_items item hitem) (h'.of_mem_items item' hitem')
        (hitems' item' hitem') hsame ((hitems item hitem).lead_eq (hitems' item' hitem') hsame)
    | _ => simp [lead] at hlead
  | map hentries ih =>
    cases hlegible' with
    | map hentries' =>
      simp only [toJson, Json.object.injEq, entriesJson_eq] at heq
      refine congrArg map (eq_of_map_eq (fun e he e' he' hsame => ?_) heq)
      obtain ⟨hkey, hvalue⟩ := Prod.mk.inj hsame
      refine Prod.ext (Json.spell_injective hkey) ?_
      exact ih e he (h.of_mem_entries e he) (h'.of_mem_entries e' he') (hentries' e' he') hvalue
        ((hentries e he).lead_eq (hentries' e' he') hvalue)
    | resource ht => cases h <;> cases ht
    | _ => simp [lead] at hlead
  | resource ht =>
    cases hlegible' with
    | map => cases h' <;> cases ht
    | resource =>
      simp only [toJson] at heq
      obtain ⟨rfl, rfl⟩ := ofMembers_injective heq
      rfl
    | _ => simp [lead] at hlead
  | @ref r =>
    cases hlegible' with
    | int => cases h'
    | float => cases h'
    | @ref r' =>
      simp only [toJson] at heq
      exact congrArg ref (Int32.toInt.inj (Json.ofInt_injective heq))
    | _ => simp [lead] at hlead
  | @function r =>
    cases hlegible' with
    | int => cases h'
    | float => cases h'
    | @function r' =>
      simp only [toJson] at heq
      exact congrArg function (Int32.toInt.inj (Json.ofInt_injective heq))
    | _ => simp [lead] at hlead

end Injective

end AssetQuery.Value
