import AssetQuery.Builtin.Apply
import AssetQuery.Proofs.Compile.Literal
import AssetQuery.Proofs.Entries
import AssetQuery.Session.Script

/-!
# Resources in values

A value that a built-in function gives holds no resource that was not in the receiver. Constants
hold none.
-/

namespace AssetQuery

namespace Value

mutual

/-- The resources in a value. -/
def resources : Value → List Key
  | resource name id => [⟨name, id⟩]
  | array items => itemResources items
  | map entries => entryResources entries
  | _ => []

def itemResources : List Value → List Key
  | [] => []
  | v :: rest => v.resources ++ itemResources rest

def entryResources : List (String × Value) → List Key
  | [] => []
  | (_, v) :: rest => v.resources ++ entryResources rest

end

/-- Whether all resources in a value are among some. -/
def Refers (known : Key → Prop) (v : Value) : Prop := ∀ key ∈ v.resources, known key

variable {known known' : Key → Prop} {v : Value}

theorem Refers.imp (h : v.Refers known) (himp : ∀ key, known key → known' key) :
    v.Refers known' := fun key hkey => himp key (h key hkey)

theorem refers_of_resources_eq_nil (h : v.resources = []) : v.Refers known := by
  intro key hkey
  rw [h] at hkey
  cases hkey

theorem refers_nil : nil.Refers known := refers_of_resources_eq_nil rfl

theorem refers_bool {b : Bool} : (bool b).Refers known := refers_of_resources_eq_nil rfl

theorem refers_int {n : Int64} : (int n).Refers known := refers_of_resources_eq_nil rfl

theorem refers_string {s : String} : (string s).Refers known := refers_of_resources_eq_nil rfl

theorem refers_resource_iff {name id : String} :
    (resource name id).Refers known ↔ known ⟨name, id⟩ :=
  List.forall_mem_singleton

theorem refers_array_iff {items : List Value} :
    (array items).Refers known ↔ ∀ item ∈ items, item.Refers known := by
  rw [Refers, resources]
  induction items with
  | nil => exact ⟨fun _ => List.forall_mem_nil _, fun _ => List.forall_mem_nil _⟩
  | cons item rest ih =>
    rw [itemResources, List.forall_mem_append, ih, List.forall_mem_cons]
    rfl

theorem refers_map_iff {entries : List (String × Value)} :
    (map entries).Refers known ↔ ∀ e ∈ entries, e.2.Refers known := by
  rw [Refers, resources]
  induction entries with
  | nil => exact ⟨fun _ => List.forall_mem_nil _, fun _ => List.forall_mem_nil _⟩
  | cons e rest ih =>
    rw [entryResources, List.forall_mem_append, ih, List.forall_mem_cons]
    rfl

end Value

namespace Dict

variable {known known' : Key → Prop} {args : Dict Data}

/-- Whether all resources in some data by name are among some. -/
def Refers (known : Key → Prop) (args : Dict Data) : Prop :=
  ∀ e ∈ args.entries, e.2.value.Refers known

theorem refers_empty : empty.Refers known := List.forall_mem_nil _

theorem Refers.imp (h : args.Refers known) (himp : ∀ key, known key → known' key) :
    args.Refers known' := fun e he => (h e he).imp himp

theorem Refers.find? (h : args.Refers known) {name : String} {data : Data}
    (hdata : args.find? name = some data) : data.value.Refers known :=
  h _ (Table.mem_of_lookup hdata)

theorem Refers.insert (h : args.Refers known) {name : String} {data : Data}
    (hdata : data.value.Refers known) : (args.insert name data).Refers known := by
  intro e he
  rcases Entries.mem_insert he with rfl | he
  · exact hdata
  · exact h e he

end Dict

open Value (refers_nil refers_bool refers_int refers_string refers_array_iff refers_map_iff)

variable {known : Key → Prop}

theorem Row.toValue_refers {row : Row} (h : ∀ e ∈ row, e.2.value.Refers known) :
    row.toValue.Refers known := by
  refine refers_map_iff.mpr fun e he => ?_
  obtain ⟨_, hvalue⟩ := List.of_mem_zip (Entries.mem_ofList he)
  obtain ⟨column, hcolumn, hsame⟩ := List.mem_map.mp hvalue
  exact hsame ▸ h column hcolumn

namespace Builtin

variable {name : String} {t : Ty} {receiver data : Data} {args : List Data}

theorem length_refers (h : length receiver = .ok data) : data.value.Refers known := by
  rw [length] at h
  split at h
  · exact Except.ok.inj h ▸ refers_int
  · exact Except.ok.inj h ▸ refers_int
  · exact Except.ok.inj h ▸ refers_int
  · cases h

private theorem itemAt_refers {items : List Value} (h : ∀ item ∈ items, item.Refers known)
    (index : Int) : (itemAt items index).Refers known := by
  unfold itemAt
  dsimp only
  generalize (if index < 0 then index + items.length else index) = i
  split
  · exact refers_nil
  · cases hi : items[i.toNat]? with
    | none => exact refers_nil
    | some item => exact h item (List.mem_of_getElem? hi)

theorem items_eq_ok {items : List Value} (h : Builtin.items name receiver = .ok items) :
    receiver.value = .array items := by
  rw [Builtin.items] at h
  split at h
  · next hvalue => exact Except.ok.inj h ▸ hvalue
  · cases h

private theorem entries_eq_ok {entries : List (String × Value)}
    (h : Builtin.entries name receiver = .ok entries) : receiver.value = .map entries := by
  rw [Builtin.entries] at h
  split at h
  · next hvalue => exact Except.ok.inj h ▸ hvalue
  · cases h

private theorem ofArray_refers (hreceiver : receiver.value.Refers known)
    (h : ofArray name t receiver args = .ok data) : data.value.Refers known := by
  unfold ofArray at h
  split at h
  · obtain ⟨index, _, h⟩ := Except.bind_eq_ok.mp h
    obtain ⟨items, hitems, h⟩ := Except.bind_eq_ok.mp h
    rw [items_eq_ok hitems] at hreceiver
    exact Except.ok.inj h ▸ itemAt_refers (refers_array_iff.mp hreceiver) _
  · exact length_refers h
  · obtain ⟨needle, _, h⟩ := Except.bind_eq_ok.mp h
    obtain ⟨items, _, h⟩ := Except.bind_eq_ok.mp h
    exact Except.ok.inj h ▸ refers_bool
  · cases h

private theorem ofMap_refers (hreceiver : receiver.value.Refers known)
    (h : ofMap name t receiver args = .ok data) : data.value.Refers known := by
  unfold ofMap at h
  split at h
  · obtain ⟨key, _, h⟩ := Except.bind_eq_ok.mp h
    obtain ⟨entries, hentries, h⟩ := Except.bind_eq_ok.mp h
    rw [entries_eq_ok hentries] at hreceiver
    obtain rfl := Except.ok.inj h
    change ((entries.lookup key).getD .nil).Refers known
    cases hkey : entries.lookup key with
    | none => exact refers_nil
    | some v => exact refers_map_iff.mp hreceiver _ (Table.mem_of_lookup hkey)
  · exact length_refers h
  · obtain ⟨entries, _, h⟩ := Except.bind_eq_ok.mp h
    exact Except.ok.inj h ▸ refers_array_iff.mpr (List.forall_mem_map.mpr fun _ _ => refers_string)
  · obtain ⟨entries, hentries, h⟩ := Except.bind_eq_ok.mp h
    rw [entries_eq_ok hentries] at hreceiver
    exact Except.ok.inj h ▸
      refers_array_iff.mpr (List.forall_mem_map.mpr (refers_map_iff.mp hreceiver))
  · cases h

private theorem ofString_refers (h : ofString name receiver args = .ok data) :
    data.value.Refers known := by
  unfold ofString at h
  split at h
  · exact length_refers h
  · split at h
    · split at h
      · obtain ⟨needle, _, h⟩ := Except.bind_eq_ok.mp h
        exact Except.ok.inj h ▸ refers_bool
      · split at h
        · exact Except.ok.inj h ▸ refers_bool
        · cases h
      · exact Except.ok.inj h ▸ refers_string
      · exact Except.ok.inj h ▸ refers_string
      · cases h
    · cases h

private theorem ofBool_refers (h : ofBool name receiver args = .ok data) :
    data.value.Refers known := by
  unfold ofBool at h
  split at h
  · split at h
    · exact Except.ok.inj h ▸ refers_bool
    · cases h
  · cases h

theorem plain_refers (hreceiver : receiver.value.Refers known)
    (h : plain name t receiver args = .ok data) : data.value.Refers known := by
  rw [plain] at h
  split at h
  · exact ofArray_refers hreceiver h
  · exact ofMap_refers hreceiver h
  · exact ofString_refers h
  · exact ofBool_refers h
  · cases h

end Builtin

namespace Primitive

private theorem itemValues_refers {items : List Primitive} {vs : List Value}
    (h : itemValues items = .ok vs)
    (hitems : ∀ p ∈ items, ∀ v, p.toValue = .ok v → v.Refers known) :
    ∀ v ∈ vs, v.Refers known := by
  induction items generalizing vs with
  | nil => exact Except.ok.inj h ▸ List.forall_mem_nil _
  | cons p rest ih =>
    rw [itemValues] at h
    obtain ⟨v, hv, h⟩ := Except.bind_eq_ok.mp h
    obtain ⟨others, hothers, h⟩ := Except.bind_eq_ok.mp h
    obtain rfl := Except.ok.inj h
    exact List.forall_mem_cons.mpr ⟨hitems p List.mem_cons_self v hv,
      ih hothers fun q hq => hitems q (List.mem_cons_of_mem _ hq)⟩

private theorem entryValues_refers {entries : List (String × Primitive)}
    {vs : List (String × Value)} (h : entryValues entries = .ok vs)
    (hentries : ∀ e ∈ entries, ∀ v, e.2.toValue = .ok v → v.Refers known) :
    ∀ e ∈ vs, e.2.Refers known := by
  induction entries generalizing vs with
  | nil => exact Except.ok.inj h ▸ List.forall_mem_nil _
  | cons e rest ih =>
    rw [entryValues] at h
    obtain ⟨v, hv, h⟩ := Except.bind_eq_ok.mp h
    obtain ⟨others, hothers, h⟩ := Except.bind_eq_ok.mp h
    obtain rfl := Except.ok.inj h
    exact List.forall_mem_cons.mpr ⟨hentries e List.mem_cons_self v hv,
      ih hothers fun f hf => hentries f (List.mem_cons_of_mem _ hf)⟩

private theorem Constant.toValue_refers {p : Primitive} (hp : p.Constant) {v : Value}
    (h : p.toValue = .ok v) : v.Refers known := by
  induction hp generalizing v with
  | @flat t bytes ht =>
    cases t with
    | nil => exact Except.ok.inj h ▸ refers_nil
    | bool =>
      obtain ⟨b, _, h⟩ := Except.bind_eq_ok.mp h
      exact Except.ok.inj h ▸ refers_bool
    | int =>
      obtain ⟨n, _, h⟩ := Except.bind_eq_ok.mp h
      exact Except.ok.inj h ▸ refers_int
    | float =>
      obtain ⟨x, _, h⟩ := Except.bind_eq_ok.mp h
      exact Except.ok.inj h ▸ Value.refers_of_resources_eq_nil rfl
    | string =>
      obtain ⟨s, _, h⟩ := Except.bind_eq_ok.mp h
      exact Except.ok.inj h ▸ refers_string
    | _ => cases ht
  | array _ _ ih =>
    obtain ⟨vs, hvs, h⟩ := Except.bind_eq_ok.mp h
    exact Except.ok.inj h ▸
      refers_array_iff.mpr (itemValues_refers hvs fun p hp v hv => ih p hp hv)
  | map _ ih =>
    obtain ⟨vs, hvs, h⟩ := Except.bind_eq_ok.mp h
    exact Except.ok.inj h ▸
      refers_map_iff.mpr (entryValues_refers hvs fun e he v hv => ih e he hv)

theorem Constant.toData_refers {p : Primitive} (hp : p.Constant) {data : Data}
    (h : p.toData = .ok data) : data.value.Refers known := by
  obtain ⟨v, hv, h⟩ := Except.bind_eq_ok.mp h
  exact Except.ok.inj h ▸ hp.toValue_refers hv

theorem toData_function_refers {k : Ref} {data : Data} (h : (function k).toData = .ok data) :
    data.value.Refers known := by
  obtain ⟨v, hv, h⟩ := Except.bind_eq_ok.mp h
  rw [toValue_function] at hv
  obtain rfl := Except.ok.inj hv
  exact Except.ok.inj h ▸ Value.refers_of_resources_eq_nil rfl

end Primitive

end AssetQuery
