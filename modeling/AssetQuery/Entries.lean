/-!
# Keyed entries

Lists of keyed entries. In one kind an entry that is put in takes the place that its key has in the
order of texts; in the other the entries are in the order in which their keys first came up. In both
it replaces an entry of the same key.
-/

namespace AssetQuery

variable {α β : Type}

namespace Entries

/-- Puts an entry in its place, over any entry of that key. -/
def insert (key : String) (value : α) : List (String × α) → List (String × α)
  | [] => [(key, value)]
  | (k, v) :: rest =>
    if key < k then (key, value) :: (k, v) :: rest
    else if key = k then (key, value) :: rest
    else (k, v) :: insert key value rest

/-- The entries in order, the last of each key. -/
def ofList (entries : List (String × α)) : List (String × α) :=
  entries.foldl (fun acc (key, value) => insert key value acc) []

/-- Whether the keys increase. -/
def Ordered (entries : List (String × α)) : Prop := entries.Pairwise fun a b => a.1 < b.1

theorem mem_insert {key : String} {value : α} {entries : List (String × α)} {e : String × α}
    (h : e ∈ insert key value entries) : e = (key, value) ∨ e ∈ entries := by
  induction entries with
  | nil => simpa [insert] using h
  | cons head rest ih =>
    simp only [insert] at h
    split at h
    · simpa using h
    · split at h
      · rcases List.mem_cons.mp h with h | h
        · exact .inl h
        · exact .inr (List.mem_cons_of_mem _ h)
      · rcases List.mem_cons.mp h with h | h
        · exact .inr (h ▸ List.mem_cons_self)
        · exact (ih h).imp id (List.mem_cons_of_mem _)

theorem ordered_insert (key : String) (value : α) {entries : List (String × α)}
    (h : Ordered entries) : Ordered (insert key value entries) := by
  induction entries with
  | nil => simp [insert, Ordered]
  | cons head rest ih =>
    obtain ⟨hhead, hrest⟩ := List.pairwise_cons.mp h
    simp only [insert]
    split
    · next hlt =>
      refine List.pairwise_cons.mpr ⟨fun e he => ?_, h⟩
      rcases List.mem_cons.mp he with rfl | he
      · exact hlt
      · exact String.lt_trans hlt (hhead e he)
    · next hge =>
      split
      · next heq =>
        subst heq
        exact List.pairwise_cons.mpr ⟨hhead, hrest⟩
      · next hne =>
        refine List.pairwise_cons.mpr ⟨fun e he => ?_, ih hrest⟩
        rcases mem_insert he with rfl | he
        · exact Std.lt_of_le_of_ne (Std.not_lt.mp hge) (Ne.symm hne)
        · exact hhead e he

theorem ordered_ofList (entries : List (String × α)) : Ordered (ofList entries) := by
  suffices ∀ acc : List (String × α), Ordered acc →
      Ordered (entries.foldl (fun acc (key, value) => insert key value acc) acc) from
    this [] List.Pairwise.nil
  induction entries with
  | nil => exact fun _ h => h
  | cons e rest ih => exact fun acc h => ih _ (ordered_insert e.1 e.2 h)

private theorem lookup_insert (key : String) (value : α) (k : String)
    (entries : List (String × α)) :
    (insert key value entries).lookup k = if k = key then some value else entries.lookup k := by
  induction entries with
  | nil =>
    by_cases h : k = key
    · simp [insert, h]
    · simp [insert, List.lookup_cons, h, beq_false_of_ne h]
  | cons head rest ih =>
    obtain ⟨first, old⟩ := head
    simp only [insert]
    by_cases h : k = key
    · subst h
      split
      · simp
      · split
        · simp
        · next hne => simp [List.lookup_cons, ih, beq_false_of_ne hne]
    · split
      · simp [List.lookup_cons, beq_false_of_ne h]
      · split
        · next heq =>
          subst heq
          simp [List.lookup_cons, beq_false_of_ne h]
        · simp [List.lookup_cons, ih, if_neg h]

end Entries

/-- A finite map from texts, its entries in the order of their keys. -/
structure Dict (α : Type) where
  entries : List (String × α)
  ordered : Entries.Ordered entries

namespace Dict

def empty : Dict α := ⟨[], List.Pairwise.nil⟩

instance : Inhabited (Dict α) := ⟨empty⟩

def ofList (entries : List (String × α)) : Dict α :=
  ⟨Entries.ofList entries, Entries.ordered_ofList _⟩

def find? (d : Dict α) (key : String) : Option α := d.entries.lookup key

def contains (d : Dict α) (key : String) : Bool := (d.find? key).isSome

def insert (d : Dict α) (key : String) (value : α) : Dict α :=
  ⟨Entries.insert key value d.entries, Entries.ordered_insert key value d.ordered⟩

def keys (d : Dict α) : List String := d.entries.map (·.1)

def values (d : Dict α) : List α := d.entries.map (·.2)

def size (d : Dict α) : Nat := d.entries.length

/-- The entries with some keys left out. -/
def filter (d : Dict α) (keep : String → α → Bool) : Dict α :=
  ⟨d.entries.filter fun e => keep e.1 e.2, d.ordered.filter _⟩

def erase (d : Dict α) (key : String) : Dict α := d.filter fun k _ => k != key

/-- The same keys with other values. -/
def map (f : String → α → β) (d : Dict α) : Dict β :=
  ⟨d.entries.map fun e => (e.1, f e.1 e.2), by
    simpa [Entries.Ordered, List.pairwise_map] using d.ordered⟩

/-- Puts in every entry of another map. -/
def insertAll (d other : Dict α) : Dict α := other.entries.foldl (fun d e => d.insert e.1 e.2) d

instance [DecidableEq α] : DecidableEq (Dict α) := fun a b =>
  if h : a.entries = b.entries then
    isTrue (by cases a; cases b; simp only at h; subst h; rfl)
  else isFalse fun he => h (he ▸ rfl)

theorem find?_insert (d : Dict α) (key : String) (value : α) (k : String) :
    (d.insert key value).find? k = if k = key then some value else d.find? k :=
  Entries.lookup_insert key value k d.entries

@[simp] theorem find?_empty (k : String) : (empty : Dict α).find? k = none := rfl

end Dict

end AssetQuery

namespace AssetQuery.Table

variable {κ α : Type} [BEq κ]

/-- Puts in an entry: in the place of an entry of that key, else at the end. -/
def put (key : κ) (value : α) : List (κ × α) → List (κ × α)
  | [] => [(key, value)]
  | (k, v) :: rest => if k == key then (k, value) :: rest else (k, v) :: put key value rest

/-- The table that results from putting in entries one after the other. -/
def ofList (entries : List (κ × α)) : List (κ × α) :=
  entries.foldl (fun acc (key, value) => put key value acc) []

theorem lookup_put [LawfulBEq κ] (key : κ) (value : α) (k : κ) (table : List (κ × α)) :
    (put key value table).lookup k = if k == key then some value else table.lookup k := by
  induction table with
  | nil => cases h : k == key <;> simp [put, List.lookup_cons, h]
  | cons entry rest ih =>
    obtain ⟨first, old⟩ := entry
    simp only [put]
    cases hfirst : first == key with
    | true =>
      have hf : first = key := eq_of_beq hfirst
      subst hf
      cases h : k == first <;> simp [List.lookup_cons, h]
    | false =>
      cases h : k == first with
      | true =>
        have hk : k = first := eq_of_beq h
        subst hk
        simp [hfirst]
      | false => simp [List.lookup_cons, h, ih]

end AssetQuery.Table
