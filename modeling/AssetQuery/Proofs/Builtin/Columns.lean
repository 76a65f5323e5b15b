import AssetQuery.Builtin.Apply
import AssetQuery.Proofs.Entries
import Mathlib.Data.List.Nodup

/-!
# The keys of columns

Each column of a row has a key of its own, whatever the labels are: the search for a key that is not
taken ends, since there are more marked keys than keys that are taken. A row has an entry for every
column, so that nothing is lost.
-/

namespace AssetQuery

namespace Row

variable {taken labels : List String} {key label : String}

/-- A key with so many marks behind it. -/
def marked (key : String) (marks : Nat) : String := key ++ String.ofList (List.replicate marks '#')

private theorem marked_zero (key : String) : marked key 0 = key := String.append_empty

private theorem marked_succ (key : String) (marks : Nat) :
    marked key (marks + 1) = marked (key.push '#') marks := by
  apply String.toList_inj.mp
  simp [marked, List.replicate_succ]

private theorem marked_injective (key : String) : Function.Injective (marked key) := by
  intro m n h
  have hlength := congrArg String.length h
  simpa [marked] using hlength

private theorem exists_free (taken : List String) (key : String) :
    ∃ marks ≤ taken.length, marked key marks ∉ taken := by
  -- if not, all keys with at most so many marks are taken, which is one more than there are
  by_contra hall
  have hsubset : (List.range (taken.length + 1)).map (marked key) ⊆ taken := by
    intro k hk
    obtain ⟨marks, hmarks, rfl⟩ := List.mem_map.mp hk
    by_contra hfree
    exact hall ⟨marks, by have := List.mem_range.mp hmarks; omega, hfree⟩
  have hnodup : ((List.range (taken.length + 1)).map (marked key)).Nodup :=
    List.Nodup.map (marked_injective key) List.nodup_range
  have hle := hnodup.length_le_of_subset hsubset
  rw [List.length_map, List.length_range] at hle
  omega

private theorem freeKey_spec {tries : Nat} (h : ∃ marks ≤ tries, marked key marks ∉ taken) :
    ∃ marks ≤ tries, freeKey taken tries key = marked key marks ∧ marked key marks ∉ taken ∧
      ∀ fewer < marks, marked key fewer ∈ taken := by
  -- a try that finds its key taken goes on with a mark more, from where one mark less is needed
  induction tries generalizing key with
  | zero =>
    obtain ⟨marks, hle, hfree⟩ := h
    obtain rfl := Nat.le_zero.mp hle
    exact ⟨0, Nat.le_refl 0, (marked_zero key).symm, hfree, nofun⟩
  | succ tries ih =>
    obtain ⟨marks, hle, hfree⟩ := h
    rw [freeKey]
    by_cases hkey : key ∈ taken
    · rw [if_pos (List.contains_iff_mem.mpr hkey)]
      cases marks with
      | zero => exact absurd hkey (marked_zero key ▸ hfree)
      | succ marks =>
        rw [marked_succ] at hfree
        obtain ⟨found, hfound, heq, hnot, hfewer⟩ := ih ⟨marks, by omega, hfree⟩
        refine ⟨found + 1, by omega, marked_succ key found ▸ heq, marked_succ key found ▸ hnot, ?_⟩
        intro fewer hlt
        cases fewer with
        | zero => exact (marked_zero key).symm ▸ hkey
        | succ fewer => exact marked_succ key fewer ▸ hfewer fewer (by omega)
    · rw [if_neg (mt List.contains_iff_mem.mp hkey)]
      exact ⟨0, Nat.zero_le _, (marked_zero key).symm, (marked_zero key).symm ▸ hkey, nofun⟩

/-- Whether a column at some position has a key that is not among those of the columns before: its
label, unless that is taken, and then the label with the position and as few marks as leave the key
free, which are no more than there are columns before. -/
structure Names (earlier : List String) (position : Nat) (label key : String) : Prop where
  free : key ∉ earlier
  bare : label ∉ earlier → key = label
  suffixed : label ∈ earlier → ∃ marks ≤ earlier.length, key = marked s!"{label}#{position}" marks ∧
    ∀ fewer < marks, marked s!"{label}#{position}" fewer ∈ earlier

theorem names_columnKey (taken : List String) (label : String) (position : Nat) :
    Names taken position label (columnKey taken label position) := by
  rw [columnKey]
  by_cases hlabel : label ∈ taken
  · rw [if_pos (List.contains_iff_mem.mpr hlabel)]
    obtain ⟨marks, hle, heq, hfree, hfewer⟩ :=
      freeKey_spec (exists_free taken s!"{label}#{position}")
    exact ⟨heq ▸ hfree, fun hnot => absurd hlabel hnot, fun _ => ⟨marks, hle, heq, hfewer⟩⟩
  · rw [if_neg (mt List.contains_iff_mem.mp hlabel)]
    exact ⟨hlabel, fun _ => rfl, fun h => absurd h hlabel⟩

private theorem length_columnKeysFrom (taken : List String) (position : Nat)
    (labels : List String) : (columnKeysFrom taken position labels).length = labels.length := by
  induction labels generalizing taken position with
  | nil => rfl
  | cons label rest ih => simp [columnKeysFrom, ih]

private theorem names_columnKeysFrom (taken : List String) (position : Nat) {i : Nat}
    (h : labels[i]? = some label) :
    ∃ key, (columnKeysFrom taken position labels)[i]? = some key ∧
      Names (taken ++ (columnKeysFrom taken position labels).take i) (position + i) label key := by
  induction labels generalizing taken position i with
  | nil => cases h
  | cons first rest ih =>
    rw [columnKeysFrom]
    cases i with
    | zero =>
      obtain rfl := Option.some.inj h
      refine ⟨_, rfl, ?_⟩
      rw [List.take_zero, List.append_nil]
      exact names_columnKey taken first position
    | succ i =>
      obtain ⟨key, hkey, hnames⟩ := ih (taken ++ [columnKey taken first position]) (position + 1) h
      refine ⟨key, hkey, ?_⟩
      rw [List.append_assoc, Nat.add_assoc, Nat.add_comm 1] at hnames
      exact hnames

theorem length_columnKeys (labels : List String) : (columnKeys labels).length = labels.length :=
  length_columnKeysFrom [] 0 labels

theorem names_columnKeys {i : Nat} (h : labels[i]? = some label) :
    ∃ key, (columnKeys labels)[i]? = some key ∧
      Names ((columnKeys labels).take i) i label key := by
  have hnames := names_columnKeysFrom [] 0 h
  rwa [Nat.zero_add] at hnames

private theorem nodup_columnKeysFrom {taken : List String} (h : taken.Nodup) (position : Nat)
    (labels : List String) : (taken ++ columnKeysFrom taken position labels).Nodup := by
  induction labels generalizing taken position with
  | nil => rwa [columnKeysFrom, List.append_nil]
  | cons label rest ih =>
    rw [columnKeysFrom, List.append_cons]
    refine ih ?_ (position + 1)
    exact List.nodup_append.mpr ⟨h, List.nodup_singleton _, fun k hk k' hk' heq =>
      (names_columnKey taken label position).free (List.mem_singleton.mp hk' ▸ heq ▸ hk)⟩

/-- No two columns share a key. -/
theorem nodup_columnKeys (labels : List String) : (columnKeys labels).Nodup :=
  nodup_columnKeysFrom .nil 0 labels

/-- Whether a map has an entry for each column and no others: under the key of a column, the value
of the cell in it. -/
structure Holds (keys : List String) (cells : List Data) (entries : List (String × Value)) :
    Prop where
  ordered : Entries.Ordered entries
  perm : (entries.map (·.1)).Perm keys
  value : ∀ (i : Nat) (key : String) (cell : Data), keys[i]? = some key → cells[i]? = some cell →
    entries.lookup key = some cell.value

/-- The entries for cells in columns with some labels. -/
def entries (labels : List String) (cells : List Data) : List (String × Value) :=
  Entries.ofList ((columnKeys labels).zip (cells.map (·.value)))

variable {cells : List Data}

theorem toValue_zip (h : labels.length = cells.length) :
    toValue (labels.zip cells) = .map (entries labels cells) := by
  have hlabels : (labels.zip cells).map (·.1) = labels := List.map_fst_zip (Nat.le_of_eq h)
  have hcells : (labels.zip cells).map (·.2) = cells := List.map_snd_zip (Nat.le_of_eq h.symm)
  have hvalues : ((labels.zip cells).map fun e => e.2.value) = cells.map (·.value) := by
    rw [← hcells, List.map_map, hcells]
    rfl
  rw [toValue, hlabels, hvalues, entries]

/-- A row loses nothing when it becomes a map. -/
theorem holds_entries (h : labels.length = cells.length) :
    Holds (columnKeys labels) cells (entries labels cells) := by
  have hkeys : ((columnKeys labels).zip (cells.map (·.value))).map (·.1) = columnKeys labels := by
    refine List.map_fst_zip (Nat.le_of_eq ?_)
    rw [length_columnKeys, h, List.length_map]
  have hperm := Entries.ofList_perm (hkeys.symm ▸ nodup_columnKeys labels)
  have hordered := Entries.ordered_ofList ((columnKeys labels).zip (cells.map (·.value)))
  refine ⟨hordered, (hperm.map (·.1)).trans (.of_eq hkeys), fun i key cell hkey hcell => ?_⟩
  refine Entries.lookup_of_mem hordered (hperm.mem_iff.mpr ?_)
  have hvalue : (cells.map (·.value))[i]? = some cell.value := by rw [List.getElem?_map, hcell]; rfl
  exact List.mem_of_getElem? (List.getElem?_zip_eq_some.mpr ⟨hkey, hvalue⟩)

end Row

end AssetQuery
