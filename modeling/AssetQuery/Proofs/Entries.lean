import AssetQuery.Entries

/-!
# Entries put in again

Entries that are in the order of their keys, or that have different keys, stay as they are when
they are put in one after the other. Whatever is put in, the entries are so afterwards.
-/

namespace AssetQuery

variable {α β κ : Type}

theorem foldl_of_pairwise {R : β → β → Prop} {put : List β → β → List β}
    (hput : ∀ acc e, (∀ e' ∈ acc, R e' e) → put acc e = acc ++ [e]) {entries : List β}
    (h : entries.Pairwise R) : entries.foldl put [] = entries := by
  suffices ∀ acc : List β, (acc ++ entries).Pairwise R →
      entries.foldl put acc = acc ++ entries from this [] h
  clear h
  induction entries with
  | nil =>
    intro acc _
    rw [List.append_nil, List.foldl_nil]
  | cons e rest ih =>
    intro acc h
    have hlast : ∀ e' ∈ acc, R e' e := fun e' he' =>
      (List.pairwise_append.mp h).2.2 e' he' e List.mem_cons_self
    have hnext : (acc ++ [e] ++ rest).Pairwise R := by
      rw [List.append_assoc]
      exact h
    rw [List.foldl_cons, hput acc e hlast, ih _ hnext, List.append_assoc]
    rfl

namespace Entries

theorem insert_append {key : String} {value : α} {entries : List (String × α)}
    (h : ∀ e ∈ entries, e.1 < key) : insert key value entries = entries ++ [(key, value)] := by
  induction entries with
  | nil => rfl
  | cons head rest ih =>
    obtain ⟨hhead, hrest⟩ := List.forall_mem_cons.mp h
    have hne : key ≠ head.1 := fun heq => Std.lt_irrefl (heq ▸ hhead)
    rw [insert, if_neg (Std.not_lt.mpr (Std.le_of_lt hhead)), if_neg hne, ih hrest]
    rfl

theorem ofList_of_ordered {entries : List (String × α)} (h : Ordered entries) :
    ofList entries = entries :=
  foldl_of_pairwise (fun _ _ => insert_append) h

theorem mem_ofList {entries : List (String × α)} {e : String × α} (h : e ∈ ofList entries) :
    e ∈ entries := by
  suffices ∀ acc : List (String × α), e ∈ entries.foldl (fun acc e => insert e.1 e.2 acc) acc →
      e ∈ acc ∨ e ∈ entries from (this [] h).resolve_left List.not_mem_nil
  clear h
  induction entries with
  | nil => exact fun _ h => .inl h
  | cons head rest ih =>
    intro acc h
    rcases ih _ h with h | h
    · rcases mem_insert h with rfl | h
      · exact .inr List.mem_cons_self
      · exact .inl h
    · exact .inr (List.mem_cons_of_mem _ h)

private theorem insert_perm {key : String} (value : α) {entries : List (String × α)}
    (h : key ∉ entries.map (·.1)) : (insert key value entries).Perm ((key, value) :: entries) := by
  fun_induction insert key value entries with
  | case1 => exact .refl _
  | case2 => exact .refl _
  | case3 v rest hlt => exact absurd List.mem_cons_self h
  | case4 k v rest hlt hne ih =>
    exact ((ih (mt (List.mem_cons_of_mem k) h)).cons (k, v)).trans (.swap _ _ _)

theorem ofList_perm {entries : List (String × α)} (h : (entries.map (·.1)).Nodup) :
    (ofList entries).Perm entries := by
  suffices ∀ acc : List (String × α), ((acc ++ entries).map (·.1)).Nodup →
      (entries.foldl (fun acc e => insert e.1 e.2 acc) acc).Perm (acc ++ entries) from this [] h
  clear h
  induction entries with
  | nil =>
    intro acc _
    rw [List.append_nil]
    exact .refl acc
  | cons e rest ih =>
    intro acc h
    have hnew : e.1 ∉ acc.map (·.1) := by
      intro hold
      rw [List.map_append, List.map_cons] at h
      exact (List.nodup_append.mp h).2.2 _ hold _ List.mem_cons_self rfl
    have hperm := insert_perm e.2 hnew
    have hmiddle : (insert e.1 e.2 acc ++ rest).Perm (acc ++ e :: rest) :=
      (hperm.append_right rest).trans List.perm_middle.symm
    exact (ih _ ((hmiddle.map _).nodup_iff.mpr h)).trans hmiddle

theorem lookup_of_mem {key : String} {value : α} {entries : List (String × α)}
    (h : Ordered entries) (he : (key, value) ∈ entries) : entries.lookup key = some value := by
  obtain ⟨before, after, rfl⟩ := List.append_of_mem he
  have hbefore : ∀ e ∈ before, e.1 < key := by
    intro e he
    exact (List.pairwise_append.mp h).2.2 e he (key, value) List.mem_cons_self
  refine List.lookup_eq_some_iff.mpr ⟨before, after, rfl, ?_⟩
  intro e he
  simpa using (Std.ne_of_lt (hbefore e he)).symm

private theorem insert_of_lookup {key : String} {value : α} {entries : List (String × α)}
    (h : Ordered entries) (hkey : entries.lookup key = some value) :
    insert key value entries = entries := by
  obtain ⟨before, after, rfl, hne⟩ := List.lookup_eq_some_iff.mp hkey
  clear hkey hne
  induction before with
  | nil => rw [List.nil_append, insert, if_neg Std.lt_irrefl, if_pos rfl]
  | cons head before ih =>
    obtain ⟨hhead, hrest⟩ := List.pairwise_cons.mp h
    have hlt : head.1 < key := hhead (key, value) (List.mem_append_right _ List.mem_cons_self)
    rw [List.cons_append, insert, if_neg (Std.not_lt.mpr (Std.le_of_lt hlt)),
      if_neg (Std.ne_of_lt hlt).symm, ih hrest]

private theorem find?_foldl_insert {entries : List (String × α)} (h : Ordered entries) (d : Dict α)
    (key : String) :
    (entries.foldl (fun d e => d.insert e.1 e.2) d).find? key =
      (entries.lookup key).or (d.find? key) := by
  induction entries generalizing d with
  | nil => rfl
  | cons head rest ih =>
    obtain ⟨hhead, hrest⟩ := List.pairwise_cons.mp h
    rw [List.foldl_cons, ih hrest, Dict.find?_insert, List.lookup_cons]
    by_cases hkey : key = head.1
    · have hnone : rest.lookup key = none := by
        apply List.lookup_eq_none_iff.mpr
        intro e he
        simpa [hkey] using Std.ne_of_lt (hhead e he)
      simp [hkey, hkey ▸ hnone]
    · simp [hkey, beq_false_of_ne hkey]

end Entries

namespace Dict

theorem insert_of_find? {d : Dict α} {key : String} {value : α} (h : d.find? key = some value) :
    d.insert key value = d := by
  cases d with
  | mk entries ordered =>
    simp only [insert, mk.injEq]
    exact Entries.insert_of_lookup ordered h

theorem map_eq_self {f : String → α → α} {d : Dict α}
    (h : ∀ key value, d.find? key = some value → f key value = value) : d.map f = d := by
  have hentries : d.entries.map (fun e => (e.1, f e.1 e.2)) = d.entries := by
    refine (List.map_congr_left fun e he => ?_).trans (List.map_id d.entries)
    exact Prod.ext rfl (h e.1 e.2 (Entries.lookup_of_mem d.ordered he))
  cases d with
  | mk entries ordered =>
    simp only [map, mk.injEq]
    exact hentries

theorem find?_insertAll (d other : Dict α) (key : String) :
    (d.insertAll other).find? key = (other.find? key).or (d.find? key) :=
  Entries.find?_foldl_insert other.ordered d key

theorem find?_map (f : String → α → β) (d : Dict α) (key : String) :
    (d.map f).find? key = (d.find? key).map (f key) := by
  simp only [find?, map]
  induction d.entries with
  | nil => rfl
  | cons head rest ih =>
    rw [List.map_cons, List.lookup_cons, List.lookup_cons, ih]
    by_cases hkey : key = head.1
    · simp [hkey]
    · simp [beq_false_of_ne hkey]

theorem find?_eq_some_iff {d : Dict α} {key : String} {value : α} :
    d.find? key = some value ↔ (key, value) ∈ d.entries := by
  refine ⟨fun h => ?_, Entries.lookup_of_mem d.ordered⟩
  obtain ⟨before, after, hentries, _⟩ := List.lookup_eq_some_iff.mp h
  rw [hentries]
  exact List.mem_append_right _ List.mem_cons_self

theorem mem_keys_iff {d : Dict α} {key : String} :
    key ∈ d.keys ↔ ∃ value, d.find? key = some value := by
  simp only [keys, List.mem_map, find?_eq_some_iff]
  constructor
  · rintro ⟨⟨_, value⟩, he, rfl⟩
    exact ⟨value, he⟩
  · rintro ⟨value, he⟩
    exact ⟨_, he, rfl⟩

theorem mem_values_iff {d : Dict α} {value : α} :
    value ∈ d.values ↔ ∃ key, d.find? key = some value := by
  simp only [values, List.mem_map, find?_eq_some_iff]
  constructor
  · rintro ⟨⟨key, _⟩, he, rfl⟩
    exact ⟨key, he⟩
  · rintro ⟨key, he⟩
    exact ⟨_, he, rfl⟩

end Dict

namespace Table

/-- Whether no key comes up twice. -/
def Distinct (table : List (κ × α)) : Prop := table.Pairwise fun a b => a.1 ≠ b.1

variable [BEq κ] [LawfulBEq κ]

theorem mem_of_lookup {key : κ} {value : α} {table : List (κ × α)}
    (h : table.lookup key = some value) : (key, value) ∈ table := by
  obtain ⟨before, after, rfl, _⟩ := List.lookup_eq_some_iff.mp h
  exact List.mem_append_right _ List.mem_cons_self

private theorem put_append {key : κ} {value : α} {table : List (κ × α)}
    (h : ∀ e ∈ table, e.1 ≠ key) : put key value table = table ++ [(key, value)] := by
  induction table with
  | nil => rfl
  | cons head rest ih =>
    obtain ⟨hhead, hrest⟩ := List.forall_mem_cons.mp h
    rw [put, if_neg (by simpa using hhead), ih hrest]
    rfl

theorem ofList_of_distinct {table : List (κ × α)} (h : Distinct table) : ofList table = table :=
  foldl_of_pairwise (fun _ _ => put_append) h

private theorem mem_put {key : κ} {value : α} {table : List (κ × α)} {e : κ × α}
    (h : e ∈ put key value table) : e.1 = key ∨ e ∈ table := by
  induction table with
  | nil => exact .inl (congrArg Prod.fst (List.mem_singleton.mp h))
  | cons head rest ih =>
    rw [put] at h
    split at h
    · next hkey =>
      rcases List.mem_cons.mp h with rfl | h
      · exact .inl (eq_of_beq hkey)
      · exact .inr (List.mem_cons_of_mem _ h)
    · rcases List.mem_cons.mp h with rfl | h
      · exact .inr List.mem_cons_self
      · exact (ih h).imp id (List.mem_cons_of_mem _)

theorem distinct_put (key : κ) (value : α) {table : List (κ × α)} (h : Distinct table) :
    Distinct (put key value table) := by
  induction table with
  | nil => exact List.pairwise_singleton _ _
  | cons head rest ih =>
    obtain ⟨hhead, hrest⟩ := List.pairwise_cons.mp h
    rw [put]
    split
    · exact List.pairwise_cons.mpr ⟨hhead, hrest⟩
    · next hkey =>
      refine List.pairwise_cons.mpr ⟨fun e he => ?_, ih hrest⟩
      rcases mem_put he with heq | he
      · rw [heq]
        simpa using hkey
      · exact hhead e he

theorem distinct_ofList (entries : List (κ × α)) : Distinct (ofList entries) := by
  suffices ∀ table : List (κ × α), Distinct table →
      Distinct (entries.foldl (fun acc (key, value) => put key value acc) table) from
    this [] List.Pairwise.nil
  induction entries with
  | nil => exact fun _ h => h
  | cons e rest ih => exact fun table h => ih _ (distinct_put e.1 e.2 h)

end Table

end AssetQuery
