import AssetQuery.Proofs.Entries
import AssetQuery.Proofs.Json.Number

/-!
# Values read back from documents

When a decoder gives back a value from the document that the value was written as: exactly if it may
enter all levels of the document, and on a condition that what the value is made of may add.
-/

namespace AssetQuery.Json

variable {α β : Type}

mutual

/-- How deep arrays and objects nest in a document. -/
def levels : Json → Nat
  | array items => itemLevels items + 1
  | object members => memberLevels members + 1
  | _ => 0

def itemLevels : List Json → Nat
  | [] => 0
  | item :: rest => max item.levels (itemLevels rest)

def memberLevels : List (String × Json) → Nat
  | [] => 0
  | (_, value) :: rest => max value.levels (memberLevels rest)

end

private theorem itemLevels_le {items : List Json} {n : Nat} :
    itemLevels items ≤ n ↔ ∀ item ∈ items, item.levels ≤ n := by
  induction items with
  | nil => simp [itemLevels]
  | cons item rest ih => rw [itemLevels, Nat.max_le, ih, List.forall_mem_cons]

private theorem memberLevels_le {members : List (String × Json)} {n : Nat} :
    memberLevels members ≤ n ↔ ∀ m ∈ members, m.2.levels ≤ n := by
  induction members with
  | nil => simp [memberLevels]
  | cons m rest ih => rw [memberLevels, Nat.max_le, ih, List.forall_mem_cons]

theorem levels_array_le {items : List Json} {n : Nat} :
    (array items).levels ≤ n + 1 ↔ ∀ item ∈ items, item.levels ≤ n := by
  rw [levels, Nat.add_le_add_iff_right, itemLevels_le]

theorem levels_object_le {members : List (String × Json)} {n : Nat} :
    (object members).levels ≤ n + 1 ↔ ∀ m ∈ members, m.2.levels ≤ n := by
  rw [levels, Nat.add_le_add_iff_right, memberLevels_le]

theorem levels_ofMembers_le {members : List (String × Json)} {n : Nat} :
    (ofMembers members).levels ≤ n + 1 ↔ ∀ m ∈ members, m.2.levels ≤ n := by
  rw [ofMembers, levels_object_le, List.forall_mem_map]

private theorem not_levels_ofMembers_le_zero {members : List (String × Json)} :
    ¬(ofMembers members).levels ≤ 0 := by
  rw [ofMembers, levels]
  omega

namespace Decoder

/-- Whether a decoder that may enter some levels gives a value for a document exactly if these are
all levels of the document and a condition holds. -/
def Restores (item : Decoder α) (room : Nat) (doc : Json) (a : α) (ok : Prop) : Prop :=
  item room doc = some a ↔ doc.levels ≤ room ∧ ok

variable {item : Decoder α} {room : Nat} {ok : α → Prop} {write : α → Json}

theorem Restores.iff {doc : Json} {a : α} {ok : Prop} (h : item.Restores room doc a ok) :
    item room doc = some a ↔ doc.levels ≤ room ∧ ok := h

theorem restores_of_eq_some {doc : Json} {a : α} (h : item room doc = some a)
    (hlevels : doc.levels = 0) : item.Restores room doc a True := by
  simp [Restores, h, hlevels]

theorem whole_ofInt {low high n : Int} (hlow : -2 ^ 63 ≤ low) (hhigh : high < 2 ^ 64)
    (hn : low ≤ n ∧ n ≤ high) (room : Nat) : whole low high room (ofInt n) = some n := by
  rw [ofInt, whole, numeral?_toString (by omega) (by omega)]
  simp [hn.1, hn.2]

theorem int32_ofInt (room : Nat) (n : Int32) : int32 room (ofInt n.toInt) = some n := by
  rw [int32, whole_ofInt (by decide) (by decide) ⟨n.minValue_le_toInt, n.toInt_le⟩, Option.map_some,
    Int32.ofInt_toInt]

theorem natBelow_ofNat {bound n : Nat} (hbound : bound ≤ 2 ^ 64) (hn : n < bound) (room : Nat) :
    natBelow bound room (ofNat n) = some n := by
  have hwhole : whole 0 (bound - 1 : Int) room (ofNat n) = some (n : Int) :=
    whole_ofInt (n := n) (by decide) (by omega) ⟨by omega, by omega⟩ room
  rw [natBelow, hwhole]
  rfl

theorem restores_nullable {o : Option α} (hwrite : ∀ a, write a ≠ .null)
    (h : ∀ a, o = some a → item.Restores room (write a) a (ok a)) :
    (nullable item).Restores room ((o.map write).getD .null) o (∀ a, o = some a → ok a) := by
  cases o with
  | none => simp [Restores, nullable, levels]
  | some a =>
    have hread := h a rfl
    have hmap : nullable item room (write a) = (item room (write a)).map some := by
      rw [nullable]
      exact hwrite a
    simpa [Restores, hmap] using hread

theorem mapM_eq_some_self {f : α → Option α} {P : α → Prop} {as : List α}
    (h : ∀ a ∈ as, f a = some a ↔ P a) : as.mapM f = some as ↔ ∀ a ∈ as, P a := by
  induction as with
  | nil => simp
  | cons a rest ih =>
    obtain ⟨ha, hrest⟩ := List.forall_mem_cons.mp h
    have hcons : (a :: rest).mapM f = some (a :: rest) ↔
        f a = some a ∧ rest.mapM f = some rest := by
      simp [Option.bind_eq_some_iff]
    rw [hcons, ha, ih hrest, List.forall_mem_cons]

private theorem map_eq_of_mapM {f : α → Option β} {key : α → String} {key' : β → String}
    {as : List α}
    {bs : List β} (hf : ∀ a b, f a = some b → key' b = key a) (h : as.mapM f = some bs) :
    bs.map key' = as.map key := by
  induction as generalizing bs with
  | nil =>
    obtain rfl : [] = bs := by simpa using h
    rfl
  | cons a rest ih =>
    simp only [List.mapM_cons, bind, Option.bind_eq_some_iff] at h
    obtain ⟨b, hb, others, hothers, h⟩ := h
    obtain rfl := Option.some.inj h
    rw [List.map_cons, List.map_cons, hf a b hb, ih hothers]

/-- A list is given back exactly if its items are. -/
theorem restores_list (write : α → Json) (ok : α → Prop) {as : List α}
    (h : ∀ r < room, ∀ a ∈ as, item.Restores r (write a) a (ok a)) :
    (list item).Restores room (.array (as.map write)) as (∀ a ∈ as, ok a) := by
  cases room with
  | zero => simp [Restores, list, levels]
  | succ r =>
    rw [Restores, list, levels_array_le, List.forall_mem_map, List.mapM_map,
      mapM_eq_some_self (f := item r ∘ write) (h r (Nat.lt_succ_self r))]
    exact forall₂_and

private theorem members_spelled (r : Nat) (entries : List (String × α)) :
    members item (r + 1) (.object (entries.map fun e => (spell e.1, write e.2))) =
      entries.mapM fun e => (item r (write e.2)).map fun a => (e.1, a) := by
  rw [members, List.mapM_map]
  congr 1
  funext e
  cases hread : item r (write e.2) <;> simp [unspell?_spell, hread]

/-- The members of an object, put in the order of their names. -/
def entries (item : Decoder α) : Decoder (List (String × α)) :=
  fun room doc => (members item room doc).map Entries.ofList

/-- The entries of an object are given back exactly if their values are. -/
theorem restores_entries (write : α → Json) (ok : α → Prop) {es : List (String × α)}
    (hordered : Entries.Ordered es)
    (h : ∀ r < room, ∀ e ∈ es, item.Restores r (write e.2) e.2 (ok e.2)) :
    (entries item).Restores room (.object (es.map fun e => (spell e.1, write e.2))) es
      (∀ e ∈ es, ok e.2) := by
  cases room with
  | zero => simp [Restores, entries, members, levels]
  | succ r =>
    have hself : es.mapM (fun e => (item r (write e.2)).map fun a => (e.1, a)) = some es ↔
        ∀ e ∈ es, (write e.2).levels ≤ r ∧ ok e.2 := by
      refine mapM_eq_some_self fun e he => ?_
      refine Iff.trans ?_ (h r (Nat.lt_succ_self r) e he)
      simp [Prod.ext_iff]
    rw [Restores, entries, members_spelled, levels_object_le, List.forall_mem_map]
    refine Iff.trans ⟨fun hread => ?_, fun hread => ?_⟩ (hself.trans forall₂_and)
    · -- the names that are read are those that were written, which are in order
      obtain ⟨found, hfound, hsorted⟩ := Option.map_eq_some_iff.mp hread
      have hkeys : found.map (·.1) = es.map (·.1) := by
        refine map_eq_of_mapM (fun e e' he => ?_) hfound
        obtain ⟨_, _, rfl⟩ := Option.map_eq_some_iff.mp he
        rfl
      have hordered' : Entries.Ordered found := by
        rw [Entries.Ordered, ← List.pairwise_map (R := (· < ·)), hkeys, List.pairwise_map]
        exact hordered
      rw [Entries.ofList_of_ordered hordered'] at hsorted
      exact hsorted ▸ hfound
    · rw [hread, Option.map_some, Entries.ofList_of_ordered hordered]

theorem record_zero (names : List String) (doc : Json) : record names 0 doc = none := by
  cases doc <;> rfl

theorem restores_zero {d : Decoder α} {fields : List (String × Json)} {a : α} {P : Prop}
    (h : d 0 (ofMembers fields) = none) : d.Restores 0 (ofMembers fields) a P := by
  rw [Restores, h]
  exact iff_of_false (Option.some_ne_none a).symm fun h => not_levels_ofMembers_le_zero h.1

/-- A record whose fields are written in their order has them all. -/
theorem record_ofMembers (names : List String) {fields : List (String × Json)}
    (hnames : fields.map (·.1) = names) (hdistinct : names.eraseDups = names) (room : Nat) :
    record names (room + 1) (ofMembers fields) = some ⟨room, fields⟩ := by
  have hgiven : (fields.map fun m => (spell m.1, m.2)).mapM
      (fun m => (unspell? m.1).bind fun name => some (name, m.2)) = some fields := by
    rw [List.mapM_map]
    exact (mapM_eq_some_self (P := fun _ => True) fun m _ => by simp [unspell?_spell]).mpr
      fun _ _ => trivial
  have hknown : fields.filter (fun m => names.contains m.1) = fields := by
    refine List.filter_eq_self.mpr fun m hm => ?_
    rw [← hnames]
    simpa using ⟨m.2, hm⟩
  have hlength : fields.length = names.length := by rw [← hnames, List.length_map]
  show (((fields.map fun m => (spell m.1, m.2)).mapM fun m =>
    (unspell? m.1).bind fun name => some (name, m.2)).bind fun given =>
      let known := given.filter fun m => names.contains m.1
      if (known.map (·.1)).eraseDups.length = known.length then some (Fields.mk room known)
      else none) = _
  rw [hgiven, Option.bind_some]
  simp only [hknown, hnames, hdistinct, hlength, if_true]

end Decoder

end AssetQuery.Json
