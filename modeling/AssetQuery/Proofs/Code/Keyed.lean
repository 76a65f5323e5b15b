import AssetQuery.Proofs.Code.Stored

/-!
# What is read is well keyed

A reader puts the entries that it reads in order, and keeps one entry of each number. So every code
that is read can take part in the round trip: it is read again from what it is stored as.
-/

namespace AssetQuery

namespace Wire.Reader

variable {α β : Type} {P : α → Prop} {Q : β → Prop}

/-- Whether all that a reader gives has a property. -/
def Gives (r : Reader α) (P : α → Prop) : Prop :=
  ∀ ⦃input a rest⦄, r input = .ok (a, rest) → P a

theorem gives_true (r : Reader α) : r.Gives fun _ => True := fun _ _ _ _ => trivial

theorem gives_done {a : α} (h : P a) : (done a).Gives P := by
  intro _ _ _ hread
  cases hread
  exact h

theorem Gives.andThen {r : Reader α} {k : α → Reader β} (h : r.Gives P)
    (hk : ∀ a, P a → (k a).Gives Q) : (Reader.andThen r k).Gives Q := by
  intro input b rest hread
  rw [Reader.andThen] at hread
  split at hread
  · next a mid hfirst => exact hk a (h hfirst) hread
  · cases hread

theorem Gives.list {item : Reader α} (h : item.Gives P) :
    (list item).Gives fun as => ∀ a ∈ as, P a := by
  refine (gives_true length).andThen fun count _ => ?_
  induction count with
  | zero => exact gives_done (List.forall_mem_nil _)
  | succ count ih =>
    exact h.andThen fun a ha => ih.andThen fun as has =>
      gives_done (List.forall_mem_cons.mpr ⟨ha, has⟩)

private theorem Gives.pair {first : Reader α} {second : Reader β} (h : second.Gives Q) :
    (pair first second).Gives fun x => Q x.2 :=
  (gives_true first).andThen fun _ _ => h.andThen fun _ hb => gives_done hb

private theorem Gives.optional {item : Reader α} (h : item.Gives P) :
    (optional item).Gives fun o => ∀ a, o = some a → P a := by
  have hsome : (Reader.andThen item fun a => done (some a)).Gives
      fun o => ∀ a, o = some a → P a :=
    h.andThen fun a ha => gives_done fun _ heq => Option.some.inj heq ▸ ha
  intro input o rest hread
  cases input with
  | nil => cases hread
  | cons b input =>
    simp only [Reader.optional] at hread
    split at hread
    · cases hread
      exact nofun
    · split at hread
      · exact hsome hread
      · cases hread

end Wire.Reader

open Wire (Reader)

private theorem Primitive.gives_sorted (levels : Nat) : (readLevels levels).Gives Sorted := by
  induction levels with
  | zero =>
    intro _ _ _ hread
    cases hread
  | succ levels ih =>
    refine (Reader.gives_true _).andThen fun typ _ => (Reader.gives_true _).andThen fun bytes _ =>
      ih.list.andThen fun items hitems => ih.pair.list.andThen fun entries hentries => ?_
    exact Reader.gives_done (.mk hitems (fun e he => hentries e (Entries.mem_ofList he))
      (Entries.ordered_ofList entries))

private theorem Primitive.readWire_gives_sorted : readWire.Gives Sorted :=
  fun _ _ _ hread => gives_sorted _ hread

private theorem Chunk.readWire_gives_sorted : readWire.Gives Sorted := by
  have hcall : FunctionCall.readWire.Gives FunctionCall.Sorted :=
    (Reader.gives_true _).andThen fun _ _ => (Reader.gives_true _).andThen fun _ _ =>
      Primitive.readWire_gives_sorted.list.andThen fun _ hargs => Reader.gives_done hargs
  exact (Reader.gives_true _).andThen fun _ _ => (Reader.gives_true _).andThen fun _ _ =>
    hcall.optional.andThen fun _ hfunction =>
      Primitive.readWire_gives_sorted.optional.andThen fun _ hprimitive =>
        Reader.gives_done ⟨hfunction, hprimitive⟩

namespace Code

private theorem readTable_gives_distinct : readTable.Gives Table.Distinct :=
  (Reader.gives_true _).andThen fun entries _ => Reader.gives_done (Table.distinct_ofList entries)

private theorem gives_wellKeyed (levels : Nat) : (readLevels levels).Gives WellKeyed := by
  induction levels with
  | zero =>
    intro _ _ _ hread
    cases hread
  | succ levels ih =>
    refine (Reader.gives_true _).andThen fun id _ =>
      Chunk.readWire_gives_sorted.list.andThen fun chunks hchunks =>
      (Reader.gives_true _).andThen fun entrypoints _ =>
      readTable_gives_distinct.andThen fun labels hlabels =>
      ih.list.andThen fun functions hfunctions =>
      (Reader.gives_true _).andThen fun parameters _ =>
      readTable_gives_distinct.andThen fun checksums hchecksums => ?_
    exact Reader.gives_done (.mk hchunks hlabels hfunctions hchecksums)

private theorem wellKeyed_of_read {b : Bytes} {c : Code} (h : read b = .ok c) : c.WellKeyed := by
  simp only [read] at h
  split at h
  · cases h
  split at h
  · cases h
  split at h
  · cases h
  split at h
  · cases h
  split at h
  · next code rest hread =>
    cases h
    exact gives_wellKeyed _ hread
  · cases h

/-- A code that was read is read again from what it is stored as. -/
theorem read_write_of_read {b b' : Bytes} {c : Code} (h : read b = .ok c)
    (hwrite : c.write = .ok b') (s : Bytes) : read (b' ++ s) = .ok c :=
  read_append_of_write (wellKeyed_of_read h) hwrite s

end Code

end AssetQuery
