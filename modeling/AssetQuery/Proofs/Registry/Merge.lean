import AssetQuery.Proofs.Registry.Declaration

/-!
# Chains of merged registries

Whatever is registered when two registries are merged, what is above it is registered too. It has
the field for it, as in either of the two, unless it was taken over from the second, which did not
know what lies below it in the first.
-/

namespace AssetQuery

variable {F : Type}

open Dotted (IsPart Heads)

namespace Registry

variable {a b : Registry F} {above part : String}

private theorem resource?_merge (a b : Registry F) (name : String) :
    (a.merge b).resource? name = (b.resource? name).or (a.resource? name) :=
  Dict.find?_insertAll a.entries b.entries name

private theorem Links.contains {isPrivate : Bool} (h : a.Links above part isPrivate) :
    a.contains above := by
  obtain ⟨parent, _, hparent, _⟩ := h
  exact contains_iff.mpr ⟨parent, hparent⟩

/-- A resource of merged registries is linked from above unless that one is taken over without
it. -/
private theorem Chained.merge_links_iff {declared declared' : List ResourceInfo}
    (ha : Chained declared (fun _ => False) a) (hb : Chained declared' (fun _ => False) b)
    (hpart : IsPart part) {entry : ResourceEntry F}
    (hentry : (a.merge b).resource? (above ++ "." ++ part) = some entry) :
    (a.merge b).contains above ∧
      ((a.merge b).Links above part entry.info.isPrivate ↔
        (b.contains above → b.contains (above ++ "." ++ part) ∨
          b.Links above part entry.info.isPrivate)) := by
  have habove := resource?_merge a b above
  rw [resource?_merge] at hentry
  cases hbelow : b.resource? (above ++ "." ++ part) with
  | some found =>
    -- the second registry has both of them
    rw [hbelow] at hentry
    obtain rfl := Option.some.inj hentry
    have hlinks := hb.above above part found hpart id hbelow
    obtain ⟨parent, hparent⟩ := contains_iff.mp hlinks.contains
    rw [hparent, Option.some_or, ← hparent] at habove
    have hmerged := (links_congr habove found.info.isPrivate).mpr hlinks
    refine ⟨hmerged.contains, iff_of_true hmerged fun _ => .inl ?_⟩
    exact contains_iff.mpr ⟨found, hbelow⟩
  | none =>
    rw [hbelow, Option.none_or] at hentry
    have hlinks := ha.above above part entry hpart id hentry
    have hnot := resource?_eq_none_iff.mp hbelow
    cases hparent : b.resource? above with
    | some parent =>
      rw [hparent, Option.some_or, ← hparent] at habove
      have hcontains : b.contains above := contains_iff.mpr ⟨parent, hparent⟩
      rw [links_congr habove]
      refine ⟨contains_iff.mpr ⟨parent, habove.trans hparent⟩, ?_⟩
      simp [hcontains, hnot]
    | none =>
      rw [hparent, Option.none_or] at habove
      have hmerged := (links_congr habove entry.info.isPrivate).mpr hlinks
      refine ⟨hmerged.contains, iff_of_true hmerged fun hcontains => ?_⟩
      rw [resource?_eq_none_iff.mp hparent] at hcontains
      cases hcontains

/-- Whatever is asked of two registries before they are merged: above what is registered then, all
is registered, and the field on the way down is there, public if what it is for is, unless the
second registry has the one above but not the other, and does not have such a field itself. -/
theorem merge_linked_iff (requests others : List (Request F)) (hpart : IsPart part)
    {entry : ResourceEntry F}
    (hentry : ((empty.serveAll requests).merge (empty.serveAll others)).resource?
      (above ++ "." ++ part) = some entry) :
    ((empty.serveAll requests).merge (empty.serveAll others)).contains above ∧
      (((empty.serveAll requests).merge (empty.serveAll others)).Links above part
          entry.info.isPrivate ↔
        ((empty.serveAll others).contains above →
          (empty.serveAll others).contains (above ++ "." ++ part) ∨
            (empty.serveAll others).Links above part entry.info.isPrivate)) :=
  (chained_empty.serveAll requests).merge_links_iff (chained_empty.serveAll others) hpart hentry

/-- A hidden disk of a system. -/
def hiddenDisk : List (Request Unit) :=
  [.declare { ResourceInfo.plain "os.disk" with isPrivate := true }]

/-- A public part of such a disk. -/
def diskPart : List (Request Unit) := [.declare (.plain "os.disk.part")]

/-- The part comes with the disk that it is of. -/
theorem merge_linked_diskPart :
    IsPart "part" ∧
      ∃ entry, ((empty.serveAll hiddenDisk).merge (empty.serveAll diskPart)).resource?
          ("os.disk" ++ "." ++ "part") = some entry ∧ entry.info.isPrivate = false ∧
        ((empty.serveAll hiddenDisk).merge (empty.serveAll diskPart)).contains "os.disk" ∧
        ((empty.serveAll hiddenDisk).merge (empty.serveAll diskPart)).Links "os.disk" "part"
          false := by
  have hpart : IsPart "part" := by decide
  have hseen : (((empty.serveAll hiddenDisk).merge (empty.serveAll diskPart)).resource?
      ("os.disk" ++ "." ++ "part")).map (·.info.isPrivate) = some false ∧
      (empty.serveAll diskPart).contains ("os.disk" ++ "." ++ "part") = true := by
    decide +kernel
  obtain ⟨hentry, hknown⟩ := hseen
  obtain ⟨entry, hentry, hpublic⟩ := Option.map_eq_some_iff.mp hentry
  obtain ⟨hcontains, hiff⟩ := merge_linked_iff hiddenDisk diskPart hpart hentry
  refine ⟨hpart, entry, hentry, hpublic, hcontains, ?_⟩
  rw [← hpublic]
  exact hiff.mpr fun _ => .inl hknown

/-- A system with a version, of which no disk is known. -/
def versionedSystem : List (Request Unit) :=
  [.declare ((ResourceInfo.plain "os").withField (.plain "version" .string))]

/-- The disk stays without a link from the system that is taken over with its version. -/
theorem not_linked_versionedSystem :
    ∃ entry, ((empty.serveAll hiddenDisk).merge (empty.serveAll versionedSystem)).resource?
        ("os" ++ "." ++ "disk") = some entry ∧
      ¬((empty.serveAll hiddenDisk).merge (empty.serveAll versionedSystem)).Links "os" "disk"
        entry.info.isPrivate := by
  have hseen : ((empty.serveAll hiddenDisk).merge (empty.serveAll versionedSystem)).contains
      ("os" ++ "." ++ "disk") = true ∧
      ((empty.serveAll hiddenDisk).merge (empty.serveAll versionedSystem)).field? "os" "disk" =
        none := by
    decide +kernel
  obtain ⟨hcontains, hnone⟩ := hseen
  obtain ⟨entry, hentry⟩ := contains_iff.mp hcontains
  refine ⟨entry, hentry, ?_⟩
  rintro ⟨parent, link, hparent, hlink, _⟩
  rw [field?, hparent] at hnone
  cases hlink.symm.trans hnone

end Registry

end AssetQuery
