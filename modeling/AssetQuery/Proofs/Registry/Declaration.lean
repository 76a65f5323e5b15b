import AssetQuery.Proofs.Entries
import AssetQuery.Proofs.Registry.Each

/-!
# What a declaration changes

A declaration puts the resource in first and then goes down its chain, one link after the other. One
that is refused leaves the registry as it was. Any other adds the resource, with what is missing
above it, and leaves what is there as it is, but for the links on the way down: what is above a
public resource becomes public with it.
-/

namespace AssetQuery

variable {F : Type}

open Dotted (IsPart Heads)

/-- A field with its key in the place of a name that is missing. -/
def Field.named (key : String) (field : Field) : Field :=
  if field.name.isEmpty then { field with name := key } else field

namespace ResourceInfo

theorem completed_eq (info : ResourceInfo) :
    info.completed = { info with fields := info.completed.fields } := by
  obtain ⟨id, fields, isPrivate, listType, rewritesArgs, title⟩ := info
  cases listType with
  | none => rfl
  | some elem =>
    simp only [completed]
    split <;> rfl

theorem fields_completed (info : ResourceInfo) :
    info.completed.fields =
      match info.listType with
      | some elem =>
        if (info.fields.map Field.named).contains "list" then info.fields.map Field.named
        else (info.fields.map Field.named).insert "list" (.plain "list" (.array elem))
      | none => info.fields.map Field.named := by
  obtain ⟨id, fields, isPrivate, listType, rewritesArgs, title⟩ := info
  cases listType with
  | none => rfl
  | some elem => exact apply_ite ResourceInfo.fields _ _ _

/-- The fields of a completed declaration are those that it has, and the field `list` of a list
without one. -/
theorem find?_completed (info : ResourceInfo) (key : String) :
    info.completed.fields.find? key = ((info.fields.find? key).map (Field.named key)).or
      (if key = "list" then info.listType.map fun elem => .plain "list" (.array elem)
        else none) := by
  rw [fields_completed]
  cases info.listType with
  | none => simp [Dict.find?_map]
  | some elem =>
    simp only [Dict.contains, Dict.find?_map]
    by_cases hkey : key = "list"
    · cases hlist : info.fields.find? "list" <;>
        simp [hkey, hlist, Dict.find?_map, Dict.find?_insert]
    · cases hlist : info.fields.find? "list" <;>
        simp [hkey, Dict.find?_map, Dict.find?_insert]

end ResourceInfo

/-- Whether a resource is what another has become by a link to what lies directly below it. It
becomes public with that, and so does the link, which is a new one where there is no such field. -/
structure ResourceEntry.Linked (old : ResourceEntry F) (part child : String) (isPrivate : Bool)
    (now : ResourceEntry F) : Prop where
  factory : now.factory = old.factory
  info : now.info = { old.info with
    isPrivate := old.info.isPrivate && isPrivate, fields := now.info.fields }
  others : ∀ key, key ≠ part → now.info.fields.find? key = old.info.fields.find? key
  kept : ∀ field, old.info.fields.find? part = some field →
    now.info.fields.find? part = some { field with isPrivate := field.isPrivate && isPrivate }
  gained : old.info.fields.find? part = none →
    now.info.fields.find? part = some (Registry.linkField part child isPrivate)

namespace Registry

variable {r r' : Registry F} {info : ResourceInfo}

theorem contains_iff {name : String} : r.contains name ↔ ∃ entry, r.resource? name = some entry :=
  Option.isSome_iff_exists

theorem resource?_eq_none_iff {name : String} :
    r.resource? name = none ↔ r.contains name = false :=
  Option.isNone_iff_eq_none.symm.trans (by simp [contains, Dict.contains, resource?])

/-- Whether a registry is what another has become by a declaration. -/
structure Extends (r : Registry F) (info : ResourceInfo) (r' : Registry F) : Prop where
  declared : ∃ fields, r'.resource? info.id = some ⟨{ info with fields }, none⟩ ∧
    ∀ key, fields.find? key = ((info.fields.find? key).map (Field.named key)).or
      (if key = "list" then info.listType.map fun elem => .plain "list" (.array elem) else none)
  above : ∀ above part, IsPart part → Heads (above ++ "." ++ part) info.id →
    ∃ now, r'.resource? above = some now ∧
      (r.parent info.isPrivate above).Linked part (above ++ "." ++ part) info.isPrivate now
  elsewhere : ∀ name, ¬Heads name info.id → r'.resource? name = r.resource? name

section Chain

variable (isPrivate : Bool)

private theorem linked_linkedParent (r : Registry F) (current part : String) :
    (r.parent isPrivate current).Linked part (current ++ "." ++ part) isPrivate
      (r.linkedParent isPrivate current part) where
  factory := rfl
  info := rfl
  others key hkey := (Dict.find?_insert _ _ _ _).trans (if_neg hkey)
  kept field hfield := by simp [linkedParent, linked, Dict.find?_insert, hfield]
  gained hnone := by simp [linkedParent, linked, Dict.find?_insert, hnone, linkField]

theorem resource?_linkChain_of_ne {name current : String} {parts : List String}
    (h : ∀ front part back, parts = front ++ part :: back → name ≠ Dotted.below current front) :
    (linkChain isPrivate current parts r).resource? name = r.resource? name := by
  induction parts generalizing current r with
  | nil => rfl
  | cons part parts ih =>
    have hcurrent : name ≠ current := h [] part parts rfl
    rw [linkChain_cons, ih]
    · rw [resource?_linkedTo, if_neg hcurrent]
    · intro front next back hparts
      exact h (part :: front) next back (by rw [hparts, List.cons_append])

private theorem resource?_linkChain_below (current : String) (front : List String) (part : String)
    (back : List String) :
    (linkChain isPrivate current (front ++ part :: back) r).resource?
        (Dotted.below current front) =
      some (r.linkedParent isPrivate (Dotted.below current front) part) := by
  induction front generalizing current r with
  | nil =>
    rw [List.nil_append, linkChain_cons, resource?_linkChain_of_ne]
    · rw [Dotted.below, List.foldl_nil, resource?_linkedTo, if_pos rfl]
    · intro front _ _ _
      exact Dotted.ne_below_cons current part front
  | cons next front ih =>
    -- the link at the top is put in above the resource that is looked at
    have hbelow : Dotted.below current (next :: front) ≠ current :=
      (Dotted.ne_below_cons current next front).symm
    have hparent : (r.linkedTo isPrivate current next).parent isPrivate
        (Dotted.below current (next :: front)) =
          r.parent isPrivate (Dotted.below current (next :: front)) := by
      rw [parent, resource?_linkedTo, if_neg hbelow, parent]
    have hrest := ih (r := r.linkedTo isPrivate current next) (current ++ "." ++ next)
    rw [List.cons_append, linkChain_cons]
    rw [linkedParent] at hrest ⊢
    rw [← hparent]
    exact hrest

end Chain

/-- A declaration that succeeds is of a name that is new. -/
theorem addResource_succeeds_iff :
    (∃ r', r.addResource info = .ok r') ↔
      validateName info.id = .ok () ∧ r.contains info.id = false := by
  rw [addResource]
  cases hvalid : validateName info.id with
  | error e => simp [bind, Except.bind]
  | ok =>
    cases hnew : r.contains info.id with
    | true => simp [bind, Except.bind, throw, throwThe, MonadExceptOf.throw]
    | false => simp [bind, Except.bind, pure, Except.pure]

theorem addResource_eq_ok (h : r.addResource info = .ok r') :
    r' = ensureChain info.id info.isPrivate
      ⟨r.entries.insert info.id ⟨info.completed, none⟩⟩ := by
  rw [addResource] at h
  obtain ⟨_, _, h⟩ := Except.bind_eq_ok.mp h
  split at h
  · cases h
  · exact (Except.ok.inj h).symm

/-- A declaration adds the resource and what is missing above it, and changes nothing else but the
links on the way down. -/
theorem extends_addResource (h : r.addResource info = .ok r') : r.Extends info r' := by
  obtain rfl := addResource_eq_ok h
  let start : Registry F := ⟨r.entries.insert info.id ⟨info.completed, none⟩⟩
  obtain ⟨first, rest, hparts⟩ := Dotted.exists_parts_eq_cons info.id
  have hchain : ensureChain info.id info.isPrivate start =
      linkChain info.isPrivate first rest start := by rw [ensureChain, hparts]
  have hheads {front back : List String} {part : String} (hrest : rest = front ++ part :: back) :
      Heads (Dotted.below first front ++ "." ++ part) info.id :=
    Dotted.heads_of_parts (hrest ▸ hparts)
  refine ⟨⟨info.completed.fields, ?_, info.find?_completed⟩, ?_, ?_⟩
  · show (ensureChain info.id info.isPrivate start).resource? info.id = _
    rw [hchain, resource?_linkChain_of_ne, resource?_insert, if_pos rfl, ← info.completed_eq]
    intro front part back hrest
    exact (hheads hrest).ne_of_below.symm
  · intro above part hpart hbelow
    obtain ⟨front, back, hrest, rfl⟩ := hbelow.exists_split hpart hparts
    refine ⟨start.linkedParent info.isPrivate (Dotted.below first front) part, ?_, ?_⟩
    · show (ensureChain info.id info.isPrivate start).resource? _ = _
      rw [hchain, hrest]
      exact resource?_linkChain_below info.isPrivate first front part back
    · have hparent : r.parent info.isPrivate (Dotted.below first front) =
          start.parent info.isPrivate (Dotted.below first front) := by
        rw [parent, parent, resource?_insert, if_neg hbelow.ne_of_below]
      rw [hparent]
      exact linked_linkedParent info.isPrivate start _ part
  · intro name hname
    show (ensureChain info.id info.isPrivate start).resource? name = _
    rw [hchain, resource?_linkChain_of_ne, resource?_insert, if_neg]
    · exact fun heq => hname (.inl heq.symm)
    · rintro front part back hrest rfl
      exact hname (hheads hrest).of_below

/-- Changes to a registry, of which the first stand if a later one fails. -/
abbrev Change (F : Type) := ExceptT ResourceError (StateM (Registry F))

/-- The links of a chain, put in one after the other. -/
def linking (isPrivate : Bool) (current : String) : List String → Change F Unit
  | [] => pure ()
  | part :: parts => do
    modify (linkedTo isPrivate current part)
    linking isPrivate (current ++ "." ++ part) parts

/-- A declaration as it is made: each check and each change in its turn. -/
def declaring (info : ResourceInfo) : Change F Unit := do
  ofExcept (validateName info.id)
  if (← get).contains info.id then throw (.duplicateResource info.id)
  modify fun r => ⟨r.entries.insert info.id ⟨info.completed, none⟩⟩
  match Dotted.parts info.id with
  | [] => pure ()
  | first :: parts => linking info.isPrivate first parts

section Run

variable {α β : Type} {x : Change F α} {f : α → Change F β}

theorem run_bind_of_ok {a : α} (h : x.run.run r = (.ok a, r')) :
    (x >>= f).run.run r = (f a).run.run r' := by
  rw [ExceptT.run_bind, StateT.run_bind, h]
  rfl

private theorem run_bind_of_error {e : ResourceError} (h : x.run.run r = (.error e, r')) :
    (x >>= f).run.run r = (.error e, r') := by
  rw [ExceptT.run_bind, StateT.run_bind, h]
  rfl

private theorem run_get : (get : Change F (Registry F)).run.run r = (.ok r, r) := rfl

theorem run_modify (change : Registry F → Registry F) :
    (modify change : Change F PUnit).run.run r = (.ok ⟨⟩, change r) := rfl

private theorem run_ofExcept (result : Except ResourceError α) :
    (ofExcept result : Change F α).run.run r = (result, r) := by
  cases result <;> rfl

end Run

private theorem run_linking (isPrivate : Bool) (current : String) (parts : List String)
    (r : Registry F) :
    (linking isPrivate current parts).run.run r =
      (.ok (), linkChain isPrivate current parts r) := by
  induction parts generalizing current r with
  | nil => rfl
  | cons part parts ih =>
    rw [linking, run_bind_of_ok (run_modify _), linkChain_cons]
    exact ih (current ++ "." ++ part) _

/-- Made step by step, a declaration comes to the same, and one that is refused to nothing. -/
theorem run_declaring (r : Registry F) (info : ResourceInfo) :
    (declaring info).run.run r =
      match r.addResource info with
      | .ok r' => (.ok (), r')
      | .error e => (.error e, r) := by
  rw [addResource, declaring]
  have hvalidate := run_ofExcept (r := r) (validateName info.id)
  cases hvalid : validateName info.id with
  | error e =>
    rw [hvalid] at hvalidate
    rw [run_bind_of_error hvalidate]
    rfl
  | ok =>
    rw [hvalid] at hvalidate
    rw [run_bind_of_ok hvalidate, run_bind_of_ok run_get]
    cases hnew : r.contains info.id with
    | true => rfl
    | false =>
      obtain ⟨first, parts, hparts⟩ := Dotted.exists_parts_eq_cons info.id
      simp only [Bool.false_eq_true, if_false]
      rw [run_bind_of_ok (run_modify _), hparts]
      simp only [run_linking, ensureChain, hparts]
      rfl

/-- A declaration is refused exactly if its name is not valid or not new, and then all is as it was.
Otherwise the resource is there, with what was missing above it, and nothing else has changed but
the links on the way down and what they make public. -/
theorem declaring_local {outcome : Except ResourceError Unit}
    (h : (declaring info).run.run r = (outcome, r')) :
    r.addResource info = outcome.map (fun _ => r') ∧
      (outcome = .ok () ↔ validateName info.id = .ok () ∧ r.contains info.id = false) ∧
      ((∃ e, outcome = .error e) → r' = r) ∧
      (outcome = .ok () → r.Extends info r') := by
  rw [run_declaring] at h
  rw [← addResource_succeeds_iff]
  cases hadd : r.addResource info with
  | error e =>
    rw [hadd] at h
    obtain ⟨rfl, rfl⟩ := Prod.mk.inj h
    refine ⟨rfl, ?_, fun _ => rfl, nofun⟩
    constructor
    · nofun
    · rintro ⟨_, hok⟩
      cases hok
  | ok declared =>
    rw [hadd] at h
    obtain ⟨rfl, rfl⟩ := Prod.mk.inj h
    refine ⟨rfl, ?_, nofun, fun _ => extends_addResource hadd⟩
    constructor
    · intro _
      exact ⟨declared, rfl⟩
    · intro _
      rfl

/-- A hidden system that is created in some way of its own, with a field for its name. -/
def systemRegistry : Registry Unit :=
  empty.serveAll [.declare { ResourceInfo.plain "os" with
      fields := .ofList [("name", .plain "name" .string)], isPrivate := true },
    .equip "os" ()]

/-- The parts of a disk of the system, each of a size. -/
def partsInfo : ResourceInfo :=
  { ResourceInfo.plain "os.disk.parts" with
    fields := .ofList [("size", .plain "" .int)], listType := some .string }

/-- The system becomes public and has a link to the disk, which comes about with its parts. It is
created as before. -/
theorem declaring_partsInfo :
    ∃ r', (declaring partsInfo).run.run systemRegistry = (.ok (), r') ∧
      systemRegistry.Extends partsInfo r' ∧
      ∃ system, r'.resource? "os" = some system ∧ system.factory = some () ∧
        (systemRegistry.resource? "os").map (·.info.isPrivate) = some true ∧
        system.info.isPrivate = false ∧
        system.info.fields.find? "disk" = some (linkField "disk" "os.disk" false) := by
  have hfound : (systemRegistry.parent partsInfo.isPrivate "os").factory = some () ∧
      (systemRegistry.resource? "os").map (·.info.isPrivate) = some true ∧
      (systemRegistry.parent partsInfo.isPrivate "os").info.fields.find? "disk" = none := by
    decide +kernel
  obtain ⟨hfactory, hhidden, hnone⟩ := hfound
  have hnew : systemRegistry.contains partsInfo.id = false := by decide +kernel
  obtain ⟨r', hadd⟩ := addResource_succeeds_iff.mpr ⟨rfl, hnew⟩
  have hrun : (declaring partsInfo).run.run systemRegistry = (.ok (), r') := by
    rw [run_declaring, hadd]
  obtain ⟨_, _, _, hextends⟩ := declaring_local hrun
  obtain ⟨system, hsystem, hlinked⟩ :=
    (hextends rfl).above "os" "disk" (by decide) (.inr ⟨"parts", rfl⟩)
  refine ⟨r', hrun, hextends rfl, system, hsystem, hlinked.factory.trans hfactory, hhidden, ?_,
    hlinked.gained hnone⟩
  rw [hlinked.info]
  simp [partsInfo, ResourceInfo.plain]

end Registry

end AssetQuery
