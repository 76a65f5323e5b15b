import AssetQuery.Core.Factory
import AssetQuery.Proofs.Session.Sharing

/-!
# The slots of commands

Every command that is there has a provider with a slot which is no other command's. It keeps that
slot however often it is created again: the providers that are made then are not put in its place,
and their slots stay empty.
-/

namespace AssetQuery.Core

variable {τ : Type}

/-- The provider of a resource of some name, that of a command with a slot of its own. -/
def provider (slot : Nat) (name : String) : Provider (Memory τ) :=
  match name with
  | "command" => commandProvider slot
  | "file" => fileProvider
  | _ => platformProvider

theorem provider_id (slot : Nat) (name : String) :
    (provider slot name : Provider (Memory τ)).id = (provider 0 name : Provider (Memory τ)).id := by
  by_cases hcommand : name = "command"
  · rw [hcommand]
    rfl
  · by_cases hfile : name = "file"
    · rw [hfile]
      rfl
    · rw [provider, provider] <;> assumption

/-- A resource as its factory makes it, with a slot if it is a command. -/
def fresh (slot : Nat) (name : String) (args : Dict Data) : Instance (Memory τ) :=
  .fresh args (some (provider slot name))

/-- A session in which the factory of some name was at work. That of commands adds a slot. -/
def withSlot (name : String) (session : Session (Memory τ)) : Session (Memory τ) :=
  if name = "command" then
    { session with memory := { session.memory with slots := session.memory.slots.add } }
  else session

/-- A session in which a resource was created: it is the one that was there, or else one with the
slot that is added. -/
def created (key : Key) (args : Dict Data) (session : Session (Memory τ)) : Session (Memory τ) :=
  (withSlot key.name session).adopt key (fresh session.memory.slots.next key.name args)

/-- Whether every resource has the provider of its name, a command that of a slot which is no other
command's. -/
structure Slotted (slotOf : Key → Nat) (session : Session (Memory τ)) : Prop where
  provider : ∀ key inst, session.instance? key = some inst →
    inst.provider = some (provider (slotOf key) key.name)
  added : ∀ id, session.Has ⟨"command", id⟩ →
    slotOf ⟨"command", id⟩ < session.memory.slots.next
  apart : ∀ id other, session.Has ⟨"command", id⟩ → session.Has ⟨"command", other⟩ →
    slotOf ⟨"command", id⟩ = slotOf ⟨"command", other⟩ → id = other

/-- The slots of commands if one that is not there yet gets the slot that is added next. -/
def placed (slotOf : Key → Nat) (session : Session (Memory τ)) (key : Key) : Nat :=
  if (session.instance? key).isSome then slotOf key else session.memory.slots.next

variable {slotOf : Key → Nat} {session after : Session (Memory τ)} {key k : Key} {args : Dict Data}
  {name : String}

@[simp] theorem instance?_withSlot : (withSlot name session).instance? = session.instance? := by
  rw [withSlot]
  split <;> rfl

@[simp] theorem args?_withSlot : (withSlot name session).args? = session.args? := by
  rw [withSlot]
  split <;> rfl

@[simp] theorem commands_withSlot : (withSlot name session).commands = session.commands := by
  rw [withSlot]
  split <;> rfl

@[simp] theorem output?_withSlot (slot : Nat) :
    (withSlot name session).memory.slots.output? slot = session.memory.slots.output? slot := by
  rw [withSlot]
  split
  · exact Slots.output?_add _ _
  · rfl

private theorem next_withSlot_command :
    (withSlot "command" session).memory.slots.next = session.memory.slots.next + 1 :=
  Slots.next_add _

theorem next_le_withSlot :
    session.memory.slots.next ≤ (withSlot name session).memory.slots.next := by
  rw [withSlot]
  split
  · simp
  · exact Nat.le_refl _

theorem memory_created :
    (created key args session).memory = (withSlot key.name session).memory := by
  rw [created, Session.adopt]
  split <;> rfl

theorem instance?_created (k : Key) : (created key args session).instance? k =
    (session.instance? k).or
      (if k = key then some (fresh session.memory.slots.next key.name args) else none) := by
  rw [created, Session.instance?_adopt, instance?_withSlot]

theorem extends_created : session.Extends (created key args session) := by
  have hslot : session.Extends (withSlot key.name session) := .of_args?_eq args?_withSlot
  exact hslot.trans Session.extends_adopt

theorem has_created : (created key args session).Has key := Session.has_adopt

private theorem has_of_has_created (h : (created key args session).Has k) :
    session.Has k ∨ k = key := by
  rw [Session.has_iff_instance?, instance?_created, Option.isSome_or, Bool.or_eq_true] at h
  refine h.imp Session.has_iff_instance?.mpr fun hnew => ?_
  split at hnew
  · assumption
  · cases hnew

theorem placed_of_has (h : session.Has key) : placed slotOf session key = slotOf key :=
  if_pos (Session.has_iff_instance?.mp h)

theorem placed_of_not_has (h : ¬session.Has key) :
    placed slotOf session key = session.memory.slots.next :=
  if_neg (mt Session.has_iff_instance?.mpr h)

namespace Slotted

theorem of_instances (h : Slotted slotOf session)
    (hinstance : ∀ key inst, after.instance? key = some inst →
      ∃ old, session.instance? key = some old ∧ inst.provider = old.provider)
    (hnext : session.memory.slots.next ≤ after.memory.slots.next) : Slotted slotOf after := by
  have hhas (key : Key) (hkey : after.Has key) : session.Has key := by
    obtain ⟨inst, hinst⟩ := Option.isSome_iff_exists.mp (Session.has_iff_instance?.mp hkey)
    obtain ⟨old, hold, _⟩ := hinstance key inst hinst
    exact Session.has_iff_instance?.mpr (Option.isSome_iff_exists.mpr ⟨old, hold⟩)
  refine ⟨fun key inst hinst => ?_,
    fun id hid => Nat.lt_of_lt_of_le (h.added id (hhas _ hid)) hnext,
    fun id other hid hother => h.apart id other (hhas _ hid) (hhas _ hother)⟩
  obtain ⟨old, hold, hsame⟩ := hinstance key inst hinst
  rw [hsame, h.provider key old hold]

theorem congr (h : Slotted slotOf session) (hinstance : after.instance? = session.instance?)
    (hnext : session.memory.slots.next ≤ after.memory.slots.next) : Slotted slotOf after :=
  h.of_instances (fun _ inst hinst => ⟨inst, hinstance ▸ hinst, rfl⟩) hnext

theorem update (h : Slotted slotOf session) {f : Instance (Memory τ) → Instance (Memory τ)}
    (hf : ∀ inst, (f inst).provider = inst.provider) : Slotted slotOf (session.update key f) := by
  refine h.of_instances (fun k inst hinst => ?_) (Nat.le_refl _)
  rw [Session.instance?_update] at hinst
  split at hinst
  · obtain ⟨old, hold, rfl⟩ := Option.map_eq_some_iff.mp hinst
    exact ⟨old, hold, hf old⟩
  · exact ⟨inst, hinst, rfl⟩

theorem withSlot (h : Slotted slotOf session) (name : String) :
    Slotted slotOf (withSlot name session) := h.congr instance?_withSlot next_le_withSlot

/-- A resource that is there keeps its slot when it is created again, and one that is new gets a
slot of its own. -/
theorem created (h : Slotted slotOf session) (key : Key) (args : Dict Data) :
    Slotted (placed slotOf session) (created key args session) := by
  have hslot (id : String) (hid : (Core.created key args session).Has ⟨"command", id⟩)
      (hnew : ¬session.Has ⟨"command", id⟩) : key = ⟨"command", id⟩ :=
    ((has_of_has_created hid).resolve_left hnew).symm
  refine ⟨fun k inst hinst => ?_, fun id hid => ?_, fun id other hid hother hsame => ?_⟩
  · rw [instance?_created] at hinst
    rcases Option.or_eq_some_iff.mp hinst with hold | ⟨hnone, hnew⟩
    · rw [placed, if_pos (Option.isSome_iff_exists.mpr ⟨inst, hold⟩)]
      exact h.provider k inst hold
    · split at hnew
      · next hk =>
        subst hk
        rw [placed, hnone, ← Option.some.inj hnew]
        rfl
      · cases hnew
  · rw [memory_created]
    by_cases hold : session.Has ⟨"command", id⟩
    · rw [placed_of_has hold]
      exact Nat.lt_of_lt_of_le (h.added id hold) next_le_withSlot
    · obtain rfl := hslot id hid hold
      rw [placed_of_not_has hold, next_withSlot_command]
      exact Nat.lt_succ_self _
  · by_cases hold : session.Has ⟨"command", id⟩
    · by_cases hold' : session.Has ⟨"command", other⟩
      · rw [placed_of_has hold, placed_of_has hold'] at hsame
        exact h.apart id other hold hold' hsame
      · rw [placed_of_has hold, placed_of_not_has hold'] at hsame
        exact absurd hsame (Nat.ne_of_lt (h.added id hold))
    · by_cases hold' : session.Has ⟨"command", other⟩
      · rw [placed_of_not_has hold, placed_of_has hold'] at hsame
        exact absurd hsame.symm (Nat.ne_of_lt (h.added other hold'))
      · have hkey := (hslot id hid hold).symm.trans (hslot other hother hold')
        exact (Key.mk.inj hkey).2

end Slotted

end AssetQuery.Core
