import AssetQuery.Proofs.Core.Isolation
import AssetQuery.Proofs.Eval.Upkeep
import AssetQuery.Proofs.Session.Step

/-!
# Commands are run once

A resource that can run a command has the command as its id. It is the only one that there is of
that id, and keeps the provider that it was made with, whose slot holds the output once the command
was run. So no command is run twice, whatever resources are made of it, however often its fields are
read and forgotten, and whichever codes are executed in between, by however many workers. None is
run where that may not be done.
-/

namespace AssetQuery

private theorem Session.commands_record_ran {σ : Type} (session : Session σ) (command : String) :
    (session.record (.ran command)).commands = session.commands ++ [command] := by
  simp [Session.commands, Session.record]

private theorem Session.commands_adopt {σ : Type} {session : Session σ} {key : Key}
    (inst : Instance σ) : (session.adopt key inst).commands = session.commands := by
  rw [Session.commands, Session.journal_adopt, Session.commands]

theorem Session.has_update {σ : Type} {session : Session σ} {key k : Key}
    {f : Instance σ → Instance σ} (hf : ∀ inst, (f inst).args = inst.args) :
    (session.update key f).Has k ↔ session.Has k := by
  rw [Session.Has, Session.args?_update hf, Session.Has]

namespace Core

open Setting (unameSetting)

variable {τ : Type}

/-- Whether a resource has the id that the provider of its name gives it. -/
def Identified (key : Key) (inst : Instance (Memory τ)) : Prop :=
  key.id = ((provider 0 key.name : Provider (Memory τ)).id inst.args).getD
    (defaultId key.name inst.args)

private theorem Identified.eq_of_command {key : Key} {inst : Instance (Memory τ)}
    (h : Identified key inst) (hname : key.name = "command") {command : String}
    (htext : text? inst.args "command" = some command) : key = ⟨"command", command⟩ := by
  obtain ⟨name, id⟩ := key
  obtain rfl : name = "command" := hname
  have hid : id = (text? inst.args "command").getD (defaultId "command" inst.args) := h
  rw [hid, htext]
  rfl

/-- Whether no command was run twice, or where none may be run, and each that was run is there as a
resource whose slot holds the output. -/
structure Thrifty (s : Setting (Memory τ)) (slotOf : Key → Nat) (session : Session (Memory τ)) :
    Prop where
  slots : Slotted slotOf session
  identified : ∀ key inst, session.instance? key = some inst → Identified key inst
  once : session.commands.Nodup
  served : ∀ command ∈ session.commands, session.Has ⟨"command", command⟩ ∧
    (session.memory.slots.output? (slotOf ⟨"command", command⟩)).isSome
  allowed : ∀ command ∈ session.commands, s.asset.has .runCommand

private theorem thrifty_new {s : Setting (Memory τ)} {slotOf : Key → Nat} (rest : τ) :
    Thrifty s slotOf (.new ⟨.empty, rest⟩) :=
  ⟨⟨nofun, nofun, nofun⟩, nofun, List.Pairwise.nil, nofun, nofun⟩

section Sessions

variable {s : Setting (Memory τ)} {slotOf : Key → Nat} {session : Session (Memory τ)} {key : Key}
  {inst : Instance (Memory τ)}

theorem Thrifty.record (h : Thrifty s slotOf session) {event : Event}
    (hcommands : (session.record event).commands = session.commands) :
    Thrifty s slotOf (session.record event) := by
  refine ⟨h.slots.congr rfl (Nat.le_refl _), h.identified, ?_, ?_, ?_⟩
  · exact hcommands ▸ h.once
  · rw [hcommands]
    exact h.served
  · exact hcommands ▸ h.allowed

theorem Thrifty.update (h : Thrifty s slotOf session)
    {f : Instance (Memory τ) → Instance (Memory τ)}
    (hargs : ∀ inst, (f inst).args = inst.args)
    (hprovider : ∀ inst, (f inst).provider = inst.provider) :
    Thrifty s slotOf (session.update key f) := by
  refine ⟨h.slots.update hprovider, fun k inst hinst => ?_, h.once, fun command hcommand => ?_,
    h.allowed⟩
  · rw [Session.instance?_update] at hinst
    split at hinst
    · obtain ⟨old, hold, rfl⟩ := Option.map_eq_some_iff.mp hinst
      rw [Identified, hargs]
      exact h.identified k old hold
    · exact h.identified k inst hinst
  · exact (h.served command hcommand).imp_left (Session.has_update hargs).mpr

private theorem Thrifty.withSlot (h : Thrifty s slotOf session) (name : String) :
    Thrifty s slotOf (withSlot name session) := by
  refine ⟨h.slots.withSlot name, ?_, ?_, ?_, ?_⟩
  · rw [instance?_withSlot]
    exact h.identified
  · rw [commands_withSlot]
    exact h.once
  · rw [commands_withSlot]
    intro command hcommand
    rw [output?_withSlot, Session.Has, args?_withSlot]
    exact h.served command hcommand
  · rw [commands_withSlot]
    exact h.allowed

private theorem Thrifty.created (h : Thrifty s slotOf session) {args : Dict Data}
    (hid : Identified key (.fresh args none : Instance (Memory τ))) :
    Thrifty s (placed slotOf session) (created key args session) := by
  have hcommands : (Core.created key args session).commands = session.commands := by
    rw [Core.created, Session.commands_adopt, commands_withSlot]
  refine ⟨h.slots.created key args, fun k inst hinst => ?_, ?_, ?_, ?_⟩
  · rw [instance?_created] at hinst
    rcases Option.or_eq_some_iff.mp hinst with hold | ⟨_, hnew⟩
    · exact h.identified k inst hold
    · split at hnew
      · next hk =>
        subst hk
        exact Option.some.inj hnew ▸ hid
      · cases hnew
  · exact hcommands ▸ h.once
  · rw [hcommands]
    intro command hcommand
    obtain ⟨hhas, houtput⟩ := h.served command hcommand
    rw [memory_created, output?_withSlot, placed_of_has hhas]
    exact ⟨extends_created.has hhas, houtput⟩
  · exact hcommands ▸ h.allowed

private theorem Thrifty.run (h : Thrifty s slotOf session) {command : String}
    (output : CommandOutput)
    (hallowed : s.asset.has .runCommand) (hhas : session.Has ⟨"command", command⟩)
    (hnew : session.memory.slots.output? (slotOf ⟨"command", command⟩) = none) :
    Thrifty s slotOf { session.record (.ran command) with
      memory := { session.memory with
        slots := session.memory.slots.fill (slotOf ⟨"command", command⟩) output } } := by
  have hnot : command ∉ session.commands := by
    intro hmem
    obtain ⟨_, hsome⟩ := h.served command hmem
    simp [hnew] at hsome
  have hcommands := session.commands_record_ran command
  refine ⟨h.slots.congr rfl (Nat.le_of_eq (Slots.next_fill _ _ _).symm), h.identified, ?_, ?_, ?_⟩
  · show (session.record (.ran command)).commands.Nodup
    rw [hcommands]
    refine List.nodup_append.mpr ⟨h.once, List.pairwise_singleton _ _, ?_⟩
    rintro other hother _ hlast rfl
    exact hnot (List.mem_singleton.mp hlast ▸ hother)
  · show ∀ other ∈ (session.record (.ran command)).commands, session.Has ⟨"command", other⟩ ∧ _
    rw [hcommands]
    intro other hother
    rw [Slots.output?_fill (h.slots.added command hhas)]
    rcases List.mem_append.mp hother with hother | hlast
    · obtain ⟨hthere, houtput⟩ := h.served other hother
      refine ⟨hthere, ?_⟩
      split
      · rfl
      · exact houtput
    · obtain rfl := List.mem_singleton.mp hlast
      rw [if_pos rfl]
      exact ⟨hhas, rfl⟩
  · intro _ _
    exact hallowed

variable {calls : Calls (Memory τ)} {args : Dict Data} {field : String}

private theorem output_thrifty (calls : Calls (Memory τ))
    (hid : ∀ command, text? args "command" = some command → key = ⟨"command", command⟩) :
    Work.Maintains (fun session => Thrifty s slotOf session ∧ session.Has key)
      ((output (slotOf key) args).perform s calls) := by
  rintro session ⟨h, hhas⟩
  rw [output, Script.perform, Work.run_get_bind]
  cases hfound : session.memory.slots.output? (slotOf key) with
  | some found => exact ⟨_, session, rfl, h, hhas⟩
  | none =>
    cases htext : text? args "command" with
    | none => exact ⟨_, session, rfl, h, hhas⟩
    | some command =>
      obtain rfl := hid command htext
      have hcommand := perform_command (s := s) calls session command
      cases hrequire : s.asset.require .runCommand with
      | error e =>
        rw [hrequire] at hcommand
        exact ⟨_, session, (Script.command command).perform_andThen_error hcommand, h, hhas⟩
      | ok done =>
        rw [hrequire] at hcommand
        have hallowed : s.asset.has .runCommand := by
          by_contra hnot
          simp [Asset.require, hnot] at hrequire
        exact ⟨_, _, (Script.command command).perform_andThen_ok hcommand,
          h.run _ hallowed hhas hfound, hhas⟩

private theorem provider_thrifty (calls : Calls (Memory τ)) (hid : Identified key inst)
    (field : String) : Work.Maintains (fun session => Thrifty s slotOf session ∧ session.Has key)
      (((provider (slotOf key) key.name).compute key inst.args field).perform s calls) := by
  by_cases hcommand : key.name = "command"
  · rw [hcommand]
    show Work.Maintains _
      (((output (slotOf key) inst.args).andThen fun output => _).perform s calls)
    rw [Script.perform_andThen]
    refine (output_thrifty calls fun _ => hid.eq_of_command hcommand).bind fun reply => ?_
    cases reply with
    | error cause => exact Work.maintains_pure _
    | ok output =>
      dsimp only
      split <;> exact Work.maintains_pure _
  · intro session h
    by_cases hfile : key.name = "file"
    · rw [hfile]
      exact ⟨_, session, perform_fileField calls field session key inst.args, h⟩
    · have hprovider : (provider (slotOf key) key.name : Provider (Memory τ)) =
          platformProvider := by
        rw [provider] <;> assumption
      rw [hprovider]
      exact ⟨_, session, rfl, h⟩

private theorem compute_thrifty (calls : Calls (Memory τ)) (hid : Identified key inst)
    (hprovider : inst.provider = some (provider (slotOf key) key.name)) (field : String)
    {declared : Field} (hplain : declared.isImplicit = false) :
    Work.Maintains (fun session => Thrifty s slotOf session ∧ session.Has key)
      (s.compute calls key inst field declared) := by
  rw [Setting.compute]
  cases inst.args.find? field with
  | some data => exact Work.maintains_pure _
  | none =>
    simp only [hplain, hprovider]
    refine (provider_thrifty calls hid field).bind fun reply => ?_
    cases reply <;> exact Work.maintains_pure _

private theorem Thrifty.concluded (h : Thrifty s slotOf session) (key : Key) (field : String)
    (result : Except ResourceError Data) :
    Thrifty s slotOf (s.concluded key field session result) := by
  have hfinished : Thrifty s slotOf (session.update key (·.finish field)) :=
    h.update (fun _ => rfl) fun _ => rfl
  cases result with
  | error e => exact hfinished.record rfl
  | ok data =>
    have hrecorded : Thrifty s slotOf ((session.update key (·.finish field)).record
        (.computed key field (some data))) := hfinished.record rfl
    simp only [Setting.concluded]
    split
    · exact hrecorded.update (fun _ => rfl) fun _ => rfl
    · exact hrecorded

private theorem readStep_thrifty (hregistry : s.registry = registry) (calls : Calls (Memory τ))
    (key : Key)
    (field : String) : Work.Maintains (Thrifty s slotOf) (s.readStep calls key field) := by
  intro session h
  cases hinst : session.instance? key with
  | none => exact ⟨_, _, Setting.readStep_eq_some.mpr (.missing hinst), h⟩
  | some inst =>
    cases hknown : inst.known? field with
    | some data =>
      exact ⟨_, _, Setting.readStep_eq_some.mpr (.answered hinst hknown), h.record rfl⟩
    | none =>
      by_cases hnew : field ∈ inst.computing
      · exact ⟨_, _, Setting.readStep_eq_some.mpr (.circular hinst hknown hnew), h⟩
      · cases hdeclared : s.registry.field? key.name field with
        | none =>
          exact ⟨_, _, Setting.readStep_eq_some.mpr (.undeclared hinst hknown hnew hdeclared), h⟩
        | some declared =>
          have hplain := registry_field_plain (hregistry ▸ hdeclared)
          have hbegun : Thrifty s slotOf (session.update key (·.begin field)) :=
            h.update (fun _ => rfl) fun _ => rfl
          have hhas : (session.update key (·.begin field)).Has key :=
            (Session.has_update (f := (·.begin field)) fun _ => rfl).mpr
              (Session.has_iff_instance?.mpr (Option.isSome_iff_exists.mpr ⟨inst, hinst⟩))
          obtain ⟨outcome, mid, hcompute, hmid, _⟩ := compute_thrifty calls
            (h.identified key inst hinst) (h.slots.provider key inst hinst) field hplain _
            ⟨hbegun, hhas⟩
          have hrun := Setting.computeField_eq_some.mpr ⟨outcome, mid, hcompute, rfl, rfl⟩
          exact ⟨_, _, Setting.readStep_eq_some.mpr (.computed hinst hknown hnew hdeclared hrun),
            hmid.concluded _ _ _⟩

private theorem createStep_thrifty (hregistry : s.registry = registry) (calls : Calls (Memory τ))
    (name : String) (args : Dict Data) :
    Work.Maintains (fun session => ∃ slotOf, Thrifty s slotOf session)
      (s.createStep calls name args) := by
  rintro session ⟨slotOf, h⟩
  rcases createStep_cases calls hregistry name args with ⟨e, hrun⟩ | ⟨key, made, _, hid, hrun⟩
  · exact ⟨_, _, hrun session, slotOf, h.withSlot name⟩
  · exact ⟨_, _, hrun session, _, h.created hid⟩

private theorem invalidate_thrifty (key : Key) (field : String) :
    Work.Maintains (Thrifty s slotOf) (s.invalidate key field) := by
  refine Work.maintains_modify fun session h => ?_
  have hupdated : Thrifty s slotOf (session.update key (·.invalidate field)) := by
    refine h.update (fun inst => ?_) fun inst => ?_
    · rw [Instance.invalidate]
      split <;> rfl
    · rw [Instance.invalidate]
      split <;> rfl
  exact hupdated.record rfl

private theorem maintains_thrifty (hregistry : s.registry = registry) :
    s.Maintains fun session => ∃ slotOf, Thrifty s slotOf session where
  create := createStep_thrifty hregistry _
  read key field := Work.maintains_exists fun _ => readStep_thrifty hregistry _ key field
  invalidate key field := Work.maintains_exists fun _ => invalidate_thrifty key field

end Sessions

/-- Whatever is done with a session about the core resources, it comes to an end, and so it does if
workers execute codes on it, whatever turns they have. By then no command was run twice, and none at
all if the asset does not let commands be run. -/
theorem useAll_runs_once {s : Setting (Memory τ)} (hregistry : s.registry = registry)
    (uses : List Use) (rest : τ) :
    ∃ session, s.useAll uses (.new ⟨.empty, rest⟩) = some ((), session) ∧
      session.commands.Nodup ∧ (s.asset.has .runCommand = false → session.commands = []) := by
  obtain ⟨_, session, hrun, _, hthrifty⟩ :=
    (maintains_thrifty hregistry).useAll uses _ ⟨fun _ => 0, thrifty_new rest⟩
  refine ⟨session, hrun, hthrifty.once, fun hnot => ?_⟩
  refine List.eq_nil_iff_forall_not_mem.mpr fun command hcommand => ?_
  have hallowed := hthrifty.allowed command hcommand
  rw [hnot] at hallowed
  cases hallowed

/-- What two commands print, of which one is asked for twice. -/
def bothQuery : List Expr :=
  let uname : Expr := .root "command" [⟨some "command", .literal (.string "uname")⟩]
  [.call uname "stdout" [], .call uname "exitcode" [],
    .call (.root "command" [⟨some "command", .literal (.string "id")⟩]) "stderr" []]

/-- Two commands, asked for by three workers at a time, of which one is made again, read and
forgotten in between. -/
def repeatedUses (code : Code) : List Use :=
  let uname : Key := ⟨"command", "uname"⟩
  let args : Dict Data := Dict.empty.insert "command" (.string "uname")
  [.execute [0, 1, 2, 0, 1, 2, 2, 2, 2, 1, 0, 1, 0] code .empty,
    .operate (.create "command" (args.insert "exitcode" (.int 3))),
    .operate (.invalidate uname "stdout"), .operate (.read uname "stdout"),
    .operate (.read uname "exitcode"), .execute [2, 2, 0] code .empty]

theorem useAll_repeatedUses :
    unameSetting.registry = registry ∧
      ∃ code session,
        Vocabulary.compile ⟨unameSetting.registry, .standard⟩ sha256Digest bothQuery = .ok code ∧
        unameSetting.useAll (repeatedUses code) (.new ⟨.empty, ()⟩) = some ((), session) ∧
        session.memory.slots.outputs.length = 7 ∧
        session.commands = ["id", "uname"] ∧ session.commands.Nodup := by
  have hseen : (Vocabulary.compile ⟨unameSetting.registry, .standard⟩ sha256Digest
      bothQuery).toOption.map (fun code =>
        (unameSetting.useAll (repeatedUses code) (.new ⟨.empty, ()⟩)).map fun o =>
          (o.2.memory.slots.outputs.length, o.2.commands)) =
      some (some (7, ["id", "uname"])) := by decide +kernel
  obtain ⟨code, hcode, hseen⟩ := Except.exists_of_toOption_map hseen
  obtain ⟨session, hrun, honce, _⟩ :=
    useAll_runs_once (s := unameSetting) rfl (repeatedUses code) ()
  rw [hrun] at hseen
  obtain ⟨hslots, hcommands⟩ := Prod.mk.inj (Option.some.inj hseen)
  exact ⟨rfl, code, session, hcode, hrun, hslots, hcommands, honce⟩

end Core

end AssetQuery
