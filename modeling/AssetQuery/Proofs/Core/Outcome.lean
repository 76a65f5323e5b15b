import AssetQuery.Proofs.Core.Honest
import AssetQuery.Proofs.Core.Slots
import AssetQuery.Proofs.Value.Resources

/-!
# What the core resources give

What the provider of a core resource computes is told by the asset and by what the resource was made
of, whatever is remembered of commands that were run. It holds no resources but those among the
arguments.
-/

namespace AssetQuery.Core

variable {τ : Type}

/-- What a command prints that is run. -/
def outputOf (asset : Asset) (args : Dict Data) : Except Failure CommandOutput :=
  match text? args "command" with
  | none => .error (.text "command must be a string")
  | some command =>
    match asset.require .runCommand with
    | .error e => .error (.resource e)
    | .ok () => .ok (asset.output command)

/-- A field of a command with some output. -/
def outputField (field : String) (output : CommandOutput) : Except Failure Data :=
  match field with
  | "stdout" => .ok (.string output.stdout)
  | "stderr" => .ok (.string output.stderr)
  | "exitcode" => .ok (.int (Int64.ofInt output.exitStatus.toInt))
  | _ => .error (.text s!"command has no field '{field}'")

/-- A field of the file at a path, whether or not it may be read. -/
def pathField (asset : Asset) (path field : String) : Except Failure Data :=
  match field with
  | "exists" => .ok (.bool (asset.files.contains path))
  | "content" => (asset.file path).map .string
  | _ => .error (.text s!"file has no field '{field}'")

/-- A field of a file. -/
def fileOutcome (asset : Asset) (args : Dict Data) (field : String) : Except Failure Data :=
  match text? args "path" with
  | none => .error (.text "path must be a string")
  | some path =>
    match asset.require .file with
    | .error e => .error (.resource e)
    | .ok () => pathField asset path field

/-- What a provider gives for a field of a resource that was made of some arguments. -/
def provided (asset : Asset) (name : String) (args : Dict Data) (field : String) :
    Except Failure Data :=
  match name with
  | "command" => outputOf asset args >>= outputField field
  | "file" => fileOutcome asset args field
  | _ => .error (.text s!"platform field '{field}' was not initialized")

/-- Whether the slots of commands are filled with nothing but their outputs. -/
def Recalls (asset : Asset) (slotOf : Key → Nat) (session : Session (Memory τ)) : Prop :=
  ∀ id args output, session.args? ⟨"command", id⟩ = some args →
    session.memory.slots.output? (slotOf ⟨"command", id⟩) = some output →
      outputOf asset args = .ok output

section Filled

variable {asset : Asset} {slotOf : Key → Nat} {session after : Session (Memory τ)} {id : String}
  {args : Dict Data} {output : CommandOutput}

theorem Recalls.congr (h : Recalls asset slotOf session) (hmemory : after.memory = session.memory)
    (hargs : after.args? = session.args?) : Recalls asset slotOf after := by
  intro id args output
  rw [hmemory, hargs]
  exact h id args output

private theorem Recalls.fill (h : Recalls asset slotOf session) (hslots : Slotted slotOf session)
    (hargs : session.args? ⟨"command", id⟩ = some args)
    (houtput : outputOf asset args = .ok output) :
    Recalls asset slotOf { session with
      memory := { session.memory with
        slots := session.memory.slots.fill (slotOf ⟨"command", id⟩) output } } := by
  have hid : session.Has ⟨"command", id⟩ := Option.isSome_iff_exists.mpr ⟨args, hargs⟩
  intro other others found hothers hfound
  have hother : session.Has ⟨"command", other⟩ := Option.isSome_iff_exists.mpr ⟨others, hothers⟩
  rw [Slots.output?_fill (hslots.added id hid)] at hfound
  split at hfound
  · next hslot =>
    obtain rfl := hslots.apart other id hother hid hslot
    obtain rfl := Option.some.inj (hargs.symm.trans hothers)
    exact Option.some.inj hfound ▸ houtput
  · exact h other others found hothers hfound

end Filled

section Providers

variable {s : Setting (Memory τ)} {slotOf : Key → Nat} {session : Session (Memory τ)} {key : Key}
  {args : Dict Data} (calls : Calls (Memory τ)) (field : String)

structure Leaves (s : Setting (Memory τ)) (slotOf : Key → Nat)
    (session after : Session (Memory τ)) : Prop where
  instances : after.instances = session.instances
  next : after.memory.slots.next = session.memory.slots.next
  recalls : Recalls s.asset slotOf after

theorem perform_command (session : Session (Memory τ)) (command : String) :
    (Script.command command).perform s calls session =
      match s.asset.require .runCommand with
      | .error e => some (.error (.resource e), session)
      | .ok () => some (.ok (s.asset.output command), session.record (.ran command)) := by
  show ((s.runCommand command) session).bind _ = _
  rw [Setting.runCommand]
  cases s.asset.require .runCommand <;> rfl

private theorem perform_output (hrecalls : Recalls s.asset slotOf session)
    (hslots : Slotted slotOf session)
    (hname : key.name = "command") (hargs : session.args? key = some args) :
    ∃ after, (output (slotOf key) args).perform s calls session =
        some (outputOf s.asset args, after) ∧ Leaves s slotOf session after := by
  obtain ⟨name, id⟩ := key
  obtain rfl : name = "command" := hname
  rw [output, Script.perform, Work.run_get_bind]
  cases hfound : session.memory.slots.output? (slotOf ⟨"command", id⟩) with
  | some found =>
    rw [hrecalls id args found hargs hfound]
    exact ⟨session, rfl, rfl, rfl, hrecalls⟩
  | none =>
    cases htext : text? args "command" with
    | none => exact ⟨session, by rw [outputOf, htext]; rfl, rfl, rfl, hrecalls⟩
    | some command =>
      have hcommand := perform_command (s := s) calls session command
      cases hrequire : s.asset.require .runCommand with
      | error e =>
        rw [hrequire] at hcommand
        have houtput : outputOf s.asset args = .error (.resource e) := by
          simp only [outputOf, htext, hrequire]
        rw [houtput]
        exact ⟨session, (Script.command command).perform_andThen_error hcommand, rfl, rfl, hrecalls⟩
      | ok done =>
        rw [hrequire] at hcommand
        have houtput : outputOf s.asset args = .ok (s.asset.output command) := by
          simp only [outputOf, htext, hrequire]
        rw [houtput]
        exact ⟨_, (Script.command command).perform_andThen_ok hcommand, rfl,
          Slots.next_fill _ _ _, hrecalls.fill hslots hargs houtput⟩

private theorem perform_commandField (hrecalls : Recalls s.asset slotOf session)
    (hslots : Slotted slotOf session) (hname : key.name = "command")
    (hargs : session.args? key = some args) :
    ∃ after, (commandField (slotOf key) args field).perform s calls session =
      some (outputOf s.asset args >>= outputField field, after) ∧
        Leaves s slotOf session after := by
  obtain ⟨after, hrun, hleaves⟩ := perform_output calls hrecalls hslots hname hargs
  cases houtput : outputOf s.asset args with
  | error cause =>
    rw [houtput] at hrun
    exact ⟨after, (output _ args).perform_andThen_error hrun, hleaves⟩
  | ok output =>
    rw [houtput] at hrun
    refine ⟨after, ((Core.output _ args).perform_andThen_ok hrun).trans ?_, hleaves⟩
    show _ = some (outputField field output, after)
    split
    · rfl
    · rfl
    · rfl
    · rw [outputField] <;> first | rfl | assumption

private theorem perform_hasFile (session : Session (Memory τ)) (path : String) :
    (Script.hasFile path).perform s calls session =
      match s.asset.require .file with
      | .error e => some (.error (.resource e), session)
      | .ok () => some (.ok (s.asset.files.contains path), session) := by
  show Script.perform s calls (Script.expect (s.asset.require .file) >>= _) session = _
  cases s.asset.require .file <;> rfl

private theorem perform_contentOf (session : Session (Memory τ)) (path : String)
    (h : s.asset.require .file = .ok ()) :
    (Script.contentOf path).perform s calls session = some (s.asset.file path, session) := by
  show Script.perform s calls (Script.expect (s.asset.require .file) >>= _) session = _
  rw [h]
  cases s.asset.file path <;> rfl

theorem perform_fileField (session : Session (Memory τ)) (key : Key) (args : Dict Data) :
    (fileField key args field).perform s calls session =
      some (fileOutcome s.asset args field, session) := by
  rw [fileField, fileOutcome]
  cases text? args "path" with
  | none => rfl
  | some path =>
    have hfound := perform_hasFile (s := s) calls session path
    dsimp only
    cases hrequire : s.asset.require .file with
    | error e =>
      rw [hrequire] at hfound
      exact (Script.hasFile path).perform_andThen_error hfound
    | ok done =>
      rw [hrequire] at hfound
      refine ((Script.hasFile path).perform_andThen_ok hfound).trans ?_
      dsimp only
      split
      · rfl
      · have hcontent := perform_contentOf calls session path hrequire
        show _ = some ((s.asset.file path).map Data.string, session)
        cases hfile : s.asset.file path with
        | ok content =>
          rw [hfile] at hcontent
          exact (Script.contentOf path).perform_andThen_ok hcontent
        | error cause =>
          rw [hfile] at hcontent
          exact (Script.contentOf path).perform_andThen_error hcontent
      · rw [pathField] <;> first | rfl | assumption

/-- What the provider of a resource computes is what it gives, whatever was done before. -/
theorem perform_provider (hrecalls : Recalls s.asset slotOf session)
    (hslots : Slotted slotOf session) (hargs : session.args? key = some args) :
    ∃ after, ((provider (slotOf key) key.name).compute key args field).perform s calls session =
      some (provided s.asset key.name args field, after) ∧ Leaves s slotOf session after := by
  by_cases hcommand : key.name = "command"
  · rw [hcommand]
    exact perform_commandField calls field hrecalls hslots hcommand hargs
  · by_cases hfile : key.name = "file"
    · rw [hfile]
      exact ⟨session, perform_fileField calls field session key args, rfl, rfl, hrecalls⟩
    · have hprovider : (provider (slotOf key) key.name : Provider (Memory τ)) =
          platformProvider := by
        rw [provider] <;> assumption
      refine ⟨session, ?_, rfl, rfl, hrecalls⟩
      rw [hprovider, provided] <;> first | rfl | assumption

end Providers

/-- What comes of computing a field of a resource that was made of some arguments. -/
def outcome (asset : Asset) (name : String) (args : Dict Data) (field : String)
    (declared : Field) : Except Failure Data :=
  match args.find? field with
  | some data =>
    .ok <| if !data.value.isNil && data.typ.containsAny then { data with typ := declared.typ }
      else data
  | none => (provided asset name args field).map fun data =>
    if data.value.isNil && data.error.isNone then { data with typ := declared.typ } else data

/-- What is to be kept of a field of a resource, or the circle it depends on itself by. -/
def kept (asset : Asset) (name : String) (args : Dict Data) (field : String) (declared : Field) :
    Except ResourceError Data :=
  Setting.settled declared.typ (outcome asset name args field declared)

/-- The reply to reading a field of a resource that was made of some arguments. -/
def replyTo (s : Setting (Memory τ)) (key : Key) (args : Dict Data) (field : String) :
    Except ResourceError Data :=
  match s.registry.field? key.name field with
  | none => .error (.unknownField key.name field)
  | some declared => kept s.asset key.name args field declared >>= fieldResult key field

section Values

variable {known : Key → Prop} {asset : Asset} {name field : String} {args : Dict Data}
  {declared : Field} {data : Data}

private theorem outputField_refers {output : CommandOutput}
    (h : outputField field output = .ok data) : data.value.Refers known := by
  unfold outputField at h
  split at h
  · exact Except.ok.inj h ▸ Value.refers_string
  · exact Except.ok.inj h ▸ Value.refers_string
  · exact Except.ok.inj h ▸ Value.refers_int
  · cases h

private theorem pathField_refers {path : String} (h : pathField asset path field = .ok data) :
    data.value.Refers known := by
  unfold pathField at h
  split at h
  · exact Except.ok.inj h ▸ Value.refers_bool
  · cases hfile : asset.file path with
    | ok content =>
      rw [hfile] at h
      exact Except.ok.inj h ▸ Value.refers_string
    | error cause =>
      rw [hfile] at h
      cases h
  · cases h

private theorem provided_refers (h : provided asset name args field = .ok data) :
    data.value.Refers known := by
  unfold provided at h
  split at h
  · obtain ⟨output, _, h⟩ := Except.bind_eq_ok.mp h
    exact outputField_refers h
  · rw [fileOutcome] at h
    split at h
    · cases h
    · split at h
      · cases h
      · exact pathField_refers h
  · cases h

private theorem outcome_refers (hargs : args.Refers known)
    (h : outcome asset name args field declared = .ok data) : data.value.Refers known := by
  rw [outcome] at h
  split at h
  · next found hfound =>
    obtain rfl := Except.ok.inj h
    have hvalue := hargs.find? hfound
    split <;> exact hvalue
  · cases hprovided : provided asset name args field with
    | error cause =>
      rw [hprovided] at h
      cases h
    | ok found =>
      rw [hprovided] at h
      obtain rfl := Except.ok.inj h
      have hvalue : found.value.Refers known := provided_refers hprovided
      dsimp only
      split <;> exact hvalue

private theorem settled_refers {t : Ty} {outcome : Except Failure Data}
    (houtcome : ∀ found, outcome = .ok found → found.value.Refers known)
    (h : Setting.settled t outcome = .ok data) : data.value.Refers known := by
  cases outcome with
  | ok found =>
    have hvalue := houtcome found rfl
    obtain rfl := Except.ok.inj h
    split <;> exact hvalue
  | error cause =>
    rw [Setting.settled] at h
    split at h
    · cases h
    · exact Except.ok.inj h ▸ Value.refers_nil

theorem replyTo_refers {s : Setting (Memory τ)} {key : Key} (hargs : args.Refers known)
    (h : replyTo s key args field = .ok data) : data.value.Refers known := by
  rw [replyTo] at h
  split at h
  · cases h
  · obtain ⟨found, hfound, h⟩ := Except.bind_eq_ok.mp h
    rw [fieldResult] at h
    split at h
    · cases h
    · obtain rfl := Except.ok.inj h
      exact settled_refers (fun _ => outcome_refers hargs) hfound

theorem platformArgs_refers (p : Platform) (h : args.Refers known) :
    (platformArgs p args).Refers known := by
  have hfamily : (Value.array (p.family.map .string)).Refers known :=
    Value.refers_array_iff.mpr (List.forall_mem_map.mpr fun _ _ => Value.refers_string)
  have htext {args : Dict Data} (name text : String) (h : args.Refers known) :
      (args.insert name (.string text)).Refers known := h.insert Value.refers_string
  exact (htext _ _ (htext _ _ (htext _ _ (htext _ _ (htext _ _ (htext _ _ h)))))).insert hfamily

end Values

end AssetQuery.Core
