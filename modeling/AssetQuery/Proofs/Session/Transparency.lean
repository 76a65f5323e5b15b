import AssetQuery.Proofs.Entries
import AssetQuery.Proofs.Session.Passing

/-!
# What is kept makes no difference

Where the fields of a resource pass on one another, a read comes to an end after whatever was done
before, and its reply is that of a first read.
-/

namespace AssetQuery

variable {σ : Type} {s : Setting σ} {calls : Calls σ} {key : Key} {args : Dict Data}
  {provider : Provider σ} {rule : String → FieldRule} {pending : List String} {f : String}

open Work (Keeps bind_eq_some run_bind)

private theorem Script.Follows.perform_ends {G : FieldGraph} {r : FieldRule}
    {script : Script σ Data} (h : script.Follows key r)
    (hcalls : ∀ f, Keeps (Session.Tracks key G args provider pending) (calls.read key f)
      (G.Meets pending f))
    (hread : ∀ f session, session.Tracks key G args provider pending →
      ∃ reply after, calls.read key f session = some (reply, after)) (session : Session σ)
    (hsession : session.Tracks key G args provider pending) :
    ∃ outcome after, script.perform s calls session = some (outcome, after) := by
  induction h generalizing session with
  | constant => exact ⟨_, session, rfl⟩
  | failing => exact ⟨_, session, rfl⟩
  | @passing field context next _ _ ihok iherror =>
    obtain ⟨reply, mid, hrun⟩ := hread field session hsession
    have hmid := (hcalls field session hsession reply mid hrun).1
    rw [perform, run_bind hrun]
    cases reply with
    | ok data => exact ihok data mid hmid
    | error e => exact iherror e mid hmid
  | load _ ih => exact ih session.memory session hsession
  | save _ ih => exact ih _ (hsession.congr rfl)
  | look _ ih => exact ih s.asset session hsession
  | run _ ih =>
    obtain ⟨reply, mid, hrun, hsame⟩ := s.runCommand_same _ session
    rw [perform, run_bind hrun]
    exact ih reply mid (hsession.congr (hsame key))

namespace Setting

private theorem readStep_ends (hpasses : s.Passes key args provider rule)
    (hcalls : calls.Track key (s.graph key rule) args provider) {session : Session σ}
    (hsession : session.Tracks key (s.graph key rule) args provider pending)
    (hread : ((s.graph key rule).typ? f).isSome → f ∉ pending → ∀ g session,
      session.Tracks key (s.graph key rule) args provider (f :: pending) →
        ∃ reply after, calls.read key g session = some (reply, after)) :
    ∃ reply after, s.readStep calls key f session = some (reply, after) := by
  obtain ⟨inst, hinst, htracks⟩ := hsession
  cases hknown : inst.known? f with
  | some data => exact ⟨_, _, readStep_eq_some.mpr (.answered hinst hknown)⟩
  | none =>
    by_cases hnew : f ∈ inst.computing
    · exact ⟨_, _, readStep_eq_some.mpr (.circular hinst hknown hnew)⟩
    · cases hdeclared : s.registry.field? key.name f with
      | none => exact ⟨_, _, readStep_eq_some.mpr (.undeclared hinst hknown hnew hdeclared)⟩
      | some declared =>
        have htyp : ((s.graph key rule).typ? f).isSome := by rw [typ?_graph hdeclared]; rfl
        have hbegun : (session.update key (·.begin f)).Tracks key (s.graph key rule) args provider
            (f :: pending) := by
          refine ⟨inst.begin f, ?_, htracks.begin htyp⟩
          rw [Session.instance?_update, if_pos rfl, hinst]
          rfl
        obtain ⟨outcome, mid, hperform⟩ := (hpasses.follows f declared hdeclared).perform_ends
          (hcalls.own (f :: pending)) (hread htyp (htracks.computing ▸ hnew)) _ hbegun
        have hcompute : s.compute calls key inst f declared (session.update key (·.begin f)) =
            some (outcome.map (·.filled declared.typ), mid) := by
          rw [compute_eq hpasses hdeclared htracks.args htracks.provider, hperform]
          rfl
        exact ⟨_, _, readStep_eq_some.mpr (.computed hinst hknown hnew hdeclared
          (computeField_eq_some.mpr ⟨_, _, hcompute, rfl, rfl⟩))⟩

/-- The fields that are being computed are different and declared, so that reads nest no deeper than
there are fields. -/
private theorem read_ends (hpasses : s.Passes key args provider rule) (fields : List String)
    (hfields : ∀ f, ((s.graph key rule).typ? f).isSome → f ∈ fields) (room : Nat) (f : String)
    {session : Session σ} (hsession : session.Tracks key (s.graph key rule) args provider pending)
    (hnodup : pending.Nodup) (hroom : fields.length ≤ room + pending.length) :
    ∃ reply after, (s.calls (room + 1)).read key f session = some (reply, after) := by
  have hlength {g : String} {pending : List String} {session : Session σ}
      (hsession : session.Tracks key (s.graph key rule) args provider pending)
      (hnodup : pending.Nodup) (hg : ((s.graph key rule).typ? g).isSome) (hnew : g ∉ pending) :
      pending.length + 1 ≤ fields.length := by
    obtain ⟨inst, _, htracks⟩ := hsession
    have hsubset : g :: pending ⊆ fields := by
      intro p hp
      rcases List.mem_cons.mp hp with rfl | hp
      · exact hfields p hg
      · exact hfields p (htracks.declared p hp)
    exact (List.subperm_of_subset (List.nodup_cons.mpr ⟨hnew, hnodup⟩) hsubset).length_le
  induction room generalizing pending f session with
  | zero =>
    refine readStep_ends hpasses (calls_track hpasses 0) hsession fun hf hnew => ?_
    have := hlength hsession hnodup hf hnew
    omega
  | succ room ih =>
    refine readStep_ends hpasses (calls_track hpasses (room + 1)) hsession
      fun hf hnew g session hbegun => ?_
    refine ih g hbegun (List.nodup_cons.mpr ⟨hnew, hnodup⟩) ?_
    rw [List.length_cons]
    omega

/-- There are no more fields to be computed than requests may nest. -/
theorem read_total (hpasses : s.Passes key args provider rule)
    (hroom : ∀ entry, s.registry.resource? key.name = some entry →
      entry.info.fields.size ≤ s.nesting) (f : String) {session : Session σ}
    (hsession : session.Tracks key (s.graph key rule) args provider []) :
    ∃ reply after, s.read key f session = some (reply, after) := by
  cases hresource : s.registry.resource? key.name with
  | none =>
    refine read_ends hpasses [] (fun f hf => ?_) s.nesting f hsession .nil (by simp)
    simp [graph, Registry.field?, hresource] at hf
  | some entry =>
    refine read_ends hpasses entry.info.fields.keys (fun f hf => ?_) s.nesting f
      hsession .nil (by simpa [Dict.keys, Dict.size] using hroom entry hresource)
    simp only [graph, Registry.field?, hresource, Option.isSome_map] at hf
    obtain ⟨declared, hdeclared⟩ := Option.isSome_iff_exists.mp hf
    exact List.mem_map_of_mem (Table.mem_of_lookup hdeclared)

private theorem read_answer (hpasses : s.Passes key args provider rule)
    (hf : (s.registry.field? key.name f).isSome) {session after : Session σ}
    (hsession : session.Tracks key (s.graph key rule) args provider [])
    {reply : Except ResourceError Data} (hrun : s.read key f session = some (reply, after)) :
    (s.graph key rule).Answer f reply := by
  cases ((calls_track hpasses (s.nesting + 1)).own [] f session hsession reply after hrun).2 with
  | undeclared hnone =>
    simp only [graph, Option.map_eq_none_iff] at hnone
    rw [hnone] at hf
    cases hf
  | ends hends => exact .ends hends
  | circle _ hwalk hnodup _ hmem => exact .circle hwalk hnodup (hmem.resolve_right List.not_mem_nil)

end Setting

/-- Whether an operation is a read or an invalidation of fields of a resource. -/
def Operation.Within (key : Key) : Operation → Prop
  | .create _ _ => False
  | .read k _ => k = key
  | .invalidate k _ => k = key

namespace Setting

private theorem operateAll_ends (hpasses : s.Passes key args provider rule)
    (hroom : ∀ entry, s.registry.resource? key.name = some entry →
      entry.info.fields.size ≤ s.nesting) {operations : List Operation}
    (hwithin : ∀ o ∈ operations, o.Within key) {session : Session σ}
    (hsession : session.Tracks key (s.graph key rule) args provider []) :
    ∃ mid, s.operateAll operations session = some ((), mid) := by
  induction operations generalizing session with
  | nil => exact ⟨session, rfl⟩
  | cons o rest ih =>
    have hrest {session : Session σ}
        (hsession : session.Tracks key (s.graph key rule) args provider []) :=
      ih (fun o ho => hwithin o (List.mem_cons_of_mem _ ho)) hsession
    have ho := hwithin o List.mem_cons_self
    cases o with
    | create => cases ho
    | read k g =>
      obtain rfl : k = key := ho
      obtain ⟨reply, mid, hrun⟩ := read_total hpasses hroom g hsession
      obtain ⟨last, hlast⟩ := hrest
        ((calls_track hpasses (s.nesting + 1)).own [] g session hsession reply mid hrun).1
      refine ⟨last, ?_⟩
      have hfirst : s.operate (.read k g) session = some ((), mid) := run_bind hrun
      exact (run_bind hfirst).trans hlast
    | invalidate k g => exact hrest (hsession.invalidate k g)

/-- A resource each of whose fields is a constant, fails, or passes on another is read as its graph
tells. Reads come to an end, and after whatever was done before, with or without keeping failures,
the reply is that of a first read. It is the only answer that the graph admits: the constant or the
failure that the field leads to, or else the first field that is met twice. No field on a way into a
circle is known afterwards, and the fields that are being computed are those that were before. -/
theorem read_transparent (hpasses : s.Passes key args provider rule)
    (hroom : ∀ entry, s.registry.resource? key.name = some entry →
      entry.info.fields.size ≤ s.nesting) {session : Session σ}
    (hinst : session.instance? key = some (.fresh args (some provider))) :
    (∀ operations : List Operation, (∀ o ∈ operations, o.Within key) →
      ∃ mid, s.operateAll operations session = some ((), mid)) ∧
    ∀ operations mid, s.operateAll operations session = some ((), mid) →
      ∀ f, (s.registry.field? key.name f).isSome →
        ∃ reply first after, s.read key f session = some (reply, first) ∧
          s.read key f mid = some (reply, after) ∧
          (s.graph key rule).Answer f reply ∧
          (∀ other, (s.graph key rule).Answer f other → other = reply) ∧
          (∀ path g, (s.graph key rule).Walk f path g → g ∈ path →
            ∀ p ∈ path, after.known? key p = none) ∧
          after.computing key = mid.computing key := by
  have hfresh : session.Tracks key (s.graph key rule) args provider [] := ⟨_, hinst, .fresh⟩
  refine ⟨fun operations hwithin => operateAll_ends hpasses hroom hwithin hfresh,
    fun operations mid hrun f hf => ?_⟩
  have hmid := (operateAll_tracks hpasses operations session hfresh _ _ hrun).1
  obtain ⟨reply, first, hfirst⟩ := read_total hpasses hroom f hfresh
  obtain ⟨reply', after, hafter⟩ := read_total hpasses hroom f hmid
  have hreply := read_answer hpasses hf hfresh hfirst
  obtain rfl : reply' = reply := (read_answer hpasses hf hmid hafter).unique hreply
  have hlast := ((calls_track hpasses (s.nesting + 1)).own [] f mid hmid _ _ hafter).1
  refine ⟨_, first, after, hfirst, hafter, hreply, fun _ hother => hother.unique hreply, ?_,
    hlast.computing.trans hmid.computing.symm⟩
  intro path g hwalk hg p hp
  obtain ⟨inst, hthere, htracks⟩ := hlast
  rw [Session.known?, hthere]
  cases hknown : inst.known? p with
  | none => exact hknown
  | some data => exact absurd (htracks.known p data hknown key.id) (hwalk.not_ends hg hp)

end Setting

/-- The script that does what a rule says. -/
def FieldRule.script (key : Key) : FieldRule → Script σ Data
  | constant data => .done data
  | failing cause => .fail cause
  | passing field context => .read key field fun reply =>
    match reply with
    | .ok data => .done data
    | .error e => .fail (e.passedOn context)

private theorem FieldRule.follows_script (key : Key) (r : FieldRule) :
    (r.script key : Script σ Data).Follows key r := by
  cases r with
  | constant data => exact .constant
  | failing cause => exact .failing
  | passing field context => exact .passing (fun _ => .constant) fun _ => .failing

/-- A provider whose fields follow rules. -/
def Provider.following (rule : String → FieldRule) : Provider σ where
  id _ := none
  compute key _ f := (rule f).script key

namespace Setting

/-- A setting with one kind of resource, whose fields follow rules. -/
def ruled (info : ResourceInfo) (rule : String → FieldRule) : Setting Unit where
  registry := ⟨.ofList [(info.id, ⟨info, some fun args => .done (args, some (.following rule))⟩)]⟩
  asset := default
  config := .default

def relayInfo : ResourceInfo :=
  { ResourceInfo.plain "relay" with
    fields := .ofList [("name", .plain "name" .string), ("alias", .plain "alias" .string),
      ("lost", .plain "lost" .string), ("report", .plain "report" .string),
      ("ping", .plain "ping" .string), ("pong", .plain "pong" .string)] }

/-- A name under an alias, a failure that is reported, and two fields that pass on each other. -/
def relayRule : String → FieldRule
  | "name" => .constant (.string "a")
  | "alias" => .passing "name" none
  | "lost" => .failing (.text "gone")
  | "report" => .passing "lost" (some "report")
  | "ping" => .passing "pong" none
  | _ => .passing "ping" none

def relayKey : Key := ⟨"relay", "relay"⟩

def relayGraph : FieldGraph := (ruled relayInfo relayRule).graph relayKey relayRule

def relayOperations : List Operation :=
  [.read relayKey "alias", .invalidate relayKey "name", .read relayKey "report",
    .read relayKey "ping", .invalidate relayKey "lost"]

private theorem passes_relay :
    (ruled relayInfo relayRule).Passes relayKey .empty (.following relayRule) relayRule where
  own f declared hdeclared := by
    have hmem : (f, declared) ∈ relayInfo.fields.entries := Table.mem_of_lookup hdeclared
    have hall : ∀ e ∈ relayInfo.fields.entries, e.2.isImplicit = false := by decide
    exact ⟨rfl, hall _ hmem⟩
  follows f _ _ := FieldRule.follows_script relayKey (relayRule f)

theorem read_transparent_relay :
    (ruled relayInfo relayRule).Passes relayKey .empty (.following relayRule) relayRule ∧
      (∀ entry, (ruled relayInfo relayRule).registry.resource? "relay" = some entry →
        entry.info.fields.size ≤ 3999) ∧
      ∃ session mid named reported circled,
        (ruled relayInfo relayRule).create "relay" .empty (.new ()) =
          some (.ok relayKey, session) ∧
        session.instance? relayKey = some (.fresh .empty (some (.following relayRule))) ∧
        (ruled relayInfo relayRule).operateAll relayOperations session = some ((), mid) ∧
        (ruled relayInfo relayRule).read relayKey "alias" mid =
          some (.ok (.string "a"), named) ∧
        (ruled relayInfo relayRule).read relayKey "report" mid =
          some (.error (.fieldComputation "relay" "report"
            "report: failed to compute field 'lost' of resource 'relay': gone"), reported) ∧
        (ruled relayInfo relayRule).read relayKey "ping" mid =
          some (.error (.cyclic "relay" "ping"), circled) ∧
        circled.known? relayKey "pong" = none := by
  have hroom : ∀ entry, (ruled relayInfo relayRule).registry.resource? "relay" = some entry →
      entry.info.fields.size ≤ 3999 := by
    rintro entry ⟨⟩
    decide
  obtain ⟨session, hcreate, hinst⟩ : ∃ session,
      (ruled relayInfo relayRule).create "relay" .empty (.new ()) = some (.ok relayKey, session) ∧
      session.instance? relayKey = some (.fresh .empty (some (.following relayRule))) :=
    ⟨_, rfl, rfl⟩
  obtain ⟨hown, hafter⟩ := read_transparent passes_relay hroom hinst
  have hwithin : ∀ o ∈ relayOperations, o.Within relayKey := by
    simp [relayOperations, Operation.Within]
  obtain ⟨mid, hmid⟩ := hown relayOperations hwithin
  have halias : relayGraph.Walk "alias" ["alias"] "name" := .on ⟨rfl, rfl, none, rfl⟩ (.here _)
  have hreport : relayGraph.Walk "report" ["report"] "lost" :=
    .on ⟨rfl, rfl, some "report", rfl⟩ (.here _)
  have hping : relayGraph.Walk "ping" ["ping", "pong"] "ping" :=
    .on ⟨rfl, rfl, none, rfl⟩ (.on ⟨rfl, rfl, none, rfl⟩ (.here _))
  obtain ⟨_, _, named, _, hnamed, _, hunique, _⟩ := hafter _ mid hmid "alias" rfl
  obtain rfl := hunique (.ok (.string "a")) (.ends ⟨_, _, .value (.string "a"), halias, rfl, rfl⟩)
  obtain ⟨_, _, reported, _, hreported, _, hunique, _⟩ := hafter _ mid hmid "report" rfl
  obtain rfl := hunique _ (.ends ⟨_, _, .failure "gone", hreport, rfl, rfl⟩)
  obtain ⟨_, _, circled, _, hcircled, _, hunique, hunknown, _⟩ := hafter _ mid hmid "ping" rfl
  obtain rfl := hunique _ (.circle hping (by decide) (by decide))
  exact ⟨passes_relay, hroom, session, mid, named, reported, circled, hcreate, hinst, hmid, hnamed,
    hreported, hcircled, hunknown _ _ hping (by decide) _ (by decide)⟩

def slotInfo : ResourceInfo :=
  { ResourceInfo.plain "slot" with
    fields := .ofList [("held", .plain "held" .string), ("told", .plain "told" .string)] }

/-- A constant without a value, and a failure that says that a field elsewhere depends on itself. -/
def slotRule : String → FieldRule
  | "held" => .constant .nil
  | _ => .failing (.resource (.cyclic "box" "lid"))

/-- A constant without a value is given the type of its field, and a failure that tells of a circle
is the error itself. -/
theorem read_slot :
    slotRule "held" = .constant .nil ∧
      slotRule "told" = .failing (.resource (.cyclic "box" "lid")) ∧
      ∃ session held told,
        (ruled slotInfo slotRule).create "slot" .empty (.new ()) =
          some (.ok ⟨"slot", "slot"⟩, session) ∧
        (ruled slotInfo slotRule).read ⟨"slot", "slot"⟩ "held" session =
          some (.ok (.of .nil .string), held) ∧
        Data.of .nil .string ≠ .nil ∧
        (ruled slotInfo slotRule).read ⟨"slot", "slot"⟩ "told" session =
          some (.error (.cyclic "box" "lid"), told) ∧
        ∀ cause, ResourceError.cyclic "box" "lid" ≠ .fieldComputation "slot" "told" cause := by
  refine ⟨rfl, rfl, _, _, _, rfl, rfl, ?_, rfl, nofun⟩
  intro h
  cases congrArg Data.typ h

end Setting

end AssetQuery
