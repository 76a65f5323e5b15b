import AssetQuery.Proofs.Core.Honest

/-!
# Queries on resources

What compilation tells of the chunks of a query is what execution finds, where the registry leaves
nothing open and factories and providers give what is declared.
-/

namespace AssetQuery.Setting

variable {σ : Type} {digest : Digest} {code : Code}

/-- In the execution of a compiled query, all data is of the types that the chunks were given, and
no chunk fails because a function, a chunk or the element of a block is missing. -/
theorem trace_agrees {s : Setting σ} {query : List Expr}
    (hsize : 2 * Expr.bodySize query < 2 ^ 31)
    (hcompile : Vocabulary.compile ⟨s.registry, .standard⟩ digest query = .ok code)
    (hregular : s.registry.Regular) {valid : σ → Prop} (hhonest : s.Honest valid)
    {session after : Session σ} (hsession : session.Holds s.registry valid)
    {answers : List (Ref × Answer)}
    (hrun : s.execute code .empty session = some (answers, after)) :
    after.Holds s.registry valid ∧
      ∃ visits, s.trace code .empty session = some ((answers, after), visits) ∧
        ∀ v ∈ visits,
          (∀ data, v.outcome = .ok data →
            data.typ.compatible (v.frame.code.chunkType v.r) ∧ data.value.Conforms data.typ) ∧
          ∀ e, v.outcome = .error e → e.isDangling = false := by
  rw [← trace_erased] at hrun
  obtain ⟨⟨_, visits⟩, htrace, rfl⟩ := Option.map_eq_some_iff.mp hrun
  have hquery : ∀ e ∈ query, True ∨ e.rootless := fun _ _ => .inl trivial
  have hserves : True → s.Serves s.registry (Session.Holds s.registry valid) :=
    fun _ => hhonest.serves hregular
  obtain ⟨hafter, hsound⟩ :=
    visits_sound hquery hsize hcompile (fun _ => hregular) hserves hsession htrace
  refine ⟨hafter, visits, htrace, fun v hv => ⟨fun data hdata => ?_, fun e he => ?_⟩⟩
  · have hv := hsound v hv
    rw [Visit.Sound, hdata] at hv
    exact ⟨Ty.compatible_of_fits hv.within.typ, hv.within.value⟩
  · have hv := hsound v hv
    rw [Visit.Sound, he] at hv
    exact hv.present

/-- How long the name of a system is, as a command of it prints it. -/
def unameQuery : List Expr :=
  [.call (.call (.root "command" [⟨some "command", .literal (.string "uname")⟩]) "stdout" [])
    "length" []]

/-- An asset whose only command prints the name of its system. -/
def unameSetting : Setting (Core.Memory Unit) where
  registry := Core.registry
  asset := ⟨default, .ofList [("uname", .printed "Linux")], .empty, [.runCommand]⟩
  config := .default

theorem trace_unameQuery :
    2 * Expr.bodySize unameQuery < 2 ^ 31 ∧ unameSetting.registry.Regular ∧
      unameSetting.Honest (fun _ => True) ∧
      ∃ code answers after visits,
        Vocabulary.compile ⟨unameSetting.registry, .standard⟩ (fun _ => "") unameQuery = .ok code ∧
        unameSetting.trace code .empty (.new ⟨.empty, ()⟩) = some ((answers, after), visits) ∧
        after.commands = ["uname"] ∧ visits.head?.map (·.outcome) = some (.ok (.int 5)) ∧
        ∀ v ∈ visits, ∀ data, v.outcome = .ok data →
          data.typ.compatible (v.frame.code.chunkType v.r) := by
  have hsize : Expr.bodySize unameQuery = 4 := rfl
  have hregular : unameSetting.registry.Regular := Core.registry_regular
  have hhonest : unameSetting.Honest (fun _ => True) := Core.honest rfl fun _ => trivial
  have hlast : (Vocabulary.compile ⟨unameSetting.registry, .standard⟩ (fun _ => "")
      unameQuery).toOption.map (fun code =>
        (unameSetting.trace code .empty (.new ⟨.empty, ()⟩)).map fun o =>
          (o.1.2.commands, o.2.head?.map (·.outcome))) =
      some (some (["uname"], some (.ok (.int 5)))) := rfl
  obtain ⟨code, hcode, hlast⟩ := Except.exists_of_toOption_map hlast
  obtain ⟨⟨⟨answers, after⟩, visits⟩, htrace, hpair⟩ := Option.map_eq_some_iff.mp hlast
  obtain ⟨hcommands, hhead⟩ := Prod.mk.inj hpair
  have hrun : unameSetting.execute code .empty (.new ⟨.empty, ()⟩) = some (answers, after) := by
    rw [← trace_erased]
    exact Option.map_eq_some_iff.mpr ⟨_, htrace, rfl⟩
  obtain ⟨_, found, hfound, hall⟩ := trace_agrees (by omega) hcode hregular hhonest
    (Session.holds_new trivial) hrun
  obtain rfl := (Prod.mk.inj (Option.some.inj (htrace.symm.trans hfound))).2
  exact ⟨by omega, hregular, hhonest, code, answers, after, visits, hcode, htrace, hcommands, hhead,
    fun v hv data hdata => ((hall v hv).1 data hdata).1⟩

/-- A resource that holds a list, of whose items nothing is declared. -/
def boxInfo : ResourceInfo :=
  { ResourceInfo.plain "box" with
    fields := .ofList [("held", .plain "held" .arrayLike)] }

/-- A box that holds texts. -/
def boxFactory : Factory Unit := fun args =>
  .done (args, some ⟨fun _ => none,
    fun _ _ _ => .done (.of (.array [.string "ab"]) (.array .string))⟩)

def boxSetting : Setting Unit where
  registry := ((Registry.empty.addResource boxInfo).bind
    (·.addFactory "box" boxFactory)).toOption.getD .empty
  asset := default
  config := .default

/-- What is in a box, as far as its first part is true. -/
def heldQuery : List Expr :=
  [.call (.call (.root "box" []) "held" []) "where"
    [⟨none, .block [.call .element "[]" [⟨none, .literal (.int 0)⟩]]⟩]]

/-- In a list that is declared without its items, an item is compiled as a list itself. It need not
be one, and then has no parts, though its list is what is declared. -/
theorem trace_heldQuery :
    (boxSetting.registry.field? "box" "held").map (·.typ) = some .arrayLike ∧
      (Ty.array .string).compatible .arrayLike ∧
      ∃ code result visits,
        Vocabulary.compile ⟨boxSetting.registry, .standard⟩ (fun _ => "") heldQuery = .ok code ∧
        boxSetting.trace code .empty (.new ()) = some (result, visits) ∧
        ∃ v ∈ visits, v.outcome = .error (.unknownFunction "[]" .string) := by
  have hlast : (Vocabulary.compile ⟨boxSetting.registry, .standard⟩ (fun _ => "")
      heldQuery).toOption.map (fun code =>
        (boxSetting.trace code .empty (.new ())).bind fun o => o.2.head?.map (·.outcome)) =
      some (some (.error (.unknownFunction "[]" .string))) := rfl
  refine ⟨rfl, rfl, ?_⟩
  obtain ⟨code, hcode, hlast⟩ := Except.exists_of_toOption_map hlast
  obtain ⟨⟨result, visits⟩, htrace, hlast⟩ := Option.bind_eq_some_iff.mp hlast
  obtain ⟨v, hv, hfailed⟩ := Option.map_eq_some_iff.mp hlast
  exact ⟨code, result, visits, hcode, htrace, v, List.mem_of_head? hv, hfailed⟩

end AssetQuery.Setting
