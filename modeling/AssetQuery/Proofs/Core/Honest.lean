import AssetQuery.Core.Factory
import AssetQuery.Proofs.Session.Honest

/-!
# The core resources are honest

What commands, files and the platform are declared to give, their factories give.
-/

namespace AssetQuery.Core

variable {τ : Type}

private theorem registry_entries : (registry : Registry (Factory (Memory τ))).entries.entries =
    [("command", ⟨commandInfo.completed, some commandFactory⟩),
      ("file", ⟨fileInfo.completed, some fun args => .done (args, some fileProvider)⟩),
      ("platform", ⟨platformInfo.completed, some platformFactory⟩)] := rfl

theorem mem_registry {name : String} {entry : ResourceEntry (Factory (Memory τ))}
    (h : registry.resource? name = some entry) : (name, entry) ∈ [
      ("command", ⟨commandInfo.completed, some commandFactory⟩),
      ("file", ⟨fileInfo.completed, some fun args => .done (args, some fileProvider)⟩),
      ("platform", ⟨platformInfo.completed, some platformFactory⟩)] := by
  rw [← registry_entries]
  exact Table.mem_of_lookup h

private theorem regular_infos :
    ∀ e ∈ schema.resources.entries, e.2.id.isEmpty = false ∧ e.2.completed.listType = none ∧
      ∀ f ∈ e.2.completed.fields.entries, f.2.typ.isDefinite ∧ f.2.isImplicit = false := by
  decide

theorem registry_regular : (registry : Registry (Factory (Memory τ))).Regular := by
  have hschema :
      ((Registry.empty : Registry (Factory (Memory τ))).loadSchema schema).1.Regular := by
    refine Registry.regular_empty.addResources fun info hinfo => ?_
    obtain ⟨e, he, rfl⟩ := List.mem_map.mp hinfo
    obtain ⟨hid, hlist, hfields⟩ := regular_infos e he
    rw [if_neg (by simp [hid])]
    exact ResourceInfo.regular_of_fields hlist hfields
  rw [registry]
  generalize factories = made
  generalize ((Registry.empty : Registry (Factory (Memory τ))).loadSchema schema).1 = declared
    at hschema
  induction made generalizing declared with
  | nil => exact hschema
  | cons first rest ih =>
    refine ih _ ?_
    dsimp only
    cases hadd : declared.addFactory first.1 first.2 with
    | error e => exact hschema
    | ok more => exact hschema.addFactory hadd

section Providers

variable {F : Type} {declares : Registry F} {valid : Memory τ → Prop}

private theorem output_honest (hvalid : ∀ memory, valid memory) (slot : Nat) (args : Dict Data) :
    (output slot args).Honest declares valid fun _ => True := by
  intro memory _
  dsimp only
  split
  · trivial
  · refine (Script.honest_orFail _ _).andThen fun command _ => ?_
    have hrun : (Script.command command).Honest declares valid fun _ => True :=
      fun reply => Script.honest_expect reply
    exact hrun.andThen fun output _ => ⟨hvalid _, trivial⟩

private theorem commandProvider_honest (hvalid : ∀ memory, valid memory) (slot : Nat) :
    (commandProvider slot).Honest (registry : Registry (Factory (Memory τ))) valid "command" := by
  intro key args field declared _ _ hdeclared
  refine (output_honest hvalid slot args).andThen fun output _ => ?_
  split
  · obtain rfl := Option.some.inj hdeclared
    exact .inl (Data.within_of .string)
  · obtain rfl := Option.some.inj hdeclared
    exact .inl (Data.within_of .string)
  · obtain rfl := Option.some.inj hdeclared
    exact .inl (Data.within_of .int)
  · trivial

private theorem fileProvider_honest :
    fileProvider.Honest (registry : Registry (Factory (Memory τ))) valid "file" := by
  intro key args field declared _ _ hdeclared
  refine (Script.honest_orFail _ _).andThen fun path _ => ?_
  have hfound : (Script.hasFile path).Honest (registry : Registry (Factory (Memory τ))) valid
      fun _ => True := fun asset => (Script.honest_expect _).andThen fun _ _ => trivial
  refine hfound.andThen fun found _ => ?_
  split
  · obtain rfl := Option.some.inj hdeclared
    exact .inl (Data.within_of .bool)
  · have hcontent : (Script.contentOf path).Honest (registry : Registry (Factory (Memory τ))) valid
        fun _ => True := by
      intro asset
      refine (Script.honest_expect _).andThen fun _ _ => ?_
      split
      · trivial
      · trivial
    refine hcontent.andThen fun content _ => ?_
    obtain rfl := Option.some.inj hdeclared
    exact .inl (Data.within_of .string)
  · trivial

private theorem platformArgs_takes (p : Platform) {args : Dict Data}
    (h : (registry : Registry (Factory (Memory τ))).Takes "platform" args) :
    (registry : Registry (Factory (Memory τ))).Takes "platform" (platformArgs p args) := by
  have htext {name : String} {args : Dict Data} (text : String)
      (h : (registry : Registry (Factory (Memory τ))).Takes "platform" args)
      (hname : (registry : Registry (Factory (Memory τ))).field? "platform" name =
        some (.plain name .string)) :
      (registry : Registry (Factory (Memory τ))).Takes "platform"
        (args.insert name (.string text)) :=
    h.insert fun declared hdeclared => by
      obtain rfl := Option.some.inj (hname.symm.trans hdeclared)
      exact .inl (Data.within_of .string)
  have hfamily : Value.Conforms (.array (p.family.map .string)) (.array .string) :=
    .array (List.forall_mem_map.mpr fun _ _ => .string)
  refine Registry.Takes.insert ?_ fun declared hdeclared => ?_
  · exact htext _ (htext _ (htext _ (htext _ (htext _ (htext _ h rfl) rfl) rfl) rfl) rfl) rfl
  · obtain rfl := Option.some.inj hdeclared
    exact .inl (Data.within_of hfamily)

end Providers

/-- The factories of the core resources are honest, whatever is remembered. -/
theorem honest {s : Setting (Memory τ)} (hregistry : s.registry = registry)
    {valid : Memory τ → Prop} (hvalid : ∀ memory, valid memory) : s.Honest valid := by
  intro name entry factory args hentry hfactory hargs
  rw [hregistry] at hentry hargs ⊢
  have hmem := mem_registry hentry
  simp only [List.mem_cons, Prod.mk.injEq, List.not_mem_nil, or_false] at hmem
  rcases hmem with ⟨rfl, rfl⟩ | ⟨rfl, rfl⟩ | ⟨rfl, rfl⟩
  · obtain rfl := Option.some.inj hfactory
    refine fun memory _ => ⟨hvalid _, hargs, fun provider hprovider => ?_⟩
    obtain rfl := Option.some.inj hprovider
    exact commandProvider_honest hvalid _
  · obtain rfl := Option.some.inj hfactory
    refine ⟨hargs, fun provider hprovider => ?_⟩
    obtain rfl := Option.some.inj hprovider
    exact fileProvider_honest
  · obtain rfl := Option.some.inj hfactory
    refine fun asset => ⟨platformArgs_takes asset.platform hargs, fun provider hprovider => ?_⟩
    obtain rfl := Option.some.inj hprovider
    exact fun _ _ _ _ _ _ _ => trivial

end AssetQuery.Core
