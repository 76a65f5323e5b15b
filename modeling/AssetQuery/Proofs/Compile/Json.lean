import AssetQuery.Proofs.Code.Json
import AssetQuery.Proofs.Compile.Tidy
import AssetQuery.Proofs.Compile.WellFormed

/-!
# Compiled codes read back from JSON

The JSON text of a compiled code is read as that code if the names of resources are plain and the
text does not nest too deep. In general it is so exactly if each type in the code is given back by
its label.
-/

namespace AssetQuery

variable {F : Type} {named : String → Prop} {registry : Registry F} {v : Vocabulary F}
  {digest : Digest} {query : List Expr} {code : Code}

private theorem Ty.names_true (t : Ty) : t.Names fun _ => True := by
  induction t with
  | array elem ih => exact ih
  | map key value ihkey ihvalue => exact ⟨ihkey, ihvalue⟩
  | _ => trivial

private theorem Vocabulary.names_true (v : Vocabulary F) : v.Names fun _ => True :=
  ⟨⟨fun _ _ _ => trivial, fun _ _ _ _ => Ty.names_true _, fun _ _ _ _ _ => Ty.names_true _⟩,
    fun _ _ _ _ _ => Ty.names_true _⟩

private theorem Registry.Names.standard (h : registry.Names named) :
    (⟨registry, .standard⟩ : Vocabulary F).Names named :=
  ⟨h, fun _ _ _ _ hlookup => Ty.names_of_isLiteral (Builtins.sound_standard hlookup).2.2⟩

private theorem Registry.names_of_entries (h : ∀ e ∈ registry.entries.entries, named e.1 ∧
    (∀ f ∈ e.2.info.fields.entries, f.2.typ.Names named) ∧
    ∀ elem ∈ e.2.info.listType, elem.Names named) : registry.Names named where
  resources name entry hentry := (h (name, entry) (Table.mem_of_lookup hentry)).1
  fields name part field hfield := by
    obtain ⟨entry, hentry, hfield⟩ := Option.bind_eq_some_iff.mp hfield
    exact (h (name, entry) (Table.mem_of_lookup hentry)).2.1 _ (Table.mem_of_lookup hfield)
  lists name entry elem hentry := (h (name, entry) (Table.mem_of_lookup hentry)).2.2 elem

/-- The code that a query compiles to is read back from its JSON text exactly if each type in it is
given back by its label and the text does not nest too deep. -/
private theorem Vocabulary.readJson_iff_of_compile (hordered : ∀ e ∈ query, e.Ordered)
    (hsize : 2 * Expr.bodySize query < 2 ^ 31) (h : v.compile digest query = .ok code) :
    Code.readJson code.writeJson = .ok code ↔
      code.toJson.levels < Json.nestingLimit ∧ ∀ t ∈ code.types, t.Labelled :=
  Code.readJson_eq_ok_iff (v.names_true.tidy_of_compile hordered hsize h).wellKeyed

/-- Where all names are plain, the code that a query compiles to is read back from its JSON text,
unless the text nests too deep. -/
theorem Registry.readJson_of_compile (hplain : registry.Names PlainName)
    (hordered : ∀ e ∈ query, e.Ordered) (hsize : 2 * Expr.bodySize query < 2 ^ 31)
    (h : Vocabulary.compile ⟨registry, .standard⟩ digest query = .ok code) :
    Code.readJson code.writeJson = .ok code ↔ code.toJson.levels < Json.nestingLimit := by
  have htidy := hplain.standard.tidy_of_compile hordered hsize h
  rw [Code.readJson_eq_ok_iff htidy.wellKeyed]
  exact and_iff_left fun t ht => Ty.labelled_of_plain (htidy.names t ht)

theorem Registry.readJson_filesQuery :
    filesRegistry.Names PlainName ∧ (∀ e ∈ filesQuery, e.Ordered) ∧
      2 * Expr.bodySize filesQuery < 2 ^ 31 ∧
      ∃ code, Vocabulary.compile ⟨filesRegistry, .standard⟩ sha256Digest filesQuery = .ok code ∧
        .resource "files" ∈ code.types ∧ Code.readJson code.writeJson = .ok code := by
  have hplain : filesRegistry.Names PlainName := by
    refine names_of_entries fun e he => ?_
    obtain rfl := List.mem_singleton.mp he
    refine ⟨⟨⟨rfl, rfl⟩, rfl, rfl⟩, fun f hf => ?_, fun elem helem => ?_⟩
    · obtain rfl := List.mem_singleton.mp hf
      trivial
    · obtain rfl := Option.some.inj helem
      trivial
  have hordered : ∀ e ∈ filesQuery, e.Ordered := by
    have hequal : (Expr.call .element "==" [⟨none, .literal (.string "readme")⟩]).Ordered :=
      .call .element (List.forall_mem_singleton.mpr (.literal (.string "readme")))
    exact List.forall_mem_singleton.mpr (.call (.root nofun)
      (List.forall_mem_singleton.mpr (.block (List.forall_mem_singleton.mpr hequal))))
  have hsize : Expr.bodySize filesQuery = 6 := rfl
  have hseen : (Vocabulary.compile ⟨filesRegistry, .standard⟩ sha256Digest
      filesQuery).toOption.map (fun code => (decide (code.toJson.levels < Json.nestingLimit),
        decide (.resource "files" ∈ code.types))) = some (true, true) := rfl
  obtain ⟨code, hcode, hseen⟩ := Except.exists_of_toOption_map hseen
  obtain ⟨hlevels, htypes⟩ := Prod.mk.inj hseen
  exact ⟨hplain, hordered, by omega, code, hcode, of_decide_eq_true htypes,
    (readJson_of_compile hplain hordered (by omega) hcode).mpr (of_decide_eq_true hlevels)⟩

/-- A resource may have the name of a type. What it gives is then taken for something of that type
when the code is read. -/
theorem Registry.readJson_intQuery :
    ∃ registry : Registry Unit, Registry.empty.addResource (.plain "int") = .ok registry ∧
      ∃ code, Vocabulary.compile ⟨registry, .standard⟩ sha256Digest [.root "int" []] = .ok code ∧
        Code.readJson code.writeJson ≠ .ok code := by
  have hdeclared : ((Registry.empty : Registry Unit).addResource (.plain "int")).toOption.map
      (fun registry => (Vocabulary.compile ⟨registry, .standard⟩ sha256Digest
        [.root "int" []]).toOption.map Code.types) = some (some [.resource "int"]) := rfl
  obtain ⟨registry, hregistry, hcompiled⟩ := Except.exists_of_toOption_map hdeclared
  obtain ⟨code, hcode, htypes⟩ := Except.exists_of_toOption_map hcompiled
  have hlabel : (Ty.resource "int").label = Ty.int.label := rfl
  refine ⟨registry, hregistry, code, hcode, fun hread => ?_⟩
  have hordered : ∀ e ∈ [Expr.root "int" []], e.Ordered :=
    List.forall_mem_singleton.mpr (.root nofun)
  have hlabelled := ((Vocabulary.readJson_iff_of_compile hordered (by decide) hcode).mp hread).2
    (.resource "int") (htypes ▸ List.mem_singleton_self _)
  have hint : Ty.int.Labelled := Ty.labelled_of_plain trivial
  rw [Ty.Labelled, hlabel] at hlabelled
  cases hlabelled.symm.trans hint

end AssetQuery
