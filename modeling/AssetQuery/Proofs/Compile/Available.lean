import AssetQuery.Proofs.Compile.Build
import AssetQuery.Proofs.Registry.Chain

/-!
# Names on offer

The names that can be called on a receiver, as they are offered where a call fails, are in order and
each is offered once. They are those of which a call is not refused for its name, if the receiver is
of a declared resource or of none, and if the resource names its public fields as they are called
and hides no function of lists behind a private one.
-/

namespace AssetQuery

open Build (yields_pure fails_bind fails_throw fails_throw_bind not_fails_pure not_yields_throw
  not_fails_operandType)

variable {F α β : Type}

section Repeats

private theorem mem_eraseRepsBy_loop {name first : String} {names acc : List String} :
    name ∈ List.eraseRepsBy.loop (· == ·) first names acc ↔
      name ∈ acc ∨ name = first ∨ name ∈ names := by
  induction names generalizing first acc with
  | nil => simp [List.eraseRepsBy.loop, or_comm]
  | cons head rest ih =>
    rw [List.eraseRepsBy.loop]
    by_cases h : first = head
    · simp [h, ih]
    · simp only [beq_false_of_ne h, ih, List.mem_cons, or_assoc, or_left_comm]

theorem mem_eraseReps {name : String} {names : List String} :
    name ∈ names.eraseReps ↔ name ∈ names := by
  cases names with
  | nil => rfl
  | cons first rest => simp [List.eraseReps, List.eraseRepsBy, mem_eraseRepsBy_loop]

private theorem pairwise_eraseRepsBy_loop {first : String} {names acc : List String}
    (hacc : (first :: acc).Pairwise (· > ·)) (h : (first :: names).Pairwise (· ≤ ·)) :
    (List.eraseRepsBy.loop (· == ·) first names acc).Pairwise (· < ·) := by
  induction names generalizing first acc with
  | nil => exact List.pairwise_reverse.mpr hacc
  | cons head rest ih =>
    obtain ⟨hfirst, hrest⟩ := List.pairwise_cons.mp h
    rw [List.eraseRepsBy.loop]
    by_cases heq : first = head
    · subst heq
      simpa using ih hacc hrest
    · have hlt : first < head := Std.lt_of_le_of_ne (hfirst head List.mem_cons_self) heq
      simp only [beq_false_of_ne heq]
      refine ih (List.pairwise_cons.mpr ⟨fun name hname => ?_, hacc⟩) hrest
      rcases List.mem_cons.mp hname with rfl | hname
      · exact hlt
      · exact String.lt_trans ((List.pairwise_cons.mp hacc).1 name hname) hlt

private theorem pairwise_eraseReps {names : List String} (h : names.Pairwise (· ≤ ·)) :
    names.eraseReps.Pairwise (· < ·) := by
  cases names with
  | nil => exact List.Pairwise.nil
  | cons first rest => exact pairwise_eraseRepsBy_loop (List.pairwise_singleton _ _) h

end Repeats

/-- Whether an error says that a name stands for nothing on its receiver. -/
def CompileError.refusesName : CompileError → Bool
  | unknownFunction .. | unknownField .. | notListResource .. => true
  | _ => false

namespace Build

/-- Whether a step refuses a name only with errors that are known of. -/
def RefusesOnly (known : CompileError → Prop) (x : Build α) : Prop :=
  ∀ code e code', x.Fails code e code' → e.refusesName → known e

namespace RefusesOnly

variable {known : CompileError → Prop} {x : Build α}

theorem pure (a : α) : RefusesOnly known (Pure.pure a : Build α) :=
  fun _ _ _ h _ => absurd h not_fails_pure

theorem throw {thrown : CompileError} (hname : thrown.refusesName = false) :
    RefusesOnly known (MonadExcept.throw thrown : Build α) := by
  intro code e code' h hrefused
  obtain ⟨rfl, _⟩ := fails_throw.mp h
  cases hname.symm.trans hrefused

theorem bind {f : α → Build β} (hx : RefusesOnly known x) (hf : ∀ a, RefusesOnly known (f a)) :
    RefusesOnly known (x >>= f) := by
  intro code e code' h hrefused
  rcases fails_bind.mp h with h | ⟨a, mid, _, h⟩
  · exact hx code e code' h hrefused
  · exact hf a mid e code' h hrefused

theorem guarded {p : Prop} [Decidable p] {thrown : CompileError} {f : β → Build α}
    (hname : thrown.refusesName = false) (hx : RefusesOnly known x) :
    RefusesOnly known (if p then (MonadExcept.throw thrown : Build β) >>= f else x) := by
  split
  · intro code e code' h
    rcases fails_bind.mp h with h | ⟨_, _, hthrow, _⟩
    · exact throw hname code e code' h
    · exact absurd hthrow not_yields_throw
  · exact hx

theorem emit (chunk : Chunk) : RefusesOnly known (Build.emit chunk) := by
  intro code e code' h
  cases h

private theorem operandType (p : Primitive) : RefusesOnly known (Build.operandType p) :=
  fun _ _ _ h _ => absurd h not_fails_operandType

end RefusesOnly

end Build

/-- Whether a declaration names its public fields as they are called and hides no function of lists
behind a private field. -/
structure ResourceInfo.Candid (info : ResourceInfo) : Prop where
  named : ∀ key field, info.fields.find? key = some field → field.isPrivate = false →
    field.name = key
  unshadowed : ∀ elem, info.listType = some elem → ∀ name ∈ listFunctions, ∀ field,
    info.fields.find? name = some field → field.isPrivate = false

instance (info : ResourceInfo) : Decidable info.Candid :=
  decidable_of_iff ((∀ e ∈ info.fields.entries, e.2.isPrivate = false → e.2.name = e.1) ∧
      ∀ elem ∈ info.listType, ∀ name ∈ listFunctions, ∀ field ∈ info.fields.find? name,
        field.isPrivate = false)
    ⟨fun h => ⟨fun _ _ hfield => h.1 _ (Dict.find?_eq_some_iff.mp hfield), h.2⟩,
      fun h => ⟨fun _ he => h.named _ _ (Dict.find?_eq_some_iff.mpr he), h.unshadowed⟩⟩

/-- Whether a type, if it is one of resources, is that of a declared one that is candid. -/
def Registry.Candid (r : Registry F) (t : Ty) : Prop :=
  t.underlying = .resourceLike →
    ∃ resource entry, t = .resource resource ∧ r.resource? resource = some entry ∧
      entry.info.Candid

namespace Vocabulary

variable {v : Vocabulary F} {t : Ty} {name : String}

/-- The type of the items, if a type is that of a list. -/
def itemType? (v : Vocabulary F) (t : Ty) : Option Ty :=
  (v.registry.resource? (t.resourceName?.getD "")).bind fun e => e.info.listType

private theorem emitList_of_itemType? {elem : Ty} (h : v.itemType? t = some elem) (binding : Ref) :
    v.emitList t binding =
      (do return (← Build.emit (.call "list" (.array elem) binding []), .array elem)) := by
  rw [emitList, ← itemType?, h]

private theorem emitList_of_not_list (h : v.itemType? t = none) (binding : Ref) :
    v.emitList t binding = throw (.notListResource t) := by
  rw [emitList, ← itemType?, h]

/-- Whether a call of a name is never refused for the name: an error that refuses one is an error of
the arguments. -/
def Callable (v : Vocabulary F) (t : Ty) (name : String) : Prop :=
  ∀ (binding : Ref) (count : Nat) (args : Signature → Ty → Build (List Primitive)),
    (v.method t binding name count args).RefusesOnly fun e =>
      ∃ signature receiver code code', (args signature receiver).Fails code e code'

/-- Whether every call of a name with arguments that can be compiled is refused for the name. -/
def Refuses (v : Vocabulary F) (t : Ty) (name : String) : Prop :=
  ∀ (binding : Ref) (count : Nat) (args : Signature → Ty → Build (List Primitive)) (code : Code),
    (∀ signature receiver code, ∃ ps code', (args signature receiver).Yields code ps code') →
    ∃ e code', (v.method t binding name count args).Fails code e code' ∧ e.refusesName

theorem Refuses.not_callable (h : v.Refuses t name) : ¬v.Callable t name := by
  intro hcallable
  obtain ⟨e, code', hfails, hrefused⟩ := h 0 0 (fun _ _ => pure []) Code.empty
    fun _ _ code => ⟨[], code, yields_pure.mpr ⟨rfl, rfl⟩⟩
  obtain ⟨_, _, _, _, hargs⟩ := hcallable 0 0 (fun _ _ => pure []) _ _ _ hfails hrefused
  exact not_fails_pure hargs

/-- Whether a name stands for something on a receiver: for a field, if there is one of that name,
which has to be public, else for a function; those of resources take a list. -/
def Resolves (v : Vocabulary F) (t : Ty) (name : String) : Prop :=
  match v.field? t name with
  | some field => field.isPrivate = false
  | none => (∃ h, v.builtins.lookup? t name = some h) ∧
      (t.underlying = .resourceLike → ∃ elem, v.itemType? t = some elem)

section Calls

private theorem refusesOnly_emitList {known : CompileError → Prop} {elem : Ty}
    (h : v.itemType? t = some elem) (binding : Ref) :
    (v.emitList t binding).RefusesOnly known := by
  rw [emitList_of_itemType? h]
  exact .bind (.emit _) fun _ => .pure _

private theorem refusesOnly_firstType {known : CompileError → Prop} (ps : List Primitive) :
    (firstType ps).RefusesOnly known := by
  cases ps with
  | nil => exact .pure _
  | cons p rest => exact .operandType p

private theorem refusesOnly_special {form : SpecialForm}
    (hlist : form = .listLength ∨ form = .listWhere → ∃ elem, v.itemType? t = some elem)
    (binding : Ref) (args : Signature → Ty → Build (List Primitive)) :
    (v.special form t binding name args).RefusesOnly fun e =>
      ∃ signature receiver code code', (args signature receiver).Fails code e code' := by
  have hargs (signature : Signature) (receiver : Ty) : (args signature receiver).RefusesOnly
      fun e => ∃ signature receiver code code', (args signature receiver).Fails code e code' :=
    fun code e code' h _ => ⟨signature, receiver, code, code', h⟩
  cases form with
  | arrayContains =>
    refine .guarded rfl (.bind (hargs _ _) fun ps => .bind (refusesOnly_firstType ps) fun _ => ?_)
    exact .guarded rfl (.emit _)
  | stringContains =>
    refine .bind (hargs _ _) fun ps => .bind (refusesOnly_firstType ps) fun _ => ?_
    split
    · exact .emit _
    · exact .emit _
    · exact .throw rfl
  | listLength =>
    obtain ⟨elem, helem⟩ := hlist (.inl rfl)
    exact .bind (hargs _ _) fun _ => .bind (refusesOnly_emitList helem binding) fun _ => .emit _
  | listWhere =>
    obtain ⟨elem, helem⟩ := hlist (.inr rfl)
    exact .bind (refusesOnly_emitList helem binding) fun _ => .bind (hargs _ _) fun _ => .emit _

private theorem underlying_of_listForm {signature : Signature} {form : SpecialForm}
    (hform : form = .listLength ∨ form = .listWhere)
    (h : Builtins.standard.lookup? t name = some ⟨signature, .special form⟩) :
    t.underlying = .resourceLike := by
  have hsound := Builtins.sound_standard h
  rcases hform with rfl | rfl
  · exact hsound
  · exact hsound

variable (hv : v.builtins = .standard)

include hv

private theorem callable_of_resolves (h : v.Resolves t name) : v.Callable t name := by
  intro binding count args
  rw [Resolves] at h
  rw [method_eq]
  cases hfield : v.field? t name with
  | some field =>
    rw [hfield] at h
    simp only at h
    simp only [h, Bool.false_eq_true, if_false]
    exact .guarded rfl (.emit _)
  | none =>
    rw [hfield] at h
    obtain ⟨⟨⟨signature, kind⟩, hlookup⟩, hlist⟩ := h
    simp only [hlookup]
    cases kind with
    | simple result =>
      exact .bind (fun code e code' h _ => ⟨signature, t, code, code', h⟩) fun _ => .emit _
    | special form =>
      rw [hv] at hlookup
      apply refusesOnly_special
      intro hform
      exact hlist (underlying_of_listForm hform hlookup)

theorem refuses_of_not_resolves (h : ¬v.Resolves t name) : v.Refuses t name := by
  intro binding count args code hargs
  rw [Resolves] at h
  rw [method_eq]
  cases hfield : v.field? t name with
  | some field =>
    rw [hfield] at h
    simp only [Bool.not_eq_false] at h
    simp only [h]
    exact ⟨_, code, fails_throw_bind, rfl⟩
  | none =>
    rw [hfield] at h
    cases hlookup : v.builtins.lookup? t name with
    | none => exact ⟨_, code, fails_throw.mpr ⟨rfl, rfl⟩, rfl⟩
    | some handler =>
      obtain ⟨ht, hitem⟩ := Classical.not_imp.mp fun hlist => h ⟨⟨handler, hlookup⟩, hlist⟩
      have hnone : v.itemType? t = none :=
        Option.eq_none_iff_forall_ne_some.mpr fun elem helem => hitem ⟨elem, helem⟩
      rw [hv] at hlookup
      -- the length is refused once its arguments are compiled, a filter before that
      rcases (Builtins.lookup?_resourceLike ht).mp hlookup with ⟨_, rfl⟩ | ⟨_, rfl⟩
      · obtain ⟨ps, mid, hps⟩ := hargs ⟨0, []⟩ t code
        refine ⟨.notListResource t, mid, fails_bind.mpr (.inr ⟨ps, mid, hps, ?_⟩), rfl⟩
        rw [emitList_of_not_list hnone]
        exact fails_throw_bind
      · refine ⟨.notListResource t, code, ?_, rfl⟩
        simp only [special_listWhere, emitList_of_not_list hnone]
        exact fails_throw_bind

private theorem callable_iff_resolves : v.Callable t name ↔ v.Resolves t name := by
  refine ⟨fun h => Classical.byContradiction fun hresolves => ?_, callable_of_resolves hv⟩
  exact (refuses_of_not_resolves hv hresolves).not_callable h

end Calls

section Offers

private theorem available_sorted : (v.available t).Pairwise (· < ·) := by
  apply pairwise_eraseReps
  refine (List.pairwise_mergeSort ?_ ?_ _).imp of_decide_eq_true
  · intro a b c
    simpa using String.le_trans
  · intro a b
    simpa using String.le_total a b

theorem exists_lookup?_resourceLike_iff (ht : t.underlying = .resourceLike) :
    (∃ h, Builtins.standard.lookup? t name = some h) ↔ name ∈ listFunctions := by
  simp only [Builtins.lookup?_resourceLike ht, exists_or, exists_and_left, exists_eq, and_true,
    listFunctions, List.mem_cons, List.not_mem_nil, or_false]

variable {resource : String} {entry : ResourceEntry F}

theorem field?_of_declared (h : v.registry.resource? resource = some entry) :
    v.field? (.resource resource) name = entry.info.fields.find? name := by
  simp [field?, Ty.resourceName?, Registry.field?, h]

private theorem itemType?_of_declared (h : v.registry.resource? resource = some entry) :
    v.itemType? (.resource resource) = entry.info.listType := by
  simp [itemType?, Ty.resourceName?, h]

variable (hv : v.builtins = .standard)

include hv

theorem mem_available_of_undeclared (h : t.resourceName?.bind v.registry.resource? = none) :
    name ∈ v.available t ↔ ∃ h, Builtins.standard.lookup? t name = some h := by
  rw [available, mem_eraseReps, List.mem_mergeSort]
  simp only [h, hv]
  exact Builtins.mem_names_standard

/-- What is offered of a declared resource: the functions of lists, if it is one, and the names of
its public fields. -/
theorem mem_available_of_declared (h : v.registry.resource? resource = some entry) :
    name ∈ v.available (.resource resource) ↔
      (name ∈ listFunctions ∧ ∃ elem, entry.info.listType = some elem) ∨
        ∃ key field, entry.info.fields.find? key = some field ∧ field.isPrivate = false ∧
          field.name = name := by
  have hnames : name ∈ Builtins.standard.names (.resource resource) ↔ name ∈ listFunctions :=
    Builtins.mem_names_standard.trans (exists_lookup?_resourceLike_iff rfl)
  have hentry : (Ty.resource resource).resourceName?.bind v.registry.resource? = some entry := h
  rw [available, mem_eraseReps, List.mem_mergeSort]
  simp only [hentry, hv, List.mem_append, List.mem_map, List.mem_filter, Dict.mem_values_iff]
  refine or_congr ?_ ?_
  · cases entry.info.listType with
    | none => simp [hnames]
    | some elem => simp [hnames]
  · constructor
    · rintro ⟨field, ⟨⟨key, hfield⟩, hpublic⟩, hname⟩
      exact ⟨key, field, hfield, by simpa using hpublic, hname⟩
    · rintro ⟨key, field, hfield, hpublic, hname⟩
      exact ⟨field, ⟨⟨key, hfield⟩, by simp [hpublic]⟩, hname⟩

private theorem offered_of_shadowed (hentry : v.registry.resource? resource = some entry)
    {elem : Ty}
    (hlist : entry.info.listType = some elem) (hname : name ∈ listFunctions) {field : Field}
    (hfield : entry.info.fields.find? name = some field) (hprivate : field.isPrivate) :
    name ∈ v.available (.resource resource) ∧ v.Refuses (.resource resource) name := by
  refine ⟨(mem_available_of_declared hv hentry).mpr (.inl ⟨hname, elem, hlist⟩), ?_⟩
  apply refuses_of_not_resolves hv
  rw [Resolves, field?_of_declared hentry, hfield]
  simpa using hprivate

/-- The name of a public field is offered also where it is called by another. -/
theorem offered_of_misnamed (hentry : v.registry.resource? resource = some entry) {key : String}
    {field : Field} (hfield : entry.info.fields.find? key = some field)
    (hpublic : field.isPrivate = false) (hname : entry.info.fields.find? field.name = none)
    (hlist : field.name ∉ listFunctions) :
    field.name ∈ v.available (.resource resource) ∧
      v.Refuses (.resource resource) field.name := by
  refine ⟨(mem_available_of_declared hv hentry).mpr (.inr ⟨key, field, hfield, hpublic, rfl⟩), ?_⟩
  apply refuses_of_not_resolves hv
  rw [Resolves, field?_of_declared hentry, hname, hv]
  rintro ⟨hlookup, _⟩
  exact hlist ((exists_lookup?_resourceLike_iff rfl).mp hlookup)

/-- The functions of lists are offered of a resource that nobody declared. -/
theorem offered_of_undeclared (h : v.registry.resource? resource = none)
    (hname : name ∈ listFunctions) :
    name ∈ v.available (.resource resource) ∧ v.Refuses (.resource resource) name := by
  have hlookup := (exists_lookup?_resourceLike_iff (t := .resource resource) rfl).mpr hname
  have hnone : (Ty.resource resource).resourceName?.bind v.registry.resource? = none := h
  refine ⟨(mem_available_of_undeclared hv hnone).mpr hlookup, ?_⟩
  apply refuses_of_not_resolves hv
  have hfield : v.field? (.resource resource) name = none := by
    simp [field?, Ty.resourceName?, Registry.field?, h]
  have hitem : v.itemType? (.resource resource) = none := by
    simp [itemType?, Ty.resourceName?, h]
  rw [Resolves, hfield, hitem]
  rintro ⟨_, hlist⟩
  cases hlist rfl with
  | intro elem helem => cases helem

private theorem mem_available_iff_resolves (h : v.registry.Candid t) :
    name ∈ v.available t ↔ v.Resolves t name := by
  by_cases ht : t.underlying = .resourceLike
  · obtain ⟨resource, entry, rfl, hentry, hcandid⟩ := h ht
    rw [mem_available_of_declared hv hentry, Resolves, field?_of_declared hentry,
      itemType?_of_declared hentry, hv]
    cases hname : entry.info.fields.find? name with
    | none =>
      simp only [exists_lookup?_resourceLike_iff ht, ht, true_implies, or_iff_left_iff_imp]
      rintro ⟨key, field, hkey, hpublic, rfl⟩
      rw [hcandid.named key field hkey hpublic] at hname
      cases hname.symm.trans hkey
    | some field =>
      constructor
      · rintro (⟨hlist, elem, helem⟩ | ⟨key, found, hkey, hpublic, rfl⟩)
        · exact hcandid.unshadowed elem helem name hlist field hname
        · rw [hcandid.named key found hkey hpublic, hkey] at hname
          exact Option.some.inj hname ▸ hpublic
      · intro hpublic
        exact .inr ⟨name, field, hname, hpublic, hcandid.named name field hname hpublic⟩
  · have hnone : t.resourceName? = none := by
      cases t with
      | resource resource => exact absurd rfl ht
      | _ => rfl
    have hfield : v.field? t name = none := by
      rw [field?, hnone]
      rfl
    have hundeclared : t.resourceName?.bind v.registry.resource? = none := by
      rw [hnone]
      rfl
    rw [mem_available_of_undeclared hv hundeclared, Resolves, hfield, hv]
    exact (and_iff_left fun hresource => absurd hresource ht).symm

end Offers

/-- The names on offer are in order, each once. On a type that is of no resource or of a candid one
they are those that can be called, and every call of another is refused for its name. -/
theorem available_iff_callable (v : Vocabulary F) (hv : v.builtins = .standard) (t : Ty) :
    (v.available t).Pairwise (· < ·) ∧
      (v.registry.Candid t → ∀ name, (name ∈ v.available t ↔ v.Callable t name) ∧
        (name ∉ v.available t → v.Refuses t name)) := by
  refine ⟨available_sorted, fun hcandid name => ⟨?_, fun h => ?_⟩⟩
  · rw [mem_available_iff_resolves hv hcandid, callable_iff_resolves hv]
  · rw [mem_available_iff_resolves hv hcandid] at h
    exact refuses_of_not_resolves hv h

/-- A list of texts of which the path is private. -/
def listingRequests : List (Registry.Request Unit) :=
  [.declare { ResourceInfo.plain "files" with
      listType := some .string
      fields := .ofList [("path", { Field.plain "path" .string with isPrivate := true }),
        ("size", .plain "size" .int)] }]

theorem callable_listingSize :
    (⟨Registry.empty.serveAll listingRequests, .standard⟩ : Vocabulary Unit).builtins =
        .standard ∧
      (Registry.empty.serveAll listingRequests).Candid (.resource "files") ∧
      (⟨Registry.empty.serveAll listingRequests, .standard⟩ : Vocabulary Unit).Callable
        (.resource "files") "size" ∧
      (⟨Registry.empty.serveAll listingRequests, .standard⟩ : Vocabulary Unit).Callable
        (.resource "files") "length" ∧
      (⟨Registry.empty.serveAll listingRequests, .standard⟩ : Vocabulary Unit).Refuses
        (.resource "files") "path" := by
  obtain ⟨entry, hentry, hinfo, hlist, hsize, hpath⟩ : ∃ entry,
      (Registry.empty.serveAll listingRequests).resource? "files" = some entry ∧
        entry.info.Candid ∧ entry.info.listType = some .string ∧
        entry.info.fields.find? "size" = some (.plain "size" .int) ∧
        ∀ e ∈ entry.info.fields.entries, e.2.isPrivate = false → e.2.name ≠ "path" :=
    ⟨_, rfl, by decide +kernel, rfl, rfl, by decide +kernel⟩
  have hcandid : (Registry.empty.serveAll listingRequests).Candid (.resource "files") :=
    fun _ => ⟨"files", entry, rfl, hentry, hinfo⟩
  have hoffered := (available_iff_callable
    (⟨Registry.empty.serveAll listingRequests, .standard⟩ : Vocabulary Unit) rfl _).2 hcandid
  refine ⟨rfl, hcandid, (hoffered "size").1.mp ?_, (hoffered "length").1.mp ?_,
    (hoffered "path").2 ?_⟩
  · exact (mem_available_of_declared rfl hentry).mpr (.inr ⟨"size", _, hsize, rfl, rfl⟩)
  · exact (mem_available_of_declared rfl hentry).mpr (.inl ⟨by decide, .string, hlist⟩)
  · rw [mem_available_of_declared rfl hentry]
    rintro (⟨hlist, _⟩ | ⟨key, field, hfield, hpublic, hname⟩)
    · exact absurd hlist (by decide)
    · exact hpath _ (Dict.find?_eq_some_iff.mp hfield) hpublic hname

/-- A list of texts of which a field `length` is private. -/
def shadowedRequests : List (Registry.Request Unit) :=
  [.declare { ResourceInfo.plain "files" with
      listType := some .string
      fields := .ofList [("length", { Field.plain "length" .int with isPrivate := true })] }]

/-- The length of the list is on offer, but it cannot be called. -/
theorem not_callable_shadowedLength :
    "length" ∈ (⟨Registry.empty.serveAll shadowedRequests, .standard⟩ : Vocabulary Unit).available
        (.resource "files") ∧
      ¬(⟨Registry.empty.serveAll shadowedRequests, .standard⟩ : Vocabulary Unit).Callable
        (.resource "files") "length" := by
  obtain ⟨entry, hentry, hlist, field, hfield, hprivate⟩ : ∃ entry,
      (Registry.empty.serveAll shadowedRequests).resource? "files" = some entry ∧
        entry.info.listType = some .string ∧ ∃ field,
          entry.info.fields.find? "length" = some field ∧ field.isPrivate :=
    ⟨_, rfl, rfl, _, rfl, rfl⟩
  obtain ⟨hoffered, hrefused⟩ := offered_of_shadowed
    (v := ⟨Registry.empty.serveAll shadowedRequests, .standard⟩) rfl hentry hlist (by decide)
    hfield hprivate
  exact ⟨hoffered, hrefused.not_callable⟩

end Vocabulary

end AssetQuery
