import AssetQuery.Expr.Evaluate
import AssetQuery.Proofs.Code.Tidy
import AssetQuery.Proofs.Compile.Build
import AssetQuery.Proofs.Compile.Literal

/-!
# Compiled codes are tidy

Where the maps in the constants of a query are in order, so are those in the code that it compiles
to, and no label or checksum of that code stands under the number of another. A code with its blocks
has at most two chunks for each expression, so that the numbers suffice. The types in the code name
no resources but those that the declarations name.
-/

namespace AssetQuery

open Build (yields_bind yields_pure yields_get yields_modify yields_emit yields_ofExcept
  yields_unless not_yields_throw)

variable {F α β : Type} {v : Vocabulary F} {named : String → Prop} {scope : Option Ty}
  {code code' : Code}

/-- Whether the entries of the maps in a constant are in the order of their keys. -/
inductive Literal.Ordered : Literal → Prop
  | nil : Ordered .nil
  | bool (b : Bool) : Ordered (.bool b)
  | int (n : Int64) : Ordered (.int n)
  | float (x : Double) : Ordered (.float x)
  | string (s : String) : Ordered (.string s)
  | array {items : List Literal} : (∀ l ∈ items, l.Ordered) → Ordered (.array items)
  | map {entries : List (String × Literal)} : (∀ e ∈ entries, e.2.Ordered) →
    Entries.Ordered entries → Ordered (.map entries)

/-- Whether all constants in an expression are so. -/
inductive Expr.Ordered : Expr → Prop
  | literal {l : Literal} : l.Ordered → Ordered (.literal l)
  | root {name : String} {args : List (Arg Expr)} : (∀ arg ∈ args, arg.value.Ordered) →
    Ordered (.root name args)
  | call {receiver : Expr} {name : String} {args : List (Arg Expr)} : receiver.Ordered →
    (∀ arg ∈ args, arg.value.Ordered) → Ordered (.call receiver name args)
  | block {body : List Expr} : (∀ e ∈ body, e.Ordered) → Ordered (.block body)
  | element : Ordered .element

namespace Literal

private theorem itemPrimitives_from {items : List Literal} {ps : List Primitive}
    (h : itemPrimitives items = .ok ps) {p : Primitive} (hp : p ∈ ps) :
    ∃ l ∈ items, l.toPrimitive = .ok p := by
  induction items generalizing ps with
  | nil =>
    obtain rfl := Except.ok.inj h
    cases hp
  | cons l rest ih =>
    obtain ⟨first, others, hfirst, hothers, rfl⟩ := itemPrimitives_cons_eq_ok.mp h
    rcases List.mem_cons.mp hp with rfl | hp
    · exact ⟨l, List.mem_cons_self, hfirst⟩
    · obtain ⟨l', hl', hread⟩ := ih hothers hp
      exact ⟨l', List.mem_cons_of_mem _ hl', hread⟩

private theorem entryPrimitives_from {entries : List (String × Literal)}
    {ps : List (String × Primitive)} (h : entryPrimitives entries = .ok ps) :
    ps.map (·.1) = entries.map (·.1) ∧ ∀ e ∈ ps, ∃ l ∈ entries, l.2.toPrimitive = .ok e.2 := by
  induction entries generalizing ps with
  | nil =>
    obtain rfl := Except.ok.inj h
    exact ⟨rfl, nofun⟩
  | cons entry rest ih =>
    obtain ⟨key, l⟩ := entry
    obtain ⟨first, others, hfirst, hothers, rfl⟩ := entryPrimitives_cons_eq_ok.mp h
    obtain ⟨hkeys, hvalues⟩ := ih hothers
    refine ⟨by rw [List.map_cons, List.map_cons, hkeys], List.forall_mem_cons.mpr
      ⟨⟨_, List.mem_cons_self, hfirst⟩, fun e he => ?_⟩⟩
    obtain ⟨l', hl', hread⟩ := hvalues e he
    exact ⟨l', List.mem_cons_of_mem _ hl', hread⟩

theorem Ordered.toPrimitive_tidy {l : Literal} (h : l.Ordered) {p : Primitive}
    (hp : l.toPrimitive = .ok p) : p.Tidy named := by
  induction h generalizing p with
  | nil => exact Except.ok.inj hp ▸ Primitive.tidy_scalar .nil _ trivial
  | bool => exact Except.ok.inj hp ▸ Primitive.tidy_scalar .bool _ trivial
  | int => exact Except.ok.inj hp ▸ Primitive.tidy_scalar .int _ trivial
  | float => exact Except.ok.inj hp ▸ Primitive.tidy_scalar .float _ trivial
  | string => exact Except.ok.inj hp ▸ Primitive.tidy_scalar .string _ trivial
  | array _ ih =>
    have htyp : p.typ.Names named := Ty.names_of_isLiteral (toPrimitive_written hp).isLiteral
    obtain ⟨ps, hps, _, rfl⟩ := toPrimitive_array_eq_ok.mp hp
    have hitems (q : Primitive) (hq : q ∈ ps) : q.Tidy named := by
      obtain ⟨l, hl, hread⟩ := itemPrimitives_from hps hq
      exact ih l hl hread
    exact ⟨.mk (fun q hq => (hitems q hq).sorted) (List.forall_mem_nil _) .nil,
      Primitive.forall_types_iff.mpr
        ⟨htyp, fun q hq => (hitems q hq).names, List.forall_mem_nil _⟩⟩
  | map _ hordered ih =>
    have htyp : p.typ.Names named := Ty.names_of_isLiteral (toPrimitive_written hp).isLiteral
    obtain ⟨ps, hps, rfl⟩ := toPrimitive_map_eq_ok.mp hp
    obtain ⟨hkeys, hvalues⟩ := entryPrimitives_from hps
    have hentries (e : String × Primitive) (he : e ∈ ps) : e.2.Tidy named := by
      obtain ⟨l, hl, hread⟩ := hvalues e he
      exact ih l hl hread
    have hsorted : Entries.Ordered ps := by
      rw [Entries.Ordered, ← List.pairwise_map (R := (· < ·)), hkeys, List.pairwise_map]
      exact hordered
    exact ⟨.mk (List.forall_mem_nil _) (fun e he => (hentries e he).sorted) hsorted,
      Primitive.forall_types_iff.mpr
        ⟨htyp, List.forall_mem_nil _, fun e he => (hentries e he).names⟩⟩

end Literal

/-- Whether a step of compilation goes from every tidy code to another, of so many more chunks at
most, and gives what is as stated. -/
def Build.Keeps (named : String → Prop) (x : Build α) (most : Nat) (post : α → Prop) : Prop :=
  ∀ code a code', code.Tidy named → x.Yields code a code' →
    code'.Tidy named ∧ code'.count ≤ code.count + most ∧ post a

namespace Build

variable {x : Build α} {m n : Nat} {P : α → Prop} {Q : β → Prop}

theorem keeps_pure {a : α} (h : P a) : (pure a : Build α).Keeps named 0 P := by
  intro code b code' hcode hb
  obtain ⟨rfl, rfl⟩ := yields_pure.mp hb
  exact ⟨hcode, Nat.le_refl _, h⟩

theorem keeps_throw (e : CompileError) : (throw e : Build α).Keeps named 0 P :=
  fun _ _ _ _ h => absurd h not_yields_throw

theorem Keeps.bind {f : α → Build β} (hx : x.Keeps named m P)
    (hf : ∀ a, P a → (f a).Keeps named n Q) : (x >>= f).Keeps named (m + n) Q := by
  intro code b code' hcode hb
  obtain ⟨a, mid, ha, hb⟩ := yields_bind.mp hb
  obtain ⟨hmid, hfirst, hpost⟩ := hx code a mid hcode ha
  obtain ⟨hcode', hlater, hpost'⟩ := hf a hpost mid b code' hmid hb
  exact ⟨hcode', by omega, hpost'⟩

theorem Keeps.mono (h : x.Keeps named m P) (hle : m ≤ n) : x.Keeps named n P := by
  intro code a code' hcode ha
  obtain ⟨hcode', hcount, hpost⟩ := h code a code' hcode ha
  exact ⟨hcode', by omega, hpost⟩

theorem Keeps.unless {p : Prop} [Decidable p] {e : CompileError} {f : β → Build α}
    (h : x.Keeps named n P) : (if p then (throw e : Build β) >>= f else x).Keeps named n P :=
  fun code a code' hcode ha => h code a code' hcode (yields_unless.mp ha).2

theorem keeps_get {f : Code → Build β}
    (hf : ∀ code, code.Tidy named → (f code).Keeps named n Q) :
    ((get : Build Code) >>= f).Keeps named n Q := by
  intro code b code' hcode hb
  obtain ⟨_, _, hget, hb⟩ := yields_bind.mp hb
  obtain ⟨rfl, rfl⟩ := yields_get.mp hget
  exact hf code hcode code b code' hcode hb

theorem keeps_emit {c : Chunk} (hc : c.Tidy named) : (emit c).Keeps named 1 fun _ => True := by
  intro code r code' hcode hr
  obtain ⟨rfl, _⟩ := yields_emit.mp hr
  exact ⟨hcode.addChunk hc, Nat.le_of_eq (code.count_addChunk c), trivial⟩

theorem keeps_ofExcept {outcome : Except CompileError α} (h : ∀ a, outcome = .ok a → P a) :
    (MonadExcept.ofExcept outcome : Build α).Keeps named 0 P := by
  intro code a code' hcode ha
  obtain ⟨houtcome, rfl⟩ := yields_ofExcept.mp ha
  exact ⟨hcode, Nat.le_refl _, h a houtcome⟩

private theorem keeps_addEntrypoint (r : Ref) (label : String) :
    (modify fun code => code.addEntrypoint r label : Build PUnit).Keeps named 0 fun _ => True := by
  intro code _ code' hcode h
  obtain rfl := yields_modify.mp h
  exact ⟨hcode.addEntrypoint, Nat.le_of_eq (code.count_addEntrypoint r label), trivial⟩

private theorem tidy_blockStart {bound : Ty} (h : bound.Names named) :
    (blockStart bound).Tidy named := by
  obtain ⟨⟨hchunks, hlabels, hfunctions, hchecksums⟩, hnames⟩ :=
    Code.tidy_empty.addChunk (Chunk.tidy_property h "_")
  exact ⟨.mk hchunks hlabels hfunctions hchecksums, hnames⟩

private theorem keeps_block {bound : Ty} (hbound : bound.Names named) {body : Build Unit}
    (h : body.Keeps named n fun _ => True) :
    (block bound body).Keeps named (n + 1) (Primitive.Tidy named) := by
  intro code p code' hcode hp
  obtain ⟨function, hbody, rfl, rfl⟩ := yields_block.mp hp
  obtain ⟨hfunction, hcount, _⟩ := h _ () function (tidy_blockStart hbound) hbody
  refine ⟨hcode.addFunction hfunction, ?_, Primitive.tidy_scalar .functionLike _ trivial⟩
  have hstart : (blockStart bound).count = 1 := rfl
  rw [Code.count_addFunction]
  omega

theorem keeps_operand {value : Expr} (hvalue : value.Ordered) {compiled : Build Ref}
    (h : compiled.Keeps named n fun _ => True) :
    (operand value compiled).Keeps named n (Primitive.Tidy named) := by
  have hreference : (do return .ref (← compiled) : Build Primitive).Keeps named n
      (Primitive.Tidy named) :=
    h.bind fun r _ => keeps_pure (Primitive.tidy_scalar .ref (Primitive.int32Bytes r) trivial)
  cases hvalue with
  | literal hl => exact (keeps_ofExcept fun p => hl.toPrimitive_tidy).mono (Nat.zero_le n)
  | block => exact (keeps_throw _).mono (Nat.zero_le n)
  | root => exact hreference
  | call => exact hreference
  | element => exact hreference

end Build

/-- Whether the resources of a registry, and those that the types of its fields and lists name, are
all so. -/
structure Registry.Names (named : String → Prop) (registry : Registry F) : Prop where
  resources : ∀ name entry, registry.resource? name = some entry → named name
  fields : ∀ name part field, registry.field? name part = some field → field.typ.Names named
  lists : ∀ name entry elem, registry.resource? name = some entry →
    entry.info.listType = some elem → elem.Names named

/-- Whether the resources that are declared are all so, and those that are named by the types which
functions are declared to give. -/
structure Vocabulary.Names (named : String → Prop) (v : Vocabulary F) : Prop where
  registry : v.registry.Names named
  results : ∀ t name signature u,
    v.builtins.lookup? t name = some ⟨signature, .simple (.fixed u)⟩ → u.Names named

namespace Vocabulary

open Build (keeps_pure keeps_throw keeps_get keeps_emit)

private theorem Names.field? (h : v.Names named) {t : Ty} {name : String} {field : Field}
    (hfield : v.field? t name = some field) : field.typ.Names named := by
  obtain ⟨resource, _, hfield⟩ := Option.bind_eq_some_iff.mp hfield
  exact h.registry.fields resource name field hfield

private theorem Names.blockBinding (h : v.Names named) {t : Ty} (ht : t.Names named) :
    (v.blockBinding t).Names named := by
  cases t with
  | array elem => exact ht
  | resource name =>
    rw [Vocabulary.blockBinding]
    cases hlist : (v.registry.resource? name).bind fun e => e.info.listType with
    | none => exact ht
    | some elem =>
      obtain ⟨entry, hentry, helem⟩ := Option.bind_eq_some_iff.mp hlist
      exact h.registry.lists name entry elem hentry helem
  | _ => exact ht

section Calls

variable {n : Nat} {args : Signature → Ty → Build (List Primitive)} {t : Ty} {binding : Ref}
  {name : String}

private theorem Names.apply (h : v.Names named) (ht : t.Names named) {signature : Signature}
    {result : ResultRule} (hlookup : v.builtins.lookup? t name = some ⟨signature, .simple result⟩) :
    (result.apply t).Names named := by
  have hchild : (t.child?.getD .any).Names named := by
    cases t with
    | array elem => exact ht
    | map key value => exact ht.2
    | _ => trivial
  cases result with
  | fixed u => exact h.results t name signature u hlookup
  | receiver => exact ht
  | child => exact hchild
  | values => exact hchild
  | keys =>
    cases t with
    | map key value => exact ht.1
    | _ => trivial

private theorem emitList_keeps (h : v.Names named) :
    (v.emitList t binding).Keeps named 1 fun list => list.2.Names named := by
  rw [emitList]
  split
  · exact (keeps_throw _).mono (Nat.zero_le 1)
  · next elem helem =>
    obtain ⟨entry, hentry, helem⟩ := Option.bind_eq_some_iff.mp helem
    have htyp : (Ty.array elem).Names named := h.registry.lists _ entry elem hentry helem
    exact (keeps_emit (Chunk.tidy_call "list" _ binding htyp (List.forall_mem_nil _))).bind
      fun r _ => keeps_pure (a := (r, Ty.array elem)) htyp

private theorem firstType_keeps (ps : List Primitive) :
    (firstType ps).Keeps named 0 fun _ => True := by
  cases ps with
  | nil => exact keeps_pure trivial
  | cons p rest => exact keeps_get fun _ _ => keeps_pure trivial

variable (h : v.Names named) (ht : t.Names named)
  (hargs : ∀ signature receiver, receiver.Names named →
    (args signature receiver).Keeps named n fun ps => ∀ p ∈ ps, p.Tidy named)

include h ht hargs

private theorem special_keeps (form : SpecialForm) :
    (v.special form t binding name args).Keeps named (n + 2) fun _ => True := by
  have hfound (function : String) {ps : List Primitive} (hps : ∀ p ∈ ps, p.Tidy named) :
      (Build.emit (.call function .bool binding ps)).Keeps named 1 fun _ => True :=
    keeps_emit (Chunk.tidy_call function .bool binding trivial hps)
  cases form with
  | arrayContains =>
    simp only [special_arrayContains]
    refine (((hargs _ _ ht).bind fun ps hps => (firstType_keeps ps).bind fun found _ =>
      (hfound _ hps).unless).mono ?_).unless
    omega
  | stringContains =>
    simp only [special_stringContains]
    refine ((hargs _ _ ht).bind fun ps hps => (firstType_keeps ps).bind (n := 1)
      fun found _ => ?_).mono (by omega)
    split
    · exact hfound _ hps
    · exact hfound _ hps
    · exact (keeps_throw _).mono (Nat.zero_le 1)
  | listLength =>
    simp only [special_listLength]
    exact (hargs _ _ ht).bind fun _ _ => (emitList_keeps h).bind fun list _ =>
      keeps_emit (Chunk.tidy_call "length" .int list.1 trivial (List.forall_mem_nil _))
  | listWhere =>
    simp only [special_listWhere]
    refine ((emitList_keeps h).bind fun list hlist => (hargs _ _ hlist).bind fun ps hps =>
      keeps_emit (Chunk.tidy_call "where" _ list.1 hlist hps)).mono ?_
    omega

theorem method_keeps (count : Nat) :
    (v.method t binding name count args).Keeps named (n + 2) fun _ => True := by
  rw [method_eq]
  split
  · next field hfield =>
    have hcall := Chunk.tidy_call name _ binding (h.field? hfield) (List.forall_mem_nil _)
    exact ((keeps_emit hcall).mono (by omega)).unless.unless
  · split
    · exact (keeps_throw _).mono (Nat.zero_le _)
    · next hlookup =>
      exact ((hargs _ _ ht).bind fun ps hps =>
        keeps_emit (Chunk.tidy_call name _ binding (h.apply ht hlookup) hps)).mono (by omega)
    · exact special_keeps h ht hargs _

end Calls

private theorem checkCount_keeps (function : String) (signature : Signature) (count : Nat) :
    (checkCount function signature count).Keeps named 0 fun _ => True := by
  rw [checkCount]
  split
  · exact keeps_throw _
  · exact keeps_pure trivial

theorem checkType_keeps (function : String) (position : Nat) (expected : Ty) (p : Primitive) :
    (checkType function position expected p).Keeps named 0 fun _ => True := by
  intro code _ code' hcode h
  obtain ⟨_, rfl⟩ := yields_checkType.mp h
  exact ⟨hcode, Nat.le_refl _, trivial⟩

private theorem constructible_keeps (h : v.Names named) (name : String) :
    (v.constructible name).Keeps named 0 fun _ => named name := by
  rw [constructible]
  split
  · next entry hentry =>
    split
    · exact keeps_throw _
    · exact keeps_pure (h.registry.resources name entry hentry)
  · exact keeps_throw _

end Vocabulary

namespace Expr

open Build (keeps_pure keeps_throw keeps_get keeps_emit keeps_ofExcept keeps_operand keeps_block
  keeps_addEntrypoint)
open Vocabulary (checkCount_keeps checkType_keeps constructible_keeps method_keeps)

/-- Whether compilation keeps codes tidy, with two chunks for each expression. -/
def Keeps (named : String → Prop) (v : Vocabulary F) (e : Expr) : Prop :=
  ∀ scope : Option Ty, (∀ t ∈ scope, t.Names named) →
    (v.compileExpr scope e).Keeps named (2 * e.size) fun _ => True

/-- Whether compilation keeps codes tidy with an argument: with what it is, and if it is a block
with the expressions in that. -/
structure Kept (named : String → Prop) (v : Vocabulary F) (value : Expr) : Prop where
  ordered : value.Ordered
  keeps : value.Keeps named v
  body : ∀ body, value = .block body → ∀ e ∈ body, e.Keeps named v

section Assemble

variable {name : String} {args : List (Arg Expr)} {bound : Ty}

theorem compileBody_keeps {body : List Expr} (h : ∀ e ∈ body, e.Keeps named v)
    (hscope : ∀ t ∈ scope, t.Names named) :
    (v.compileBody scope body).Keeps named (2 * bodySize body) fun _ => True := by
  induction body with
  | nil =>
    rw [Vocabulary.compileBody_nil]
    exact keeps_pure trivial
  | cons e rest ih =>
    obtain ⟨he, hrest⟩ := List.forall_mem_cons.mp h
    rw [Vocabulary.compileBody_cons, bodySize]
    exact ((he scope hscope).bind fun r _ => (keeps_addEntrypoint r e.label).bind fun _ _ =>
      ih hrest).mono (by omega)

variable (hv : v.Names named)

include hv

private theorem Kept.compileArg {value : Expr} (h : value.Kept named v)
    (hscope : ∀ t ∈ scope, t.Names named) {receiver : Ty} (hreceiver : receiver.Names named)
    (expected : Ty) :
    (v.compileArg scope receiver value expected).Keeps named (2 * value.size)
      (Primitive.Tidy named) := by
  have hoperand : (Build.operand value (v.compileExpr scope value)).Keeps named (2 * value.size)
      (Primitive.Tidy named) := keeps_operand h.ordered (h.keeps scope hscope)
  cases value with
  | block body =>
    cases expected with
    | functionLike =>
      have hbound := hv.blockBinding hreceiver
      refine (keeps_block hbound (compileBody_keeps (h.body body rfl) ?_)).mono ?_
      · exact fun t ht => Option.some.inj ht ▸ hbound
      · rw [size]
        omega
    | _ => exact hoperand
  | _ => exact hoperand

variable (h : ∀ arg ∈ args, arg.value.Kept named v)

include h

private theorem compileArgs_keeps (hscope : ∀ t ∈ scope, t.Names named) (required : Nat)
    {receiver : Ty} (hreceiver : receiver.Names named) (declared : List Ty) (position : Nat) :
    (v.compileArgs scope name required receiver args declared position).Keeps named
      (2 * argsSize args) fun ps => ∀ p ∈ ps, p.Tidy named := by
  induction args generalizing declared position with
  | nil =>
    cases declared with
    | nil =>
      rw [Vocabulary.compileArgs_done]
      exact keeps_pure (List.forall_mem_nil _)
    | cons expected declared =>
      rw [Vocabulary.compileArgs_nil]
      split
      · exact keeps_throw _
      · exact keeps_pure (List.forall_mem_nil _)
  | cons arg rest ih =>
    obtain ⟨key, value⟩ := arg
    cases declared with
    | nil =>
      rw [Vocabulary.compileArgs_done]
      exact (keeps_pure (List.forall_mem_nil _)).mono (Nat.zero_le _)
    | cons expected declared =>
      cases key with
      | some key =>
        rw [Vocabulary.compileArgs_named]
        exact (Build.Keeps.bind (P := fun _ => False) (n := 0) (keeps_throw _)
          fun _ h => h.elim).mono (Nat.zero_le _)
      | none =>
        obtain ⟨(hvalue : value.Kept named v), hrest⟩ := List.forall_mem_cons.mp h
        have hsize : argsSize (⟨none, value⟩ :: rest) = value.size + argsSize rest := by
          rw [argsSize]
        rw [Vocabulary.compileArgs_cons, hsize]
        refine ((hvalue.compileArg hv hscope hreceiver expected).bind fun p hp =>
          (checkType_keeps _ _ _ p).bind fun _ _ =>
            (ih hrest declared (position + 1)).bind fun ps hps =>
              keeps_pure (List.forall_mem_cons.mpr ⟨hp, hps⟩)).mono ?_
        omega

omit hv in
private theorem compileNamedArgs_keeps (hscope : ∀ t ∈ scope, t.Names named) (info : ResourceInfo)
    (resource : String) (seen : List String) :
    (v.compileNamedArgs scope info resource seen args).Keeps named (2 * argsSize args)
      fun ps => ∀ p ∈ ps, p.Tidy named := by
  induction args generalizing seen with
  | nil =>
    rw [Vocabulary.compileNamedArgs_nil]
    exact keeps_pure (List.forall_mem_nil _)
  | cons arg rest ih =>
    obtain ⟨key, value⟩ := arg
    cases key with
    | none =>
      rw [Vocabulary.compileNamedArgs_unnamed]
      exact (keeps_throw _).mono (Nat.zero_le _)
    | some key =>
      obtain ⟨(hvalue : value.Kept named v), hrest⟩ := List.forall_mem_cons.mp h
      have hsize : argsSize (⟨some key, value⟩ :: rest) = value.size + argsSize rest := by
        rw [argsSize]
      rw [Vocabulary.compileNamedArgs_cons, hsize]
      refine Build.Keeps.unless ?_
      split
      · exact (keeps_throw _).mono (Nat.zero_le _)
      · refine ((keeps_operand hvalue.ordered (hvalue.keeps scope hscope)).bind fun p hp =>
          (checkType_keeps _ _ _ p).bind fun _ _ => (ih hrest _).bind fun ps hps =>
            keeps_pure ?_).mono ?_
        · exact List.forall_mem_cons.mpr
            ⟨Primitive.tidy_scalar .string _ trivial, List.forall_mem_cons.mpr ⟨hp, hps⟩⟩
        · omega

theorem fill_keeps (hscope : ∀ t ∈ scope, t.Names named) (signature : Signature) (receiver : Ty)
    (hreceiver : receiver.Names named) :
    (do Vocabulary.checkCount name signature args.length
        v.compileArgs scope name signature.required receiver args signature.args 1 :
      Build (List Primitive)).Keeps named (2 * argsSize args) fun ps => ∀ p ∈ ps, p.Tidy named :=
  ((checkCount_keeps _ _ _).bind fun _ _ =>
    compileArgs_keeps hv h hscope _ hreceiver _ 1).mono (by omega)

private theorem keeps_call {receiver : Expr} (hreceiver : receiver.Keeps named v) :
    (call receiver name args).Keeps named v := by
  intro scope hscope
  have hsize : (call receiver name args).size = receiver.size + argsSize args + 1 := by rw [size]
  rw [Vocabulary.compileExpr_call, hsize]
  exact ((hreceiver scope hscope).bind fun r _ => keeps_get fun code hcode =>
    method_keeps hv (hcode.chunkType r) (fill_keeps hv h hscope) _).mono (by omega)

private theorem keeps_root : (root name args).Keeps named v := by
  intro scope hscope
  have hsize : (root name args).size = argsSize args + 1 := by rw [size]
  rw [Vocabulary.compileExpr_root, hsize]
  split
  · next bound hbound =>
    obtain ⟨t, ht, hfield⟩ := Option.bind_eq_some_iff.mp hbound
    obtain ⟨_, _, rfl⟩ := Option.map_eq_some_iff.mp hfield
    exact (method_keeps hv (hscope t ht) (fill_keeps hv h hscope) _).mono (by omega)
  · exact ((constructible_keeps hv name).bind fun info hname =>
      (compileNamedArgs_keeps h hscope info name []).bind fun ps hps =>
        keeps_emit (Chunk.tidy_call name (.resource name) 0 hname hps)).mono (by omega)

end Assemble

private theorem Ordered.keeps {e : Expr} (h : e.Ordered) (hv : v.Names named) :
    e.Keeps named v := by
  -- by size, since the expressions in the blocks of a call are two levels below it
  induction hsize : e.size using Nat.strongRecOn generalizing e with
  | _ n ih =>
    subst hsize
    have hlower {args : List (Arg Expr)} (hargs : ∀ arg ∈ args, arg.value.Ordered)
        (hlt : argsSize args < e.size) : ∀ arg ∈ args, arg.value.Kept named v := by
      refine fun arg harg => ⟨hargs arg harg, ih _ ?_ (hargs arg harg) rfl, fun body hbody f hf =>
        ih _ ?_ ?_ rfl⟩
      · have := size_le_argsSize harg
        omega
      · have harg := size_le_argsSize harg
        have hf := size_le_bodySize hf
        rw [hbody, size] at harg
        omega
      · have hblock := hargs arg harg
        rw [hbody] at hblock
        cases hblock with
        | block hbodyOrdered => exact hbodyOrdered f hf
    cases h with
    | literal hl =>
      intro scope _
      rw [Vocabulary.compileExpr_literal]
      exact ((keeps_ofExcept fun p => hl.toPrimitive_tidy).bind fun p hp =>
        keeps_emit (Chunk.tidy_ofPrimitive hp)).mono (by rw [size]; omega)
    | element =>
      intro scope _
      rw [Vocabulary.compileExpr_element]
      split
      · exact (keeps_pure trivial).mono (Nat.zero_le _)
      · exact (keeps_throw _).mono (Nat.zero_le _)
    | block =>
      intro scope _
      rw [Vocabulary.compileExpr_block]
      exact (keeps_throw _).mono (Nat.zero_le _)
    | root hargs => exact keeps_root hv (hlower hargs (by rw [size]; omega))
    | call hreceiver hargs =>
      exact keeps_call hv (hlower hargs (by rw [size]; omega))
        (ih _ (by rw [size]; omega) hreceiver rfl)

end Expr

/-- A compiled code is tidy. (The chunks of a query of 2 ^ 30 expressions could not all be
numbered.) -/
theorem Vocabulary.Names.tidy_of_compile (hv : v.Names named) {digest : Digest} {query : List Expr}
    (hordered : ∀ e ∈ query, e.Ordered) (hsize : 2 * Expr.bodySize query < 2 ^ 31)
    (h : v.compile digest query = .ok code) : code.Tidy named := by
  rw [compile] at h
  split at h
  · next built hbuilt =>
    obtain rfl := Except.ok.inj h
    have hscope : ∀ t ∈ (none : Option Ty), t.Names named :=
      fun t ht => absurd ht (Option.not_mem_none t)
    have hkeeps := Expr.compileBody_keeps (fun e he => (hordered e he).keeps hv) hscope
    obtain ⟨htidy, hcount, _⟩ := hkeeps _ () built Code.tidy_empty hbuilt
    have hempty : Code.empty.count = 0 := rfl
    exact htidy.stamp (by omega) digest
  · cases h

end AssetQuery
