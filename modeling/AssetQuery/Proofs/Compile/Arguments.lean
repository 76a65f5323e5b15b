import AssetQuery.Proofs.Compile.Build

/-!
# Checking arguments

The arguments of a call are checked from the first to the last against what is declared of them.
They are taken exactly if there are enough of them and not too many and each, on the code that the
ones before it leave behind, has no name, compiles and has a type that fits. If they are not taken,
the error is that there are too many or that of the first position at which one is not taken.
-/

namespace AssetQuery

open Build (yields_bind yields_pure yields_operandType yields_ofExcept yields_block not_yields_throw
  fails_bind fails_throw fails_ofExcept fails_block not_fails_pure not_fails_operandType)

/-- Whether an expression has a chunk of its own when it is an argument. -/
def Expr.hasChunk : Expr → Bool
  | .literal _ | .block _ => false
  | .root .. | .call .. | .element => true

namespace Vocabulary

variable {F : Type} {v : Vocabulary F} {scope : Option Ty} {function : String} {required : Nat}
  {receiver expected : Ty} {declared : List Ty} {position : Nat} {code code' : Code}
  {e : CompileError}

/-- Inside a block the name of a field is called on the element. -/
theorem compileExpr_field {bound : Ty} {name : String} {field : Field}
    (h : v.field? bound name = some field) (args : List (Arg Expr)) :
    v.compileExpr (some bound) (.root name args) =
      v.method bound 1 name args.length (v.arguments (some bound) name args) := by
  rw [compileExpr_root, Option.bind_some, h]
  rfl

section Values

/-- What a block on a receiver is about: an item of an array or of the list that a resource is. A
receiver without a type of items is itself what the block is about. -/
inductive Binds (v : Vocabulary F) : (receiver bound : Ty) → Prop
  | item {elem : Ty} : Binds v (.array elem) elem
  | listed {resource : String} {entry : ResourceEntry F} {elem : Ty} :
    v.registry.resource? resource = some entry → entry.info.listType = some elem →
    Binds v (.resource resource) elem
  | whole {receiver : Ty} : (∀ elem, receiver ≠ .array elem) →
    (∀ resource entry, receiver = .resource resource →
      v.registry.resource? resource = some entry → entry.info.listType = none) →
    Binds v receiver receiver

/-- What the value of an argument compiles to where `expected` is declared, and the code after it:
a constant as it is, a block, with its whole body, as a function of what it is about, anything else
as its chunk. Blocks compile only where a function is declared. -/
inductive Compiles (v : Vocabulary F) (scope : Option Ty) (receiver : Ty) (code : Code) :
    Expr → (expected : Ty) → Primitive → Code → Prop
  | constant {l : Literal} {expected : Ty} {p : Primitive} : l.toPrimitive = .ok p →
    Compiles v scope receiver code (.literal l) expected p code
  | block {body : List Expr} {bound : Ty} {function : Code} : v.Binds receiver bound →
    (v.compileBody (some bound) body).Yields (Build.blockStart bound) () function →
    Compiles v scope receiver code (.block body) .functionLike
      (.function (code.addFunction function).lastFunction) (code.addFunction function)
  | chunk {value : Expr} {expected : Ty} {r : Ref} {code' : Code} : value.hasChunk →
    (v.compileExpr scope value).Yields code r code' →
    Compiles v scope receiver code value expected (.ref r) code'

/-- Why the value of an argument does not compile where `expected` is declared, and the code that
this leaves behind. -/
inductive Rejects (v : Vocabulary F) (scope : Option Ty) (receiver : Ty) (code : Code) :
    Expr → (expected : Ty) → CompileError → Code → Prop
  | constant {l : Literal} {expected : Ty} {e : CompileError} : l.toPrimitive = .error e →
    Rejects v scope receiver code (.literal l) expected e code
  | misplaced {body : List Expr} {expected : Ty} : expected ≠ .functionLike →
    Rejects v scope receiver code (.block body) expected .unexpectedBlock code
  | body {body : List Expr} {bound : Ty} {e : CompileError} {function : Code} :
    v.Binds receiver bound →
    (v.compileBody (some bound) body).Fails (Build.blockStart bound) e function →
    Rejects v scope receiver code (.block body) .functionLike e code
  | chunk {value : Expr} {expected : Ty} {e : CompileError} {code' : Code} : value.hasChunk →
    (v.compileExpr scope value).Fails code e code' →
    Rejects v scope receiver code value expected e code'

variable {value : Expr} {p : Primitive}

theorem binds_iff {bound : Ty} : v.Binds receiver bound ↔ v.blockBinding receiver = bound := by
  constructor
  · intro h
    cases h with
    | item => rfl
    | listed hentry hlist => simp [blockBinding, hentry, hlist]
    | whole harray hlist =>
      cases receiver with
      | array elem => exact absurd rfl (harray elem)
      | resource name =>
        cases hentry : v.registry.resource? name with
        | none => simp [blockBinding, hentry]
        | some entry => simp [blockBinding, hentry, hlist name entry rfl hentry]
      | _ => rfl
  · rintro rfl
    cases receiver with
    | array elem => exact .item
    | resource name =>
      cases hlist : (v.registry.resource? name).bind fun e => e.info.listType with
      | none =>
        rw [blockBinding, hlist]
        refine .whole nofun ?_
        rintro _ entry ⟨⟩ hentry
        rwa [hentry, Option.bind_some] at hlist
      | some elem =>
        obtain ⟨entry, hentry, helem⟩ := Option.bind_eq_some_iff.mp hlist
        rw [blockBinding, hlist]
        exact .listed hentry helem
    | _ => exact .whole nofun nofun

theorem compileArg_of_hasChunk (h : value.hasChunk) :
    v.compileArg scope receiver value expected =
      (do return .ref (← v.compileExpr scope value) : Build Primitive) := by
  cases value with
  | literal l => cases h
  | block body => cases h
  | _ => rfl

theorem compileArg_of_misplaced {body : List Expr} (h : expected ≠ .functionLike) :
    v.compileArg scope receiver (.block body) expected = throw .unexpectedBlock := by
  cases expected with
  | functionLike => exact absurd rfl h
  | _ => rfl

theorem yields_compileArg :
    (v.compileArg scope receiver value expected).Yields code p code' ↔
      v.Compiles scope receiver code value expected p code' := by
  constructor
  · intro h
    by_cases hchunk : value.hasChunk
    · rw [compileArg_of_hasChunk hchunk] at h
      obtain ⟨r, _, hr, h⟩ := yields_bind.mp h
      obtain ⟨rfl, rfl⟩ := yields_pure.mp h
      exact .chunk hchunk hr
    · cases value with
      | literal l =>
        obtain ⟨hp, rfl⟩ := yields_ofExcept.mp h
        exact .constant hp
      | block body =>
        by_cases hexpected : expected = .functionLike
        · subst hexpected
          obtain ⟨function, hbody, rfl, rfl⟩ := yields_block.mp h
          exact .block (binds_iff.mpr rfl) hbody
        · rw [compileArg_of_misplaced hexpected] at h
          exact absurd h not_yields_throw
      | _ => exact absurd rfl hchunk
  · intro h
    cases h with
    | constant hp => exact yields_ofExcept.mpr ⟨hp, rfl⟩
    | block hbound hbody =>
      obtain rfl := binds_iff.mp hbound
      exact yields_block.mpr ⟨_, hbody, rfl, rfl⟩
    | chunk hchunk hr =>
      rw [compileArg_of_hasChunk hchunk]
      exact yields_bind.mpr ⟨_, _, hr, yields_pure.mpr ⟨rfl, rfl⟩⟩

private theorem fails_compileArg :
    (v.compileArg scope receiver value expected).Fails code e code' ↔
      v.Rejects scope receiver code value expected e code' := by
  constructor
  · intro h
    by_cases hchunk : value.hasChunk
    · rw [compileArg_of_hasChunk hchunk] at h
      rcases fails_bind.mp h with h | ⟨r, _, _, h⟩
      · exact .chunk hchunk h
      · exact absurd h not_fails_pure
    · cases value with
      | literal l =>
        obtain ⟨hp, rfl⟩ := fails_ofExcept.mp h
        exact .constant hp
      | block body =>
        by_cases hexpected : expected = .functionLike
        · subst hexpected
          obtain ⟨⟨function, hbody⟩, rfl⟩ := fails_block.mp h
          exact .body (binds_iff.mpr rfl) hbody
        · rw [compileArg_of_misplaced hexpected] at h
          obtain ⟨rfl, rfl⟩ := fails_throw.mp h
          exact .misplaced hexpected
      | _ => exact absurd rfl hchunk
  · intro h
    cases h with
    | constant hp => exact fails_ofExcept.mpr ⟨hp, rfl⟩
    | misplaced hexpected =>
      rw [compileArg_of_misplaced hexpected]
      exact fails_throw.mpr ⟨rfl, rfl⟩
    | body hbound hbody =>
      obtain rfl := binds_iff.mp hbound
      exact fails_block.mpr ⟨⟨_, hbody⟩, rfl⟩
    | chunk hchunk h =>
      rw [compileArg_of_hasChunk hchunk]
      exact fails_bind.mpr (.inl h)

end Values

section Positions

variable {arg : Arg Expr} {args rest : List (Arg Expr)} {ps : List Primitive}

/-- Whether an argument is taken where `expected` is declared: as what, and the code after it. -/
structure Takes (v : Vocabulary F) (scope : Option Ty) (receiver expected : Ty) (code : Code)
    (arg : Arg Expr) (p : Primitive) (code' : Code) : Prop where
  unnamed : arg.name = none
  compiles : v.Compiles scope receiver code arg.value expected p code'
  fits : (code'.dereference p).compatible expected = true

/-- Whether arguments are taken, each on the code after the one before it. Not all that is declared
has to be used up. -/
inductive TakesAll (v : Vocabulary F) (scope : Option Ty) (receiver : Ty) :
    (declared : List Ty) → Code → List (Arg Expr) → List Primitive → Code → Prop
  | nil {declared : List Ty} {code : Code} : TakesAll v scope receiver declared code [] [] code
  | cons {expected : Ty} {declared : List Ty} {code mid code' : Code} {arg : Arg Expr}
    {rest : List (Arg Expr)} {p : Primitive} {ps : List Primitive} :
    v.Takes scope receiver expected code arg p mid →
    TakesAll v scope receiver declared mid rest ps code' →
    TakesAll v scope receiver (expected :: declared) code (arg :: rest) (p :: ps) code'

/-- Why what stands at a position where `expected` is declared is not taken, and the code that this
leaves behind. -/
inductive FailsAt (v : Vocabulary F) (scope : Option Ty) (function : String) (required : Nat)
    (receiver : Ty) (position : Nat) (expected : Ty) (code : Code) :
    Option (Arg Expr) → CompileError → Code → Prop
  | missing : position ≤ required →
    FailsAt v scope function required receiver position expected code none
      (.missingArgument function position expected) code
  | named {name : String} {value : Expr} :
    FailsAt v scope function required receiver position expected code (some ⟨some name, value⟩)
      (.namedArgument function name) code
  | rejected {value : Expr} {e : CompileError} {code' : Code} :
    v.Rejects scope receiver code value expected e code' →
    FailsAt v scope function required receiver position expected code (some ⟨none, value⟩) e code'
  | unfit {value : Expr} {p : Primitive} {code' : Code} :
    v.Compiles scope receiver code value expected p code' →
    (code'.dereference p).compatible expected = false →
    FailsAt v scope function required receiver position expected code (some ⟨none, value⟩)
      (.typeMismatch function position expected (code'.dereference p)) code'

private theorem TakesAll.length (h : v.TakesAll scope receiver declared code args ps code') :
    ps.length = args.length := by
  induction h with
  | nil => rfl
  | cons _ _ ih => rw [List.length_cons, List.length_cons, ih]

private theorem fails_checkCount {signature : Signature} {count : Nat} :
    (checkCount function signature count).Fails code e code' ↔
      signature.args.length < count ∧
        .tooManyArguments function signature.args.length count = e ∧ code = code' := by
  rw [checkCount]
  split
  · next h => rw [fails_throw, and_iff_right h]
  · next h => exact iff_of_false not_fails_pure fun hmany => h hmany.1

private theorem fails_checkType {p : Primitive} :
    (checkType function position expected p).Fails code e code' ↔
      (code.dereference p).compatible expected = false ∧
        .typeMismatch function position expected (code.dereference p) = e ∧ code = code' := by
  simp only [checkType, fails_bind, not_fails_operandType, false_or, yields_operandType]
  constructor
  · rintro ⟨_, _, ⟨rfl, rfl⟩, h⟩
    split at h
    · next hfits => exact ⟨by simpa using hfits, fails_throw.mp h⟩
    · exact absurd h not_fails_pure
  · rintro ⟨hfits, hthrow⟩
    refine ⟨_, _, ⟨rfl, rfl⟩, ?_⟩
    rw [hfits]
    exact fails_throw.mpr hthrow

theorem fails_compileArgs_named {name : String} {value : Expr} :
    (v.compileArgs scope function required receiver (⟨some name, value⟩ :: rest)
      (expected :: declared) position).Fails code e code' ↔
      .namedArgument function name = e ∧ code = code' := by
  rw [compileArgs_named, fails_bind, fails_throw]
  constructor
  · rintro (h | ⟨_, _, hthrow, _⟩)
    · exact h
    · exact absurd hthrow not_yields_throw
  · exact .inl

private theorem yields_compileArgs_cons :
    (v.compileArgs scope function required receiver (arg :: rest) (expected :: declared)
      position).Yields code ps code' ↔
      ∃ p mid qs, v.Takes scope receiver expected code arg p mid ∧
        (v.compileArgs scope function required receiver rest declared (position + 1)).Yields
          mid qs code' ∧ p :: qs = ps := by
  obtain ⟨_ | name, value⟩ := arg
  · simp only [compileArgs_cons, yields_bind, yields_compileArg, yields_checkType, yields_pure]
    constructor
    · rintro ⟨p, mid, hp, _, _, ⟨hfits, rfl⟩, qs, _, hqs, rfl, rfl⟩
      exact ⟨p, _, qs, ⟨rfl, hp, hfits⟩, hqs, rfl⟩
    · rintro ⟨p, mid, qs, ⟨_, hp, hfits⟩, hqs, rfl⟩
      exact ⟨p, mid, hp, (), _, ⟨hfits, rfl⟩, qs, _, hqs, rfl, rfl⟩
  · constructor
    · intro h
      exact absurd (fails_compileArgs_named.mpr ⟨rfl, rfl⟩) h.not_fails
    · rintro ⟨_, _, _, htaken, _⟩
      cases htaken.unnamed

private theorem fails_compileArgs_cons :
    (v.compileArgs scope function required receiver (arg :: rest) (expected :: declared)
      position).Fails code e code' ↔
      v.FailsAt scope function required receiver position expected code (some arg) e code' ∨
      ∃ p mid, v.Takes scope receiver expected code arg p mid ∧
        (v.compileArgs scope function required receiver rest declared (position + 1)).Fails
          mid e code' := by
  obtain ⟨_ | name, value⟩ := arg
  · simp only [compileArgs_cons, fails_bind, fails_compileArg, yields_compileArg, fails_checkType,
      yields_checkType, not_fails_pure, and_false, exists_false, or_false]
    constructor
    · rintro (h | ⟨p, mid, hp, ⟨hunfit, rfl, rfl⟩ | ⟨_, _, ⟨hfits, rfl⟩, h⟩⟩)
      · exact .inl (.rejected h)
      · exact .inl (.unfit hp hunfit)
      · exact .inr ⟨p, _, ⟨rfl, hp, hfits⟩, h⟩
    · rintro (h | ⟨p, mid, ⟨_, hp, hfits⟩, h⟩)
      · cases h with
        | rejected h => exact .inl h
        | unfit hp hunfit => exact .inr ⟨_, _, hp, .inl ⟨hunfit, rfl, rfl⟩⟩
      · exact .inr ⟨p, mid, hp, .inr ⟨(), _, ⟨hfits, rfl⟩, h⟩⟩
  · rw [fails_compileArgs_named]
    constructor
    · rintro ⟨rfl, rfl⟩
      exact .inl .named
    · rintro (h | ⟨_, _, htaken, _⟩)
      · cases h
        exact ⟨rfl, rfl⟩
      · cases htaken.unnamed

private theorem yields_compileArgs_nil (h : required < position + declared.length) :
    (v.compileArgs scope function required receiver [] declared position).Yields code ps code' ↔
      required < position ∧ [] = ps ∧ code = code' := by
  cases declared with
  | nil =>
    rw [compileArgs_done, yields_pure]
    exact (and_iff_right h).symm
  | cons expected declared =>
    rw [compileArgs_nil]
    split
    · next hmissing => exact iff_of_false not_yields_throw fun h => absurd h.1 (by omega)
    · next hgiven =>
      rw [yields_pure]
      exact (and_iff_right (by omega)).symm

private theorem fails_compileArgs_nil :
    (v.compileArgs scope function required receiver [] (expected :: declared) position).Fails
      code e code' ↔
      v.FailsAt scope function required receiver position expected code none e code' := by
  rw [compileArgs_nil]
  constructor
  · intro h
    split at h
    · next hmissing =>
      obtain ⟨rfl, rfl⟩ := fails_throw.mp h
      exact .missing hmissing
    · exact absurd h not_fails_pure
  · intro h
    cases h with
    | missing hmissing =>
      rw [if_pos hmissing]
      exact fails_throw.mpr ⟨rfl, rfl⟩

private theorem yields_compileArgs_iff (hdeclared : args.length ≤ declared.length)
    (hrequired : required < position + declared.length) :
    (v.compileArgs scope function required receiver args declared position).Yields code ps code' ↔
      required < position + args.length ∧
        v.TakesAll scope receiver declared code args ps code' := by
  induction args generalizing declared position code ps with
  | nil =>
    rw [yields_compileArgs_nil hrequired]
    refine and_congr_right fun _ => ?_
    constructor
    · rintro ⟨rfl, rfl⟩
      exact .nil
    · intro h
      cases h
      exact ⟨rfl, rfl⟩
  | cons arg rest ih =>
    cases declared with
    | nil => exact absurd hdeclared (Nat.not_succ_le_zero _)
    | cons expected declared =>
      simp only [List.length_cons] at hdeclared hrequired ⊢
      have hrest : rest.length ≤ declared.length := by omega
      have hmore : required < position + 1 + declared.length := by omega
      rw [yields_compileArgs_cons]
      simp only [ih hrest hmore]
      constructor
      · rintro ⟨p, mid, qs, htaken, ⟨hgiven, hrest⟩, rfl⟩
        exact ⟨by omega, .cons htaken hrest⟩
      · rintro ⟨hgiven, h⟩
        cases h with
        | cons htaken hrest => exact ⟨_, _, _, htaken, ⟨by omega, hrest⟩, rfl⟩

private theorem fails_compileArgs_iff :
    (v.compileArgs scope function required receiver args declared position).Fails code e code' ↔
      ∃ i ps mid expected, i ≤ args.length ∧
        v.TakesAll scope receiver declared code (args.take i) ps mid ∧
        declared[i]? = some expected ∧
        v.FailsAt scope function required receiver (position + i) expected mid args[i]? e
          code' := by
  induction args generalizing declared position code with
  | nil =>
    cases declared with
    | nil =>
      rw [compileArgs_done]
      refine iff_of_false not_fails_pure ?_
      rintro ⟨_, _, _, _, _, _, hexpected, _⟩
      cases hexpected
    | cons expected declared =>
      rw [fails_compileArgs_nil]
      constructor
      · intro h
        exact ⟨0, [], code, expected, Nat.le_refl 0, .nil, rfl, h⟩
      · rintro ⟨i, ps, mid, _, hi, htaken, hexpected, h⟩
        obtain rfl := Nat.le_zero.mp hi
        cases htaken
        cases hexpected
        exact h
  | cons arg rest ih =>
    cases declared with
    | nil =>
      rw [compileArgs_done]
      refine iff_of_false not_fails_pure ?_
      rintro ⟨_, _, _, _, _, _, hexpected, _⟩
      cases hexpected
    | cons expected declared =>
      rw [fails_compileArgs_cons]
      simp only [ih]
      constructor
      · rintro (h | ⟨p, mid, htaken, i, ps, last, found, hi, hrest, hfound, h⟩)
        · exact ⟨0, [], code, expected, Nat.zero_le _, .nil, rfl, h⟩
        · refine ⟨i + 1, p :: ps, last, found, Nat.succ_le_succ hi, .cons htaken hrest, hfound, ?_⟩
          rwa [Nat.add_right_comm, Nat.add_assoc] at h
      · rintro ⟨i, ps, mid, found, hi, htaken, hfound, h⟩
        cases i with
        | zero =>
          cases htaken
          cases hfound
          exact .inl h
        | succ i =>
          cases htaken with
          | cons hfirst hrest =>
            refine .inr ⟨_, _, hfirst, i, _, _, found, Nat.le_of_succ_le_succ hi, hrest, hfound, ?_⟩
            rwa [Nat.add_right_comm, Nat.add_assoc]

end Positions

section Signatures

variable {args : List (Arg Expr)} {signature : Signature}

private theorem yields_arguments_iff (hrequired : signature.required ≤ signature.args.length)
    {ps : List Primitive} :
    (v.arguments scope function args signature receiver).Yields code ps code' ↔
      signature.required ≤ args.length ∧ args.length ≤ signature.args.length ∧
        v.TakesAll scope receiver signature.args code args ps code' := by
  rw [arguments, yields_bind]
  simp only [yields_checkCount]
  constructor
  · rintro ⟨_, _, ⟨hcount, rfl⟩, h⟩
    obtain ⟨hgiven, h⟩ := (yields_compileArgs_iff hcount (by omega)).mp h
    exact ⟨by omega, hcount, h⟩
  · rintro ⟨hgiven, hcount, h⟩
    exact ⟨(), _, ⟨hcount, rfl⟩, (yields_compileArgs_iff hcount (by omega)).mpr ⟨by omega, h⟩⟩

private theorem fails_arguments_iff :
    (v.arguments scope function args signature receiver).Fails code e code' ↔
      (signature.args.length < args.length ∧
        .tooManyArguments function signature.args.length args.length = e ∧ code = code') ∨
      args.length ≤ signature.args.length ∧ ∃ i ps mid expected, i ≤ args.length ∧
        v.TakesAll scope receiver signature.args code (args.take i) ps mid ∧
        signature.args[i]? = some expected ∧
        v.FailsAt scope function signature.required receiver (1 + i) expected mid args[i]? e
          code' := by
  rw [arguments, fails_bind, fails_checkCount]
  simp only [yields_checkCount, fails_compileArgs_iff]
  refine or_congr_right ?_
  constructor
  · rintro ⟨_, _, ⟨hcount, rfl⟩, h⟩
    exact ⟨hcount, h⟩
  · rintro ⟨hcount, h⟩
    exact ⟨(), _, ⟨hcount, rfl⟩, h⟩

/-- The arguments of a call are taken exactly if there are as many as have to be there and no more
than are declared, and each, on the code after the ones before it, has no name, compiles and has a
type that fits; what they are taken as is as many primitives. Otherwise the error is that there are
too many of them or, if there are not, that of the first position at which one is not taken, all
before it being taken. -/
theorem arguments_checked (v : Vocabulary F) (scope : Option Ty) (function : String)
    (args : List (Arg Expr)) (signature : Signature) (receiver : Ty) (code : Code)
    (hrequired : signature.required ≤ signature.args.length) :
    (∀ ps code', (v.arguments scope function args signature receiver).Yields code ps code' ↔
      signature.required ≤ args.length ∧ args.length ≤ signature.args.length ∧
        ps.length = args.length ∧ v.TakesAll scope receiver signature.args code args ps code') ∧
    ∀ e code', (v.arguments scope function args signature receiver).Fails code e code' ↔
      (signature.args.length < args.length ∧
        .tooManyArguments function signature.args.length args.length = e ∧ code = code') ∨
      args.length ≤ signature.args.length ∧ ∃ i ps mid expected, i ≤ args.length ∧
        v.TakesAll scope receiver signature.args code (args.take i) ps mid ∧
        signature.args[i]? = some expected ∧
        v.FailsAt scope function signature.required receiver (1 + i) expected mid args[i]? e
          code' := by
  refine ⟨fun ps code' => ?_, fun e code' => fails_arguments_iff⟩
  rw [yields_arguments_iff hrequired]
  constructor
  · rintro ⟨hgiven, hcount, htaken⟩
    exact ⟨hgiven, hcount, htaken.length, htaken⟩
  · rintro ⟨hgiven, hcount, _, htaken⟩
    exact ⟨hgiven, hcount, htaken⟩

/-- A block and, if need be, a number. -/
def blockSignature : Signature := ⟨1, [.functionLike, .int]⟩

/-- The block that gives its element. -/
def elementArg : Arg Expr := ⟨none, .block [.element]⟩

private theorem takes_elementArg (v : Vocabulary F) : ∃ code',
    v.Takes none (.array .int) .functionLike Code.empty elementArg (.function 1) code' := by
  have hbody : (v.compileBody (some .int) [.element]).Yields (Build.blockStart .int) ()
      ((Build.blockStart .int).addEntrypoint 1 "_") := by
    simp only [compileBody_cons, compileBody_nil, compileExpr_element]
    rfl
  exact ⟨_, rfl, .block .item hbody, rfl⟩

/-- A block alone is taken. A text after it is not, and the block is kept; without the block there
is nothing to take. -/
theorem arguments_checked_block :
    blockSignature.required ≤ blockSignature.args.length ∧ ∃ code',
      ((⟨Registry.empty, .standard⟩ : Vocabulary Unit).arguments none "f" [elementArg]
        blockSignature (.array .int)).Yields Code.empty [.function 1] code' ∧
      ((⟨Registry.empty, .standard⟩ : Vocabulary Unit).arguments none "f"
        [elementArg, ⟨none, .literal (.string "a")⟩] blockSignature (.array .int)).Fails Code.empty
          (.typeMismatch "f" 2 .int .string) code' ∧
      ((⟨Registry.empty, .standard⟩ : Vocabulary Unit).arguments none "f" [] blockSignature
        (.array .int)).Fails Code.empty (.missingArgument "f" 1 .functionLike) Code.empty := by
  have hrequired : blockSignature.required ≤ blockSignature.args.length := by decide
  have hchecked := fun args => arguments_checked (⟨Registry.empty, .standard⟩ : Vocabulary Unit)
    none "f" args blockSignature (.array .int) Code.empty hrequired
  obtain ⟨code', htaken⟩ := takes_elementArg (⟨Registry.empty, .standard⟩ : Vocabulary Unit)
  refine ⟨hrequired, code', ?_, ?_, ?_⟩
  · exact ((hchecked [elementArg]).1 _ _).mpr ⟨by decide, by decide, rfl, .cons htaken .nil⟩
  · refine ((hchecked _).2 _ _).mpr (.inr ⟨by decide, 1, [.function 1], code', .int, by decide,
      .cons htaken .nil, rfl, ?_⟩)
    exact .unfit (p := .string "a") (.constant rfl) rfl
  · exact ((hchecked []).2 _ _).mpr (.inr ⟨by decide, 0, [], Code.empty, .functionLike,
      by decide, .nil, rfl, .missing (by decide)⟩)

end Signatures

end Vocabulary

end AssetQuery
