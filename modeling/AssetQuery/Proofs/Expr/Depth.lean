import AssetQuery.Proofs.Builtin.Clauses

/-!
# Evaluation without a limit

Evaluation by recursion on an expression never gives up at a limit to depth, as no function does.
-/

namespace AssetQuery

/-- Whether a computation does not give up at a limit to depth. -/
def Unlimited {α : Type} (x : Except EvalError α) : Prop :=
  ∀ most, x ≠ .error (.depthExceeded most)

namespace Unlimited

variable {α β : Type}

theorem ok (a : α) : Unlimited (.ok a : Except EvalError α) := nofun

theorem bind {x : Except EvalError α} {f : α → Except EvalError β} (hx : Unlimited x)
    (hf : ∀ a, Unlimited (f a)) : Unlimited (x >>= f) := by
  cases x with
  | ok a => exact hf a
  | error e =>
    intro most h
    exact hx most (congrArg Except.error (Except.error.inj h))

theorem refuse (function : String) (fault : ArgumentFault) :
    Unlimited (Builtin.refuse function fault : Except EvalError α) := nofun

theorem unknownFunction (name : String) (receiver : Ty) :
    Unlimited (.error (.unknownFunction name receiver) : Except EvalError α) := nofun

section Arguments

variable (name : String) (t : Ty) (receiver : Data) (args : List Data)

private theorem intArg : Unlimited (Builtin.intArg name args) := by
  rw [Builtin.intArg.eq_def]
  split
  · exact ok _
  · exact refuse _ _

theorem textArg : Unlimited (Builtin.textArg name args) := by
  rw [Builtin.textArg.eq_def]
  split
  · exact ok _
  · exact refuse _ _

private theorem blockArg : Unlimited (Builtin.blockArg name args) := by
  rw [Builtin.blockArg.eq_def]
  split
  · exact ok _
  · exact refuse _ _

theorem items : Unlimited (Builtin.items name receiver) := by
  rw [Builtin.items]
  split
  · exact ok _
  · exact refuse _ _

private theorem entries : Unlimited (Builtin.entries name receiver) := by
  rw [Builtin.entries]
  split
  · exact ok _
  · exact refuse _ _

theorem length : Unlimited (Builtin.length receiver) := by
  rw [Builtin.length]
  split
  · exact ok _
  · exact ok _
  · exact ok _
  · exact refuse _ _

private theorem ofArray : Unlimited (Builtin.ofArray name t receiver args) := by
  simp only [Builtin.ofArray]
  split
  · exact (intArg _ args).bind fun _ => (items _ receiver).bind fun _ => ok _
  · exact length receiver
  · exact (textArg _ args).bind fun _ => (items _ receiver).bind fun _ => ok _
  · exact unknownFunction _ _

private theorem ofMap : Unlimited (Builtin.ofMap name t receiver args) := by
  simp only [Builtin.ofMap]
  split
  · exact (textArg _ args).bind fun _ => (entries _ receiver).bind fun _ => ok _
  · exact length receiver
  · exact (entries _ receiver).bind fun _ => ok _
  · exact (entries _ receiver).bind fun _ => ok _
  · exact unknownFunction _ _

private theorem ofString : Unlimited (Builtin.ofString name receiver args) := by
  simp only [Builtin.ofString]
  split
  · exact length receiver
  · split
    · split
      · exact (textArg _ args).bind fun _ => ok _
      · split
        · exact ok _
        · exact refuse _ _
      · exact ok _
      · exact ok _
      · exact unknownFunction _ _
    · exact refuse _ _

private theorem ofBool : Unlimited (Builtin.ofBool name receiver args) := by
  simp only [Builtin.ofBool]
  split
  · split
    · exact ok _
    · exact refuse _ _
  · exact unknownFunction _ _

private theorem plain : Unlimited (Builtin.plain name t receiver args) := by
  rw [Builtin.plain]
  split
  · exact ofArray _ _ _ _
  · exact ofMap _ _ _ _
  · exact ofString _ _ _
  · exact ofBool _ _ _
  · exact unknownFunction _ _

end Arguments

section Blocks

theorem run_bind {x : ExceptT EvalError Id α} {f : α → ExceptT EvalError Id β}
    (hx : Unlimited x.run) (hf : ∀ a, Unlimited (f a).run) : Unlimited (x >>= f).run := by
  rw [ExceptT.run_bind]
  cases hrun : x.run with
  | ok a => exact hf a
  | error e =>
    rw [hrun] at hx
    intro most h
    exact hx most (congrArg Except.error (Except.error.inj h))

private theorem run_ofExcept {x : Except EvalError α} (h : Unlimited x) :
    Unlimited (MonadExcept.ofExcept x : ExceptT EvalError Id α).run := by
  cases x with
  | ok a => exact ok a
  | error e => exact h

variable {block : Value → ExceptT EvalError Id Row}

private theorem keepItems (h : ∀ item, Unlimited (block item).run) (items : List Value) :
    Unlimited (Builtin.keepItems block items).run := by
  induction items with
  | nil => exact ok []
  | cons item rest ih =>
    apply run_bind (h item)
    intro row
    split
    · exact nofun
    · exact run_bind ih fun kept => ok _

private theorem projectItems (h : ∀ item, Unlimited (block item).run) (items : List Value) :
    Unlimited (Builtin.projectItems block items).run := by
  induction items with
  | nil => exact ok []
  | cons item rest ih =>
    apply run_bind (h item)
    intro row
    exact run_bind ih fun rows => ok _

private theorem apply {block : Ref → Data → ExceptT EvalError Id Row}
    (h : ∀ r item, Unlimited (block r item).run) (name : String) (t : Ty) (receiver : Data)
    (args : List Data) : Unlimited (Builtin.apply block name t receiver args).run := by
  simp only [Builtin.apply]
  split
  · exact ok _
  · split
    · exact ok _
    · split
      · apply run_bind (run_ofExcept (blockArg name args))
        intro r
        apply run_bind (run_ofExcept (Unlimited.items name receiver))
        intro items
        split
        · exact run_bind (keepItems (fun _ => h r _) items) fun kept => ok _
        · exact run_bind (projectItems (fun _ => h r _) items) fun rows => ok _
      · exact run_ofExcept (plain name t receiver args)

private theorem dispatch {block : Data → Except EvalError Row} (h : ∀ item, Unlimited (block item))
    (name : String) (receiver : Data) (args : List Data) :
    Unlimited (Builtin.dispatch block name receiver args) := by
  cases hresolve : Builtin.resolve? receiver.typ name (args.map (·.typ)) with
  | none =>
    rw [Builtin.dispatch, hresolve]
    exact unknownFunction _ _
  | some found =>
    rw [Builtin.dispatch_eq hresolve]
    exact apply (fun _ item => h item) _ _ receiver args

end Blocks

end Unlimited

namespace Expr

mutual

theorem unlimited_evaluate (e : Expr) (item : Option Data) : Unlimited (e.evaluate item) := by
  cases e with
  | literal l => exact .ok _
  | element =>
    cases item with
    | none => exact nofun
    | some item => exact .ok item
  | root name args => exact nofun
  | block body => exact .ok _
  | call receiver name args =>
    rw [evaluate]
    apply (unlimited_evaluate receiver item).bind
    intro data
    apply (unlimited_evaluateArgs args item).bind
    intro values
    exact .dispatch (unlimited_evaluateBlock args) name data values

theorem unlimited_evaluateArgs (args : List (Arg Expr)) (item : Option Data) :
    Unlimited (evaluateArgs args item) := by
  cases args with
  | nil => exact .ok []
  | cons arg rest =>
    obtain ⟨name, value⟩ := arg
    rw [evaluateArgs]
    apply (unlimited_evaluate value item).bind
    intro data
    exact (unlimited_evaluateArgs rest item).bind fun values => .ok _

theorem unlimited_evaluateBlock (args : List (Arg Expr)) (item : Data) :
    Unlimited (evaluateBlock args item) := by
  cases args with
  | nil => exact .ok []
  | cons arg rest =>
    obtain ⟨name, value⟩ := arg
    cases value with
    | block body => exact unlimited_evaluateBody body item
    | literal l => exact unlimited_evaluateBlock rest item
    | root name args => exact unlimited_evaluateBlock rest item
    | call receiver name args => exact unlimited_evaluateBlock rest item
    | element => exact unlimited_evaluateBlock rest item

theorem unlimited_evaluateBody (body : List Expr) (item : Data) :
    Unlimited (evaluateBody body item) := by
  cases body with
  | nil => exact .ok []
  | cons e rest =>
    rw [evaluateBody]
    apply (unlimited_evaluate e (some item)).bind
    intro data
    exact (unlimited_evaluateBody rest item).bind fun row => .ok _

end

end Expr

end AssetQuery
