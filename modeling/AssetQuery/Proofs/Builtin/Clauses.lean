import AssetQuery.Expr.Evaluate

/-!
# Functions with blocks

The functions that go through a list item by item keep the items that a filter keeps and make the
maps that the rows of all items make. So what a call gives is what the function gives that stands
for its name, whatever way the rows come about.
-/

namespace AssetQuery

section Traversal

variable {α β γ : Type} {m : Type → Type} [Monad m] [LawfulMonad m]

theorem mapM_map_eq (f : α → m β) (g : β → γ) (as : List α) :
    (as.mapM fun a => g <$> f a) = List.map g <$> as.mapM f := by
  induction as with
  | nil => simp
  | cons a rest ih =>
    rw [List.mapM_cons, List.mapM_cons, ih]
    simp

theorem Builtin.projectItems_eq (block : Value → ExceptT EvalError m Row) (items : List Value) :
    Builtin.projectItems block items = List.map Row.toValue <$> items.mapM block := by
  induction items with
  | nil => simp [Builtin.projectItems]
  | cons item rest ih =>
    rw [Builtin.projectItems, List.mapM_cons, ih]
    simp

private theorem Builtin.keepItems_eq (block : Value → ExceptT EvalError m Row)
    (items : List Value) : Builtin.keepItems block items =
      (fun verdicts => ((items.zip verdicts).filter (·.2)).map (·.1)) <$>
        items.mapM fun item => block item >>= fun row => MonadExcept.ofExcept row.holds := by
  induction items with
  | nil => simp [Builtin.keepItems]
  | cons item rest ih =>
    rw [Builtin.keepItems, List.mapM_cons, ih, bind_assoc, map_bind]
    refine bind_congr fun row => ?_
    cases hfault : row.fault? with
    | some fault => simp [Row.holds, hfault, MonadExcept.ofExcept]
    | none =>
      have hholds : (MonadExcept.ofExcept row.holds : ExceptT EvalError m Bool) =
          pure row.truthy := by
        rw [Row.holds, hfault]
        rfl
      rw [hholds, pure_bind, map_bind, map_eq_pure_bind, bind_assoc]
      refine bind_congr fun verdicts => ?_
      cases row.truthy <;> simp

end Traversal

namespace Builtin

section Calls

variable {α β : Type}

theorem run_bind_eq {x : ExceptT EvalError Id α} {x' : Except EvalError α} (hx : x.run = x')
    {f : α → ExceptT EvalError Id β} {f' : α → Except EvalError β} (hf : ∀ a, (f a).run = f' a) :
    (x >>= f).run = x' >>= f' := by
  subst hx
  rw [ExceptT.run_bind]
  cases hrun : x.run with
  | ok a => exact hf a
  | error e => rfl

theorem run_ofExcept_eq (x : Except EvalError α) :
    (MonadExcept.ofExcept x : ExceptT EvalError Id α).run = x := by
  cases x <;> rfl

theorem run_mapM_eq {f : α → ExceptT EvalError Id β} {f' : α → Except EvalError β}
    (hf : ∀ a, (f a).run = f' a) (as : List α) : (as.mapM f).run = as.mapM f' := by
  induction as with
  | nil => rfl
  | cons a rest ih =>
    rw [List.mapM_cons, List.mapM_cons]
    exact run_bind_eq (hf a) fun b => run_bind_eq ih fun bs => rfl

private theorem run_keepItems_eq (row : Value → Except EvalError Row) (items : List Value) :
    (keepItems (m := Id) row items).run = filtered row items := by
  rw [keepItems_eq, map_eq_pure_bind]
  exact run_bind_eq (run_mapM_eq (fun item => run_bind_eq rfl fun row => run_ofExcept_eq _) items)
    fun verdicts => rfl

private theorem run_projectItems_eq (row : Value → Except EvalError Row) (items : List Value) :
    (projectItems (m := Id) row items).run = projected row items := by
  rw [projectItems_eq, map_eq_pure_bind]
  exact run_bind_eq (run_mapM_eq (fun item => rfl) items) fun rows => rfl

end Calls

theorem RunsBlock.ofName?_eq_none {receiver : Ty} {name : String} (h : RunsBlock receiver name) :
    Comparison.ofName? name = none := by
  rcases h.2 with rfl | rfl
  · rfl
  · rfl

section Blocks

variable {m : Type → Type} [Monad m] {block : Ref → Data → ExceptT EvalError m Row}
  {name : String} {t : Ty} {receiver : Data}

theorem apply_of_not_runsBlock (h : RunsBlock receiver.typ name → receiver.value.isNil = true)
    (args : List Data) :
    apply block name t receiver args =
      apply (fun _ _ => throw (.missingProperty "_")) name t receiver args := by
  cases hnil : receiver.value.isNil with
  | true => simp only [apply, hnil, if_true]
  | false =>
    have hblock : ¬((decide (receiver.typ.underlying = .arrayLike) &&
        (decide (name = "where") || decide (name = projection))) = true) := by
      simpa [RunsBlock, hnil] using h
    simp only [apply, if_neg hblock]

theorem apply_of_runsBlock (h : RunsBlock receiver.typ name) (hnil : receiver.value.isNil = false)
    (args : List Data) :
    apply block name t receiver args = do
      let r ← MonadExcept.ofExcept (blockArg name args)
      let items ← MonadExcept.ofExcept (items name receiver)
      let run (item : Value) := block r (element receiver.typ item)
      if name = "where" then return .of (.array (← keepItems run items)) receiver.typ
      else return .of (.array (← projectItems run items)) (.array (.map .string .any)) := by
  have hruns : (decide (receiver.typ.underlying = .arrayLike) &&
      (decide (name = "where") || decide (name = projection))) = true := by
    simpa [RunsBlock] using h
  simp only [apply, h.ofName?_eq_none, hnil, if_pos hruns, Bool.false_eq_true, if_false]

/-- A function that runs a block runs the one that it is given. -/
theorem apply_function [LawfulMonad m] (h : RunsBlock receiver.typ name) (r r' : Ref) (typ : Ty) :
    apply block name t receiver [.of (.function r) typ] =
      apply (fun _ => block r) name t receiver [.of (.function r') typ] := by
  have hgiven (k : Ref) (typ : Ty) :
      (MonadExcept.ofExcept (blockArg name [.of (.function k) typ]) : ExceptT EvalError m Ref) =
        pure k := rfl
  cases hnil : receiver.value.isNil with
  | true => simp only [apply, h.ofName?_eq_none, hnil, if_true]
  | false => simp only [apply_of_runsBlock h hnil, hgiven, pure_bind]

end Blocks

/-- A call gives what the function gives that stands for its name. -/
theorem dispatch_eq {row : Data → Except EvalError Row} {name function : String} {t : Ty}
    {receiver : Data} {args : List Data}
    (h : resolve? receiver.typ name (args.map (·.typ)) = some (function, t)) :
    dispatch row name receiver args =
      (apply (m := Id) (fun _ item => row item) function t receiver args).run := by
  rw [dispatch, h]
  show ite _ _ _ = _
  split
  · next hruns =>
    rw [apply_of_runsBlock hruns.1 hruns.2]
    refine (run_bind_eq (run_ofExcept_eq _) fun r => ?_).symm
    refine run_bind_eq (run_ofExcept_eq _) fun items => ?_
    split
    · exact run_bind_eq (run_keepItems_eq _ items) fun kept => rfl
    · exact run_bind_eq (run_projectItems_eq _ items) fun rows => rfl
  · next hplain =>
    rw [apply_of_not_runsBlock fun hruns => ?_]
    cases hnil : receiver.value.isNil with
    | true => rfl
    | false => exact absurd ⟨hruns, hnil⟩ hplain

end Builtin

end AssetQuery
