import AssetQuery.Proofs.Eval.Recursion
import AssetQuery.Proofs.Except

/-!
# Where data stands for no failure

Where there are no resources, data that stands for a failure comes only from the properties that a
code is given. A block is given none such: what it is about is an item of a list.
-/

namespace AssetQuery

variable {α : Type}

/-- Whether no property of a frame stands for a failure. -/
def Frame.Faultless (frame : Frame) : Prop :=
  ∀ name data, frame.props.find? name = some data → data.error = none

theorem Frame.faultless_ofBlock (block : Code) {element : Data} (h : element.error = none) :
    (Frame.ofBlock block element).Faultless := by
  intro name data hdata
  rw [ofBlock, Dict.find?_insert] at hdata
  split at hdata
  · exact Option.some.inj hdata ▸ h
  · cases hdata

namespace Builtin

/-- Whether data that is given stands for no failure. -/
def Faultless (x : Except EvalError Data) : Prop := ∀ data, x = .ok data → data.error = none

theorem faultless_of (v : Value) (t : Ty) : Faultless (.ok (.of v t)) := by
  rintro data ⟨⟩
  rfl

theorem Faultless.bind {x : Except EvalError α} {f : α → Except EvalError Data}
    (hf : ∀ a, Faultless (f a)) : Faultless (x >>= f) := by
  intro data h
  obtain ⟨a, _, h⟩ := Except.bind_eq_ok.mp h
  exact hf a data h

variable (name : String) (t : Ty) (receiver : Data) (args : List Data)

theorem faultless_length : Faultless (length receiver) := by
  rw [length]
  split
  · exact faultless_of _ _
  · exact faultless_of _ _
  · exact faultless_of _ _
  · exact nofun

private theorem faultless_ofArray : Faultless (ofArray name t receiver args) := by
  simp only [ofArray]
  split
  · exact .bind fun _ => .bind fun _ => faultless_of _ _
  · exact faultless_length receiver
  · exact .bind fun _ => .bind fun _ => faultless_of _ _
  · exact nofun

private theorem faultless_ofMap : Faultless (ofMap name t receiver args) := by
  simp only [ofMap]
  split
  · exact .bind fun _ => .bind fun _ => faultless_of _ _
  · exact faultless_length receiver
  · exact .bind fun _ => faultless_of _ _
  · exact .bind fun _ => faultless_of _ _
  · exact nofun

private theorem faultless_ofString : Faultless (ofString name receiver args) := by
  simp only [ofString]
  split
  · exact faultless_length receiver
  · split
    · split
      · exact .bind fun _ => faultless_of _ _
      · split
        · exact faultless_of _ _
        · exact nofun
      · exact faultless_of _ _
      · exact faultless_of _ _
      · exact nofun
    · exact nofun

private theorem faultless_ofBool : Faultless (ofBool name receiver args) := by
  simp only [ofBool]
  split
  · split
    · exact faultless_of _ _
    · exact nofun
  · exact nofun

private theorem faultless_plain : Faultless (plain name t receiver args) := by
  rw [plain]
  split
  · exact faultless_ofArray name t receiver args
  · exact faultless_ofMap name t receiver args
  · exact faultless_ofString name receiver args
  · exact faultless_ofBool name receiver args
  · exact nofun

end Builtin

namespace Plain

/-- What is given stands for no failure, however a computation fails. -/
abbrev Faultless (x : Plain Data) : Prop := Ensures (fun _ => True) x fun data => data.error = none

theorem ignored (x : Plain α) : Ensures (fun _ => True) x fun _ => True :=
  ensures_true (fun _ => trivial) x

private theorem faultless_apply (block : Ref → Data → Plain Row) (name : String) (t : Ty)
    (receiver : Data) (args : List Data) :
    Faultless (Builtin.apply block name t receiver args) := by
  simp only [Builtin.apply]
  split
  · exact ensures_pure rfl
  · split
    · exact ensures_pure rfl
    · split
      · refine (ignored _).bind fun k _ => (ignored _).bind fun items _ => ?_
        split
        · exact (ignored _).bind fun _ _ => ensures_pure rfl
        · exact (ignored _).bind fun _ _ => ensures_pure rfl
      · exact ensures_ofExcept (Builtin.faultless_plain name t receiver args) fun _ _ => trivial

private theorem faultless_toData (p : Primitive) : Faultless (Eval.ofSerial p.toData) := by
  refine ensures_ofSerial (fun data hdata => ?_) fun _ => trivial
  obtain ⟨v, _, hdata⟩ := Except.bind_eq_ok.mp hdata
  exact Except.ok.inj hdata ▸ rfl

private theorem faultless_value {frame : Frame} (hframe : frame.Faultless) (depth : Nat) (r : Ref) :
    Faultless (value .empty depth frame r) := by
  induction depth generalizing r with
  | zero => exact nofun
  | succ depth ih =>
    simp only [value, Eval.chunk]
    split
    · exact ensures_throw trivial
    · next c _ =>
      split
      · cases c.primitive with
        | none => exact ensures_pure rfl
        | some p =>
          rw [Eval.constant]
          split
          · refine (ignored _).bind fun target _ => ?_
            split
            · exact ensures_throw trivial
            · exact ih target
          · exact faultless_toData p
      · split
        · next data hdata => exact ensures_pure (hframe _ data hdata)
        · exact ensures_throw trivial
      · simp only [Eval.call]
        split
        · exact (ignored _).bind fun args _ => ensures_throw trivial
        · refine (ih _).bind fun receiver hreceiver => ?_
          have hreads : Eval.readsField (requests .empty frame (value .empty depth)) receiver.typ
              c.id = false := by
            simp [Eval.readsField, requests, Outside.empty]
          simp only [hreceiver, hreads]
          exact (ignored _).bind fun args _ => faultless_apply _ _ _ _ _

end Plain

theorem Frame.Faultless.evaluates {frame : Frame} (h : frame.Faultless) {r : Ref} {data : Data}
    (hr : frame.Evaluates r (.ok data)) : data.error = none := by
  obtain ⟨depth, hr⟩ := hr
  exact Plain.faultless_value h depth r _ hr

end AssetQuery
