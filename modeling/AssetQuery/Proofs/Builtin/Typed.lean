import AssetQuery.Proofs.Builtin.Standard
import AssetQuery.Proofs.Value.Conforms
import Mathlib.Data.List.Forall2

/-!
# The standard functions on values of their types

On a receiver that is there, a function that runs no block gives a value of the type that it is
declared to give, or refuses an argument that is nil.
-/

namespace AssetQuery

namespace Builtin

/-- The functions of a dispatch class that do more than compare. -/
def tasks : (receiver : Ty) → List (String × Signature × ResultRule)
  | .arrayLike => [("[]", ⟨1, [.int]⟩, .child), ("length", ⟨0, []⟩, .fixed .int),
    ("where", ⟨1, [.functionLike]⟩, .receiver),
    (projection, ⟨1, [.functionLike]⟩, .fixed (.array (.map .string .any)))]
  | .mapLike => [("[]", ⟨1, [.string]⟩, .child), ("length", ⟨0, []⟩, .fixed .int),
    ("keys", ⟨0, []⟩, .keys), ("values", ⟨0, []⟩, .values)]
  | .string => [("length", ⟨0, []⟩, .fixed .int), ("downcase", ⟨0, []⟩, .receiver),
    ("upcase", ⟨0, []⟩, .receiver)]
  | .bool => [("&&", ⟨1, [.bool]⟩, .fixed .bool), ("||", ⟨1, [.bool]⟩, .fixed .bool)]
  | _ => []

/-- Whether a function that compiles simply is one of those that are known. -/
def Known (receiver : Ty) (name : String) (h : Handler) : Prop :=
  match h.kind with
  | .simple result => (Comparison.ofName? name).isSome ∧ result = .fixed .bool ∨
    (name, h.signature, result) ∈ tasks receiver
  | .special _ => True

instance (receiver : Ty) (name : String) : (h : Handler) → Decidable (Known receiver name h)
  | ⟨_, .simple _⟩ => inferInstanceAs (Decidable (_ ∨ _))
  | ⟨_, .special _⟩ => inferInstanceAs (Decidable True)

private theorem known_entries :
    ∀ c ∈ Builtins.standard.classes, ∀ e ∈ c.2.entries, Known c.1 e.1 e.2 := by
  decide +kernel

theorem mem_tasks {t : Ty} {name : String} {signature : Signature} {result : ResultRule}
    (h : Builtins.standard.lookup? t name = some ⟨signature, .simple result⟩) :
    (Comparison.ofName? name).isSome ∧ result = .fixed .bool ∨
      (name, signature, result) ∈ tasks t.underlying := by
  obtain ⟨c, hc, hclass, hmem⟩ := Builtins.mem_standard h
  exact hclass ▸ known_entries c hc _ hmem

/-- Whether what a function gives is of a type, or what it refuses is a nil. -/
def Meets (name : String) (t : Ty) (args : List Data) (reply : Except EvalError Data) : Prop :=
  match reply with
  | .ok data => ∃ v, data = .of v t ∧ v.Conforms t
  | .error e => (∃ fault, e = .invalidArgument name fault) ∧ ∃ data ∈ args, data.value = .nil

section Meets

variable {name : String} {t : Ty} {args : List Data} {receiver data : Data}

theorem meets_of {v : Value} (h : v.Conforms t) : Meets name t args (.ok (.of v t)) :=
  ⟨v, rfl, h⟩

theorem meets_refuse {fault : ArgumentFault} (hmem : data ∈ args) (h : data.value = .nil) :
    Meets name t args (refuse name fault) :=
  ⟨⟨fault, rfl⟩, data, hmem, h⟩

/-- Whether an argument is read, or refused for being nil. -/
def Reads {α : Type} (name : String) (data : Data) (x : Except EvalError α) : Prop :=
  (∃ a, x = .ok a) ∨ (∃ fault, x = refuse name fault) ∧ data.value = .nil

theorem Reads.meets {α : Type} {x : Except EvalError α} {f : α → Except EvalError Data}
    (hx : Reads name data x) (hmem : data ∈ args) (hf : ∀ a, Meets name t args (f a)) :
    Meets name t args (x >>= f) := by
  rcases hx with ⟨a, rfl⟩ | ⟨⟨fault, rfl⟩, hnil⟩
  · exact hf a
  · exact meets_refuse hmem hnil

private theorem reads_intArg (h : data.value.Conforms .int) : Reads name data
    (intArg name [data]) := by
  obtain ⟨value, typ, error⟩ := data
  rcases h.eq_int with h | ⟨n, h⟩
  · simp only at h
    subst h
    exact .inr ⟨⟨_, rfl⟩, rfl⟩
  · simp only at h
    subst h
    exact .inl ⟨n, rfl⟩

theorem reads_textArg (h : data.value.Conforms .string) :
    Reads name data (textArg name [data]) := by
  obtain ⟨value, typ, error⟩ := data
  rcases h.eq_string with h | ⟨s, h⟩
  · simp only at h
    subst h
    exact .inr ⟨⟨_, rfl⟩, rfl⟩
  · simp only at h
    subst h
    exact .inl ⟨s, rfl⟩

theorem itemAt_eq_nil_or_mem (items : List Value) (index : Int) :
    itemAt items index = .nil ∨ itemAt items index ∈ items := by
  have hgiven (i : Nat) : items[i]?.getD .nil = .nil ∨ items[i]?.getD .nil ∈ items := by
    cases hi : items[i]? with
    | none => exact .inl rfl
    | some item => exact .inr (List.mem_of_getElem? hi)
  unfold itemAt
  dsimp only
  generalize (if index < 0 then index + items.length else index) = i
  split
  · exact .inl rfl
  · exact hgiven _

private theorem itemAt_conforms {items : List Value} (h : ∀ item ∈ items, item.Conforms t)
    (index : Int) : (itemAt items index).Conforms t := by
  rcases itemAt_eq_nil_or_mem items index with hnil | hmem
  · exact hnil ▸ .nil
  · exact h _ hmem

private theorem lookup_conforms {entries : List (String × Value)}
    (h : ∀ e ∈ entries, e.2.Conforms t)
    (key : String) : ((entries.lookup key).getD .nil).Conforms t := by
  cases hkey : entries.lookup key with
  | none => exact .nil
  | some v => exact h (key, v) (Table.mem_of_lookup hkey)

section Receivers

variable {signature : Signature} {result : ResultRule}

theorem length_meets (h : (∃ items, receiver.value = .array items) ∨
    (∃ entries, receiver.value = .map entries) ∨ ∃ s, receiver.value = .string s) :
    Meets name .int args (length receiver) := by
  simp only [length]
  rcases h with ⟨items, h⟩ | ⟨entries, h⟩ | ⟨s, h⟩
  · rw [h]
    exact meets_of .int
  · rw [h]
    exact meets_of .int
  · rw [h]
    exact meets_of .int

private theorem ofArray_meets (htask : (name, signature, result) ∈ tasks .arrayLike)
    (hblock : ¬(name = "where" ∨ name = projection)) {items : List Value}
    (hvalue : receiver.value = .array items)
    (hitems : ∀ item ∈ items, item.Conforms (t.child?.getD .any))
    (hargs : List.Forall₂ (fun expected (d : Data) => d.value.Conforms expected)
      signature.args args) :
    Meets name (result.apply t) args (ofArray name (result.apply t) receiver args) := by
  simp only [tasks, List.mem_cons, Prod.mk.injEq, List.not_mem_nil, or_false] at htask
  rcases htask with ⟨rfl, rfl, rfl⟩ | ⟨rfl, rfl, rfl⟩ | ⟨rfl, _⟩ | ⟨rfl, _⟩
  · obtain ⟨d, _, hd, hnone, rfl⟩ := List.forall₂_cons_left_iff.mp hargs
    obtain rfl := List.forall₂_nil_left_iff.mp hnone
    have hlist : Builtin.items "[]" receiver = .ok items := by rw [Builtin.items, hvalue]
    refine (reads_intArg hd).meets (List.mem_singleton_self _) fun n => ?_
    rw [hlist]
    exact meets_of (itemAt_conforms hitems n.toInt)
  · exact length_meets (.inl ⟨items, hvalue⟩)
  · exact absurd (.inl rfl) hblock
  · exact absurd (.inr rfl) hblock

private theorem ofMap_meets (htask : (name, signature, result) ∈ tasks .mapLike)
    {entries : List (String × Value)} (hvalue : receiver.value = .map entries)
    (hkeys : ∀ e ∈ entries, (Value.string e.1).Conforms (t.key?.getD .string))
    (hvalues : ∀ e ∈ entries, e.2.Conforms (t.child?.getD .any))
    (hargs : List.Forall₂ (fun expected (d : Data) => d.value.Conforms expected)
      signature.args args) :
    Meets name (result.apply t) args (ofMap name (result.apply t) receiver args) := by
  have hmap (name : String) : Builtin.entries name receiver = .ok entries := by
    rw [Builtin.entries, hvalue]
  simp only [tasks, List.mem_cons, Prod.mk.injEq, List.not_mem_nil, or_false] at htask
  rcases htask with ⟨rfl, rfl, rfl⟩ | ⟨rfl, rfl, rfl⟩ | ⟨rfl, rfl, rfl⟩ | ⟨rfl, rfl, rfl⟩
  · obtain ⟨d, _, hd, hnone, rfl⟩ := List.forall₂_cons_left_iff.mp hargs
    obtain rfl := List.forall₂_nil_left_iff.mp hnone
    refine (reads_textArg hd).meets (List.mem_singleton_self _) fun s => ?_
    rw [hmap]
    exact meets_of (lookup_conforms hvalues s)
  · exact length_meets (.inr (.inl ⟨entries, hvalue⟩))
  · simp only [ofMap, hmap]
    exact meets_of (.array (List.forall_mem_map.mpr hkeys))
  · simp only [ofMap, hmap]
    exact meets_of (.array (List.forall_mem_map.mpr hvalues))

private theorem ofString_meets (htask : (name, signature, result) ∈ tasks .string) {s : String}
    (hvalue : receiver.value = .string s) :
    Meets name (result.apply .string) args (ofString name receiver args) := by
  simp only [tasks, List.mem_cons, Prod.mk.injEq, List.not_mem_nil, or_false] at htask
  rcases htask with ⟨rfl, rfl, rfl⟩ | ⟨rfl, rfl, rfl⟩ | ⟨rfl, rfl, rfl⟩
  · exact length_meets (.inr (.inr ⟨s, hvalue⟩))
  · simp only [ofString, hvalue]
    exact meets_of .string
  · simp only [ofString, hvalue]
    exact meets_of .string

private theorem ofBool_meets (htask : (name, signature, result) ∈ tasks .bool) {b : Bool}
    (hvalue : receiver.value = .bool b)
    (hargs : List.Forall₂ (fun expected (d : Data) => d.value.Conforms expected)
      signature.args args) :
    Meets name (result.apply .bool) args (ofBool name receiver args) := by
  simp only [tasks, List.mem_cons, Prod.mk.injEq, List.not_mem_nil, or_false] at htask
  have hone (hsignature : signature = ⟨1, [.bool]⟩) (hresult : result = .fixed .bool)
      (hname : (name = "&&" || name = "||") = true) :
      Meets name (result.apply .bool) args (ofBool name receiver args) := by
    subst hsignature hresult
    obtain ⟨d, _, hd, hnone, rfl⟩ := List.forall₂_cons_left_iff.mp hargs
    obtain rfl := List.forall₂_nil_left_iff.mp hnone
    obtain ⟨value, typ, error⟩ := d
    obtain ⟨found, _, _⟩ := receiver
    simp only at hvalue
    subst hvalue
    unfold ofBool
    rw [if_pos hname]
    rcases hd.eq_bool with h | ⟨c, h⟩
    · simp only at h
      subst h
      exact meets_refuse (List.mem_singleton_self _) rfl
    · simp only at h
      subst h
      exact meets_of .bool
  rcases htask with ⟨rfl, hsignature, hresult⟩ | ⟨rfl, hsignature, hresult⟩
  · exact hone hsignature hresult rfl
  · exact hone hsignature hresult rfl

end Receivers

end Meets

/-- What a function gives that runs no block. -/
def direct (name : String) (t : Ty) (receiver : Data) (args : List Data) : Except EvalError Data :=
  match Comparison.ofName? name with
  | some op =>
    .ok (.bool (op.holds (receiver.value.compare? ((args.head?.map (·.value)).getD .nil))))
  | none => if receiver.value.isNil then .ok (.of .nil t) else plain name t receiver args

theorem apply_eq_direct {m : Type → Type} [Monad m] {block : Ref → Data → ExceptT EvalError m Row}
    {name : String} {t : Ty} {receiver : Data} {args : List Data}
    (h : ¬RunsBlock receiver.typ name) :
    apply block name t receiver args = MonadExcept.ofExcept (direct name t receiver args) := by
  have hblock : ¬((decide (receiver.typ.underlying = .arrayLike) &&
      (decide (name = "where") || decide (name = projection))) = true) := by
    simpa [RunsBlock] using h
  simp only [apply, if_neg hblock]
  rw [direct]
  cases Comparison.ofName? name with
  | some op => rfl
  | none => cases receiver.value.isNil <;> rfl

section Direct

variable {name : String} {t : Ty} {receiver : Data} {args : List Data}

theorem isNil_eq_false {v : Value} (h : v ≠ .nil) : v.isNil = false := by
  cases v with
  | nil => exact absurd rfl h
  | _ => rfl

/-- A function that runs no block meets its declaration, on a value of the type that it is declared
for which is dispatched as the type is. -/
theorem direct_meets {signature : Signature} {result : ResultRule}
    (hlookup : Builtins.standard.lookup? t name = some ⟨signature, .simple result⟩)
    (hblock : ¬RunsBlock t name) (hclass : receiver.typ.underlying = t.underlying)
    (hvalue : receiver.value.Conforms t)
    (hargs : List.Forall₂ (fun expected (d : Data) => d.value.Conforms expected)
      signature.args args) :
    Meets name (result.apply t) args (direct name (result.apply t) receiver args) := by
  have htasks := mem_tasks hlookup
  rw [direct]
  split
  · next op hop =>
    have hbool : result = .fixed .bool := by
      rcases htasks with ⟨_, h⟩ | htask
      · exact h
      · exact (Builtins.sound_standard hlookup).2.1 (.fixed .bool) (by simp [rule?, hop])
    subst hbool
    exact meets_of .bool
  · next hop =>
    by_cases hnil : receiver.value = .nil
    · rw [hnil]
      exact meets_of .nil
    · rw [isNil_eq_false hnil, if_neg Bool.false_ne_true, plain, hclass]
      have htask := htasks.resolve_left fun h => by rw [hop] at h; cases h.1
      split
      · next harray =>
        obtain ⟨items, hitems, hall⟩ := (hvalue.items_of_class harray).resolve_left hnil
        exact ofArray_meets (harray ▸ htask) (fun h => hblock ⟨harray, h⟩) hitems hall hargs
      · next hmap =>
        obtain ⟨entries, hentries, hkeys, hvalues⟩ :=
          (hvalue.entries_of_class hmap).resolve_left hnil
        exact ofMap_meets (hmap ▸ htask) hentries hkeys hvalues hargs
      · next hstring =>
        obtain rfl := Ty.eq_of_underlying_eq_string hstring
        obtain ⟨s, hs⟩ := hvalue.eq_string.resolve_left hnil
        exact ofString_meets htask hs
      · next hbool =>
        obtain rfl := Ty.eq_of_underlying_eq_bool hbool
        obtain ⟨b, hb⟩ := hvalue.eq_bool.resolve_left hnil
        exact ofBool_meets htask hb hargs
      · next harray hmap hstring hbool =>
        have hnone : tasks t.underlying = [] := by
          unfold tasks
          split
          · next h => exact absurd h harray
          · next h => exact absurd h hmap
          · next h => exact absurd h hstring
          · next h => exact absurd h hbool
          · rfl
        rw [hnone] at htask
        cases htask

/-- Looking for a text in a text or in several, or for several in one, meets its declaration. -/
theorem direct_contains {form : SpecialForm} {signature : Signature} {called function : String}
    {found : Ty} {data : Data}
    (hlookup : Builtins.standard.lookup? t called = some ⟨signature, .special form⟩)
    (hfinds : form.Finds t found function) (hclass : receiver.typ.underlying = t.underlying)
    (hvalue : receiver.value.Conforms t) (hdata : data.value.Conforms found) :
    Meets function .bool [data] (direct function .bool receiver [data]) := by
  have hsound : Handler.Sound _ _ _ := Builtins.sound_standard hlookup
  have hname : Comparison.ofName? function = none := by cases hfinds <;> rfl
  rw [direct, hname]
  by_cases hnil : receiver.value = .nil
  · rw [hnil]
    exact meets_of .nil
  simp only [isNil_eq_false hnil, Bool.false_eq_true, if_false, plain, hclass]
  cases hfinds with
  | item hchild =>
    have harray : t.underlying = .arrayLike := hsound
    obtain ⟨items, hitems, _⟩ := (hvalue.items_of_class harray).resolve_left hnil
    have hlist : Builtin.items "containsString" receiver = .ok items := by
      rw [Builtin.items, hitems]
    simp only [harray, ofArray]
    refine (reads_textArg hdata).meets (List.mem_singleton_self _) fun s => ?_
    rw [hlist]
    exact meets_of .bool
  | part =>
    have hstring : t.underlying = .string := hsound
    obtain rfl := Ty.eq_of_underlying_eq_string hstring
    obtain ⟨s, hs⟩ := hvalue.eq_string.resolve_left hnil
    simp only [Ty.underlying, ofString, hs]
    exact (reads_textArg hdata).meets (List.mem_singleton_self _) fun s => meets_of .bool
  | parts =>
    have hstring : t.underlying = .string := hsound
    obtain rfl := Ty.eq_of_underlying_eq_string hstring
    obtain ⟨s, hs⟩ := hvalue.eq_string.resolve_left hnil
    simp only [Ty.underlying, ofString, hs]
    obtain ⟨found, _, _⟩ := data
    rcases hdata.items with h | ⟨needles, h, _⟩
    · simp only at h
      subst h
      exact meets_refuse (List.mem_singleton_self _) rfl
    · simp only at h
      subst h
      exact meets_of .bool

end Direct

end Builtin

end AssetQuery
