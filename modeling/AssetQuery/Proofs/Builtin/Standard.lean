import AssetQuery.Proofs.Builtin.Clauses
import AssetQuery.Proofs.Entries
import AssetQuery.Proofs.Except

/-!
# The standard functions

Each of the standard functions takes one argument at most, takes a block only if it goes through the
items of an array with it, and gives data of the type that it declares.
-/

namespace AssetQuery

/-- Whether the type is one of constants, or of what the standard functions make of them. -/
def Ty.isLiteral : Ty → Bool
  | .nil | .bool | .int | .float | .string | .any => true
  | .array elem => elem.isLiteral
  | .map key value => key.isLiteral && value.isLiteral
  | _ => false

def ResultRule.isLiteral : ResultRule → Bool
  | .fixed t => t.isLiteral
  | _ => true

namespace Ty

theorem isLiteral_array {elem : Ty} : (array elem).isLiteral = elem.isLiteral := by
  rw [isLiteral]

theorem isLiteral_map {key value : Ty} :
    (map key value).isLiteral = (key.isLiteral && value.isLiteral) := by
  rw [isLiteral]

private theorem isLiteral_child {t : Ty} (h : t.isLiteral) : (t.child?.getD .any).isLiteral := by
  cases t with
  | array elem => exact isLiteral_array ▸ h
  | map key value => exact (Bool.and_eq_true_iff.mp (isLiteral_map ▸ h)).2
  | _ => rfl

private theorem isLiteral_key {t : Ty} (h : t.isLiteral) : (t.key?.getD .string).isLiteral := by
  cases t with
  | map key value => exact (Bool.and_eq_true_iff.mp (isLiteral_map ▸ h)).1
  | _ => rfl

theorem ne_ref_of_isLiteral {t : Ty} (h : t.isLiteral) : t ≠ .ref := by
  rintro rfl
  cases h

theorem not_compatible_of_isLiteral {t : Ty} (h : t.isLiteral) :
    t.compatible .functionLike = false := by
  cases t with
  | functionLike => cases h
  | _ => rfl

theorem resourceName?_of_isLiteral {t : Ty} (h : t.isLiteral) : t.resourceName? = none := by
  cases t with
  | resource name => cases h
  | _ => rfl

theorem underlying_of_isLiteral {t : Ty} (h : t.isLiteral) : t.underlying ≠ .resourceLike := by
  cases t with
  | resource name => cases h
  | resourceLike => cases h
  | _ => exact nofun

theorem eq_array_of_isLiteral {t : Ty} (h : t.isLiteral) (harray : t.underlying = .arrayLike) :
    ∃ elem, t = .array elem := by
  cases t with
  | array elem => exact ⟨elem, rfl⟩
  | arrayLike => cases h
  | _ => cases harray

end Ty

theorem ResultRule.isLiteral_apply {rule : ResultRule} (h : rule.isLiteral) {receiver : Ty}
    (hreceiver : receiver.isLiteral) : (rule.apply receiver).isLiteral := by
  cases rule with
  | fixed t => exact h
  | receiver => exact hreceiver
  | child => exact Ty.isLiteral_child hreceiver
  | keys => exact Ty.isLiteral_array.trans (Ty.isLiteral_key hreceiver)
  | values => exact Ty.isLiteral_array.trans (Ty.isLiteral_child hreceiver)

namespace Builtin

/-- What type a function gives, if its name tells. -/
def rule? (name : String) : Option ResultRule :=
  if (Comparison.ofName? name).isSome then some (.fixed .bool)
  else if name ∈ ["&&", "||", "containsString", "containsArrayString"] then some (.fixed .bool)
  else if name ∈ ["where", "downcase", "upcase"] then some .receiver
  else if name = projection then some (.fixed (.array (.map .string .any)))
  else if name = "length" then some (.fixed .int)
  else none

/-- Whether arguments are declared as a function works with them: there is one at most, which has to
be there, and it is a block if the function runs one. -/
def Takes (receiver : Ty) (name : String) (signature : Signature) : Prop :=
  signature.required = signature.args.length ∧ signature.args.length ≤ 1 ∧
    (.functionLike ∈ signature.args ↔ RunsBlock receiver name)

instance (receiver : Ty) (name : String) (signature : Signature) :
    Decidable (Takes receiver name signature) := inferInstanceAs (Decidable (_ ∧ _ ∧ _))

theorem Takes.of_underlying {receiver : Ty} {name : String} {signature : Signature}
    (h : Takes receiver.underlying name signature) : Takes receiver name signature := by
  have hclass : receiver.underlying.underlying = receiver.underlying := by cases receiver <;> rfl
  simpa only [Takes, RunsBlock, hclass] using h

theorem takes_containsString (receiver : Ty) : Takes receiver "containsString" ⟨1, [.any]⟩ := by
  simp [Takes, RunsBlock, projection]

theorem takes_containsArrayString (receiver : Ty) :
    Takes receiver "containsArrayString" ⟨1, [.any]⟩ := by
  simp [Takes, RunsBlock, projection]

end Builtin

/-- The function that looks for something of type `found` in a receiver of type `t`. -/
inductive SpecialForm.Finds : SpecialForm → (t found : Ty) → String → Prop
  | item {t : Ty} : t.child? = some .string → Finds .arrayContains t .string "containsString"
  | part {t : Ty} : Finds .stringContains t .string "containsString"
  | parts {t : Ty} : Finds .stringContains t (.array .string) "containsArrayString"

/-- Whether what is declared of a function is what it does. -/
def Handler.Sound (receiver : Ty) (name : String) (h : Handler) : Prop :=
  match h.kind with
  | .simple result =>
    Builtin.Takes receiver name h.signature ∧ (∀ rule ∈ Builtin.rule? name, result = rule) ∧
      result.isLiteral
  | .special form =>
    match form with
    | .arrayContains => receiver = .arrayLike
    | .stringContains => receiver = .string
    | .listLength | .listWhere => receiver = .resourceLike

instance (receiver : Ty) (name : String) (h : Handler) : Decidable (h.Sound receiver name) := by
  unfold Handler.Sound
  split
  · infer_instance
  · split <;> infer_instance

/-- Whether a function compiles as others do. -/
def Handler.isSimple (h : Handler) : Bool :=
  match h.kind with
  | .simple _ => true
  | .special _ => false

namespace Builtins

private theorem sound_entries :
    ∀ c ∈ standard.classes, ∀ e ∈ c.2.entries, e.2.Sound c.1 e.1 := by
  decide +kernel

private theorem find?_nameless : ∀ c ∈ standard.classes, c.2.find? "" = none := by
  decide +kernel

private theorem special_entries : ∀ c ∈ standard.classes, c.1 = .resourceLike →
    ∀ e ∈ c.2.entries, e.2.isSimple = false := by
  decide +kernel

theorem mem_standard {t : Ty} {name : String} {h : Handler}
    (hlookup : standard.lookup? t name = some h) :
    ∃ c ∈ standard.classes, c.1 = t.underlying ∧ (name, h) ∈ c.2.entries := by
  rw [lookup?, handlers] at hlookup
  cases hclass : standard.classes.lookup t.underlying with
  | none => rw [hclass] at hlookup; cases hlookup
  | some handlers =>
    have hmem : (t.underlying, handlers) ∈ standard.classes := Table.mem_of_lookup hclass
    rw [hclass, Option.getD_some, find?_nameless _ hmem, Option.or_none] at hlookup
    exact ⟨_, hmem, rfl, Table.mem_of_lookup hlookup⟩

theorem find?_handlers_nameless (t : Ty) : (standard.handlers t).find? "" = none := by
  rw [handlers]
  cases hclass : standard.classes.lookup t.underlying with
  | none => rfl
  | some handlers => exact find?_nameless _ (Table.mem_of_lookup hclass)

theorem lookup?_eq_find? (t : Ty) (name : String) :
    standard.lookup? t name = (standard.handlers t).find? name := by
  rw [lookup?, find?_handlers_nameless, Option.or_none]

theorem mem_names_standard {t : Ty} {name : String} :
    name ∈ standard.names t ↔ ∃ h, standard.lookup? t name = some h := by
  rw [names, List.mem_filter, Dict.mem_keys_iff]
  simp only [lookup?_eq_find?, decide_eq_true_eq, and_iff_left_iff_imp]
  rintro ⟨h, hfind⟩ rfl
  cases (find?_handlers_nameless t).symm.trans hfind

theorem sound_standard {t : Ty} {name : String} {h : Handler}
    (hlookup : standard.lookup? t name = some h) : h.Sound t.underlying name := by
  obtain ⟨c, hc, hclass, hmem⟩ := mem_standard hlookup
  exact hclass ▸ sound_entries c hc (name, h) hmem

/-- What is declared of resources compiles in a way of its own. -/
theorem underlying_of_simple {t : Ty} {name : String} {signature : Signature} {result : ResultRule}
    (hlookup : standard.lookup? t name = some ⟨signature, .simple result⟩) :
    t.underlying ≠ .resourceLike := by
  obtain ⟨c, hc, hclass, hmem⟩ := mem_standard hlookup
  exact fun h => nomatch special_entries c hc (hclass.trans h) _ hmem

/-- Resources have the functions of lists, and no others. -/
theorem lookup?_resourceLike {t : Ty} (ht : t.underlying = .resourceLike) {name : String}
    {h : Handler} :
    standard.lookup? t name = some h ↔
      (name = "length" ∧ h = ⟨⟨0, []⟩, .special .listLength⟩) ∨
        (name = "where" ∧ h = ⟨⟨1, [.functionLike]⟩, .special .listWhere⟩) := by
  have hentries : (standard.handlers .resourceLike).entries =
      [("length", ⟨⟨0, []⟩, .special .listLength⟩),
        ("where", ⟨⟨1, [.functionLike]⟩, .special .listWhere⟩)] := by
    decide +kernel
  have hhandlers : standard.handlers t = standard.handlers .resourceLike := by
    rw [handlers, ht]
    rfl
  rw [lookup?_eq_find?, hhandlers, Dict.find?_eq_some_iff, hentries]
  simp

theorem lookup?_any (name : String) : standard.lookup? .any name = none := by
  have hclass : standard.classes.lookup Ty.any = none := by decide +kernel
  rw [lookup?, handlers]
  simp only [Ty.underlying, hclass]
  rfl

theorem lookup?_length {elem : Ty} :
    standard.lookup? (.array elem) "length" = some ⟨⟨0, []⟩, .simple (.fixed .int)⟩ := rfl

theorem lookup?_where {elem : Ty} :
    standard.lookup? (.array elem) "where" = some ⟨⟨1, [.functionLike]⟩, .simple .receiver⟩ := rfl

theorem ne_any_of_lookup? {t : Ty} {name : String} {h : Handler}
    (hlookup : standard.lookup? t name = some h) : t ≠ .any := by
  rintro rfl
  rw [lookup?_any] at hlookup
  cases hlookup

end Builtins

namespace Builtin

/-- Data of a type which is no failure. -/
def Gives (t : Ty) (data : Data) : Prop := data.typ = t ∧ data.error = none

theorem length_gives {receiver data : Data} (h : length receiver = .ok data) :
    Gives .int data := by
  simp only [length] at h
  split at h
  · exact Except.ok.inj h ▸ ⟨rfl, rfl⟩
  · exact Except.ok.inj h ▸ ⟨rfl, rfl⟩
  · exact Except.ok.inj h ▸ ⟨rfl, rfl⟩
  · cases h

section Plain

variable {name : String} {t : Ty} {receiver data : Data} {args : List Data}

private theorem ofArray_gives (hrule : ∀ rule ∈ rule? name, t = rule.apply receiver.typ)
    (h : ofArray name t receiver args = .ok data) : Gives t data := by
  simp only [ofArray] at h
  split at h
  · obtain ⟨index, _, h⟩ := Except.bind_eq_ok.mp h
    obtain ⟨items, _, h⟩ := Except.bind_eq_ok.mp h
    exact Except.ok.inj h ▸ ⟨rfl, rfl⟩
  · rw [hrule (.fixed .int) rfl]
    exact length_gives h
  · obtain ⟨needle, _, h⟩ := Except.bind_eq_ok.mp h
    obtain ⟨items, _, h⟩ := Except.bind_eq_ok.mp h
    rw [hrule (.fixed .bool) rfl]
    exact Except.ok.inj h ▸ ⟨rfl, rfl⟩
  · cases h

private theorem ofMap_gives (hrule : ∀ rule ∈ rule? name, t = rule.apply receiver.typ)
    (h : ofMap name t receiver args = .ok data) : Gives t data := by
  simp only [ofMap] at h
  split at h
  · obtain ⟨key, _, h⟩ := Except.bind_eq_ok.mp h
    obtain ⟨entries, _, h⟩ := Except.bind_eq_ok.mp h
    exact Except.ok.inj h ▸ ⟨rfl, rfl⟩
  · rw [hrule (.fixed .int) rfl]
    exact length_gives h
  · obtain ⟨entries, _, h⟩ := Except.bind_eq_ok.mp h
    exact Except.ok.inj h ▸ ⟨rfl, rfl⟩
  · obtain ⟨entries, _, h⟩ := Except.bind_eq_ok.mp h
    exact Except.ok.inj h ▸ ⟨rfl, rfl⟩
  · cases h

private theorem ofString_gives (hrule : ∀ rule ∈ rule? name, t = rule.apply receiver.typ)
    (hreceiver : receiver.typ = .string) (h : ofString name receiver args = .ok data) :
    Gives t data := by
  simp only [ofString] at h
  split at h
  · next hname =>
    subst hname
    rw [hrule (.fixed .int) rfl]
    exact length_gives h
  · split at h
    · split at h
      · obtain ⟨needle, _, h⟩ := Except.bind_eq_ok.mp h
        rw [hrule (.fixed .bool) rfl]
        exact Except.ok.inj h ▸ ⟨rfl, rfl⟩
      · rw [hrule (.fixed .bool) rfl]
        split at h
        · exact Except.ok.inj h ▸ ⟨rfl, rfl⟩
        · cases h
      · rw [hrule .receiver rfl]
        exact Except.ok.inj h ▸ ⟨hreceiver.symm, rfl⟩
      · rw [hrule .receiver rfl]
        exact Except.ok.inj h ▸ ⟨hreceiver.symm, rfl⟩
      · cases h
    · cases h

private theorem ofBool_gives (hrule : ∀ rule ∈ rule? name, t = rule.apply receiver.typ)
    (h : ofBool name receiver args = .ok data) : Gives t data := by
  simp only [ofBool] at h
  split at h
  · next hname =>
    have ht : t = .bool := by
      rcases Bool.or_eq_true_iff.mp hname with hname | hname
      · exact hrule (.fixed .bool) (of_decide_eq_true hname ▸ rfl)
      · exact hrule (.fixed .bool) (of_decide_eq_true hname ▸ rfl)
    rw [ht]
    split at h
    · exact Except.ok.inj h ▸ ⟨rfl, rfl⟩
    · cases h
  · cases h

private theorem plain_gives (hrule : ∀ rule ∈ rule? name, t = rule.apply receiver.typ)
    (h : plain name t receiver args = .ok data) : Gives t data := by
  simp only [plain] at h
  split at h
  · exact ofArray_gives hrule h
  · exact ofMap_gives hrule h
  · next hstring =>
    refine ofString_gives hrule ?_ h
    cases htyp : receiver.typ with
    | string => rfl
    | _ => rw [htyp] at hstring; cases hstring
  · exact ofBool_gives hrule h
  · cases h

end Plain

private theorem apply_gives {block : Ref → Data → ExceptT EvalError Id Row} {name : String} {t : Ty}
    {receiver data : Data} {args : List Data}
    (hrule : ∀ rule ∈ rule? name, t = rule.apply receiver.typ)
    (h : (apply block name t receiver args).run = .ok data) : Gives t data := by
  simp only [apply] at h
  split at h
  · next op hop =>
    rw [hrule (.fixed .bool) (by simp [rule?, hop])]
    exact Except.ok.inj h ▸ ⟨rfl, rfl⟩
  · split at h
    · exact Except.ok.inj h ▸ ⟨rfl, rfl⟩
    · split at h
      · next hblock =>
        obtain ⟨r, _, h⟩ := Except.run_bind_eq_ok.mp h
        obtain ⟨items, _, h⟩ := Except.run_bind_eq_ok.mp h
        split at h
        · next hname =>
          obtain ⟨kept, _, h⟩ := Except.run_bind_eq_ok.mp h
          rw [hrule .receiver (hname ▸ rfl)]
          exact Except.ok.inj h ▸ ⟨rfl, rfl⟩
        · next hname =>
          obtain ⟨rows, _, h⟩ := Except.run_bind_eq_ok.mp h
          have hprojection : name = projection := by
            simpa [hname] using (Bool.and_eq_true_iff.mp hblock).2
          rw [hrule (.fixed (.array (.map .string .any))) (hprojection ▸ rfl)]
          exact Except.ok.inj h ▸ ⟨rfl, rfl⟩
      · refine plain_gives hrule (?_ : plain name t receiver args = .ok data)
        cases hplain : plain name t receiver args with
        | ok found => rw [hplain] at h; exact h
        | error e => rw [hplain] at h; cases h

private theorem resolve?_rule {receiver : Ty} {name : String} {types : List Ty} {function : String}
    {t : Ty} (h : resolve? receiver name types = some (function, t)) :
    ∀ rule ∈ rule? function, t = rule.apply receiver := by
  intro rule hrule
  simp only [resolve?] at h
  split at h
  · next result hlookup =>
    obtain ⟨rfl, rfl⟩ := Prod.mk.inj (Option.some.inj h)
    rw [(Builtins.sound_standard hlookup).2.1 rule hrule]
  · obtain ⟨rfl, rfl⟩ := Prod.mk.inj (Option.some.inj h)
    cases hrule
    rfl
  · split at h
    · obtain ⟨rfl, rfl⟩ := Prod.mk.inj (Option.some.inj h)
      cases hrule
      rfl
    · obtain ⟨rfl, rfl⟩ := Prod.mk.inj (Option.some.inj h)
      cases hrule
      rfl
  · cases h

/-- A call gives data of the type of the function that stands for its name. -/
theorem dispatch_gives {block : Data → Except EvalError Row} {name : String} {receiver : Data}
    {args : List Data} {data : Data} {function : String} {t : Ty}
    (hresolve : resolve? receiver.typ name (args.map (·.typ)) = some (function, t))
    (h : dispatch block name receiver args = .ok data) : Gives t data := by
  rw [dispatch_eq hresolve] at h
  exact apply_gives (resolve?_rule hresolve) h

end Builtin

end AssetQuery
