import AssetQuery.Proofs.Eval.Execution
import AssetQuery.Proofs.Value.Resources

/-!
# Contracts of evaluation

Evaluation asks only for resources that it was given: by the properties of its frame or by replies
to what it asked for before. A contract says what computations are to be like from some state on,
and what holds of their results. It is kept by the evaluation of a chunk that holds no resources if
it is kept by the replies to requests about resources that are there.
-/

namespace AssetQuery

/-- Whether a primitive holds no resources, if it is not a reference. -/
def Primitive.Bare (p : Primitive) : Prop :=
  p.typ ≠ .ref → ∀ data, p.toData = .ok data → ∀ known : Key → Prop, data.value.Refers known

structure Chunk.Bare (c : Chunk) : Prop where
  constant : c.kind = .primitive → ∀ p ∈ c.primitive, p.Bare
  args : ∀ p ∈ c.args, p.Bare

structure Code.Bare (may : Code → Prop) : Prop where
  chunk : ∀ code r c, may code → code.chunk? r = some c → c.Bare
  block : ∀ code k block, may code → code.function? k = some block → may block

namespace Eval

variable {α β : Type}

/-- What computations of `m` are to be like from a state on, and what of their results. In later
states there are no fewer resources. -/
structure Contract (m : Type → Type) [Monad m] (ω : Type) where
  Leads : ω → ω → Prop
  refl : ∀ w, Leads w w
  trans : ∀ {w w' w'' : ω}, Leads w w' → Leads w' w'' → Leads w w''
  Has : ω → Key → Prop
  has : ∀ {w w' : ω} {key : Key}, Leads w w' → Has w key → Has w' key
  Ensures : {α : Type} → ω → ExceptT EvalError m α → (ω → α → Prop) → Prop
  pure : ∀ {α : Type} {w : ω} {a : α} {post : ω → α → Prop},
    (∀ w', Leads w w' → post w' a) → Ensures w (pure a) post
  throw : ∀ {α : Type} {w : ω} {e : EvalError} {post : ω → α → Prop},
    Ensures w (throw e : ExceptT EvalError m α) post
  bind : ∀ {α β : Type} {w : ω} {x : ExceptT EvalError m α} {f : α → ExceptT EvalError m β}
    {post : ω → α → Prop} {post' : ω → β → Prop}, Ensures w x post →
    (∀ a w', Leads w w' → post w' a → Ensures w' (f a) post') → Ensures w (x >>= f) post'

namespace Contract

variable {m : Type → Type} [Monad m] {ω : Type} {C : Contract m ω} {low mid : ω}

/-- Whether all resources in some data are there. -/
def Knows (C : Contract m ω) (w : ω) (data : Data) : Prop := data.value.Refers (C.Has w)

/-- Whether all resources in a row are there. -/
def KnowsRow (C : Contract m ω) (w : ω) (row : Row) : Prop := ∀ e ∈ row, C.Knows w e.2

theorem knows {data : Data} (h : C.Leads low mid) (hdata : C.Knows low data) : C.Knows mid data :=
  Value.Refers.imp hdata fun _ => C.has h

private theorem ensures_ofExcept {x : Except EvalError α} {post : ω → α → Prop}
    (h : ∀ a, x = .ok a → ∀ w, C.Leads low w → post w a) :
    C.Ensures low (MonadExcept.ofExcept x) post := by
  cases x with
  | ok a => exact C.pure (h a rfl)
  | error e => exact C.throw

theorem ensures_ofSerial {x : Except SerialError α} {post : ω → α → Prop}
    (h : ∀ a, x = .ok a → ∀ w, C.Leads low w → post w a) : C.Ensures low (ofSerial x) post := by
  cases x with
  | ok a => exact C.pure (h a rfl)
  | error e => exact C.throw

private theorem ensures_loop {f : α → ExceptT EvalError m β} {post : ω → β → Prop}
    (hmono : ∀ w w' b, C.Leads w w' → post w b → post w' b) {as : List α} {bs : List β}
    (hbs : ∀ b ∈ bs, post low b)
    (h : ∀ a ∈ as, ∀ mid, C.Leads low mid → C.Ensures mid (f a) post) :
    C.Ensures low (List.mapM.loop f as bs) fun w bs => ∀ b ∈ bs, post w b := by
  induction as generalizing low bs with
  | nil =>
    exact C.pure fun w hw b hb => hmono _ _ _ hw (hbs b (List.mem_reverse.mp hb))
  | cons a rest ih =>
    refine C.bind (h a List.mem_cons_self low (C.refl low)) fun b mid hmid hb => ?_
    refine ih (List.forall_mem_cons.mpr ⟨hb, fun b hb => hmono _ _ _ hmid (hbs b hb)⟩) ?_
    exact fun a ha later hlater => h a (List.mem_cons_of_mem _ ha) later (C.trans hmid hlater)

theorem ensures_mapM {f : α → ExceptT EvalError m β} {post : ω → β → Prop}
    (hmono : ∀ w w' b, C.Leads w w' → post w b → post w' b) {as : List α}
    (h : ∀ a ∈ as, ∀ mid, C.Leads low mid → C.Ensures mid (f a) post) :
    C.Ensures low (as.mapM f) fun w bs => ∀ b ∈ bs, post w b :=
  ensures_loop hmono (List.forall_mem_nil _) h

section Blocks

variable {block : Value → ExceptT EvalError m Row} {items : List Value}

private theorem ensures_keepItems
    (h : ∀ item ∈ items, ∀ mid, C.Leads low mid → C.Ensures mid (block item) C.KnowsRow) :
    C.Ensures low (Builtin.keepItems block items) fun _ kept => kept ⊆ items := by
  induction items generalizing low with
  | nil => exact C.pure fun _ _ => List.Subset.refl _
  | cons item rest ih =>
    rw [Builtin.keepItems]
    refine C.bind (h item List.mem_cons_self low (C.refl low)) fun row mid hmid _ => ?_
    split
    · exact C.throw
    · refine C.bind (ih fun item hitem later hlater =>
        h item (List.mem_cons_of_mem _ hitem) later (C.trans hmid hlater))
        fun kept later _ hkept => C.pure fun _ _ => ?_
      split
      · exact List.cons_subset_cons _ hkept
      · exact List.subset_cons_of_subset _ hkept

private theorem ensures_projectItems
    (h : ∀ item ∈ items, ∀ mid, C.Leads low mid → C.Ensures mid (block item) C.KnowsRow) :
    C.Ensures low (Builtin.projectItems block items) fun w rows =>
      ∀ v ∈ rows, v.Refers (C.Has w) := by
  induction items generalizing low with
  | nil => exact C.pure fun _ _ => List.forall_mem_nil _
  | cons item rest ih =>
    rw [Builtin.projectItems]
    refine C.bind (h item List.mem_cons_self low (C.refl low)) fun row mid hmid hrow => ?_
    refine C.bind (ih fun item hitem later hlater =>
      h item (List.mem_cons_of_mem _ hitem) later (C.trans hmid hlater))
      fun rows later hlater hrows => C.pure fun w hw => ?_
    refine List.forall_mem_cons.mpr ⟨?_, fun v hv => (hrows v hv).imp fun _ => C.has hw⟩
    exact Row.toValue_refers fun e he => knows (C.trans hlater hw) (hrow e he)

end Blocks

private theorem knows_element {list : Ty} {item : Value} (h : item.Refers (C.Has low)) :
    C.Knows low (Builtin.element list item) := by
  rw [Builtin.element]
  split <;> exact h

private theorem ensures_apply {block : Ref → Data → ExceptT EvalError m Row} {receiver : Data}
    (hreceiver : C.Knows low receiver)
    (h : ∀ k element mid, C.Leads low mid → C.Knows mid element →
      C.Ensures mid (block k element) C.KnowsRow)
    (name : String) (t : Ty) (args : List Data) :
    C.Ensures low (Builtin.apply block name t receiver args) C.Knows := by
  simp only [Builtin.apply]
  split
  · exact C.pure fun _ _ => Value.refers_bool
  · split
    · exact C.pure fun _ _ => Value.refers_nil
    · split
      · have hblock : C.Ensures low (MonadExcept.ofExcept (Builtin.blockArg name args))
            fun _ _ => True := ensures_ofExcept fun _ _ _ _ => trivial
        refine C.bind hblock fun k mid hmid _ => ?_
        have hitems : C.Ensures mid (MonadExcept.ofExcept (Builtin.items name receiver))
            fun _ items => receiver.value = .array items :=
          ensures_ofExcept fun items hitems _ _ => Builtin.items_eq_ok hitems
        refine C.bind hitems fun items later hlater hitems => ?_
        have hknown {w : ω} (hw : C.Leads later w) : ∀ item ∈ items, item.Refers (C.Has w) := by
          have hreceiver := knows (C.trans hmid (C.trans hlater hw)) hreceiver
          rw [Knows, hitems] at hreceiver
          exact Value.refers_array_iff.mp hreceiver
        have hrun : ∀ item ∈ items, ∀ last, C.Leads later last →
            C.Ensures last (block k (Builtin.element receiver.typ item)) C.KnowsRow :=
          fun item hitem last hlast => h k _ last (C.trans hmid (C.trans hlater hlast))
            (knows_element (hknown hlast item hitem))
        split
        · refine C.bind (ensures_keepItems hrun) fun kept last hlast hkept => C.pure fun w hw => ?_
          exact Value.refers_array_iff.mpr fun item hitem =>
            hknown (C.trans hlast hw) item (hkept hitem)
        · refine C.bind (ensures_projectItems hrun) fun rows last _ hrows => C.pure fun w hw => ?_
          exact Value.refers_array_iff.mpr fun v hv => (hrows v hv).imp fun _ => C.has hw
      · exact ensures_ofExcept fun data hdata w hw =>
          Builtin.plain_refers (knows hw hreceiver) hdata

structure Replies (C : Contract m ω) (low : ω) (q : Requests m) : Prop where
  chunk : ∀ r mid, C.Leads low mid → C.Ensures mid (q.chunk r) C.Knows
  target : ∀ r mid, C.Leads low mid → C.Ensures mid (q.target r) C.Knows
  block : ∀ k element mid, C.Leads low mid → C.Knows mid element →
    C.Ensures mid (q.block k element) C.KnowsRow
  create : ∀ name args mid, args.Refers (C.Has mid) →
    C.Ensures mid (q.create name args) C.Knows
  read : ∀ name id field mid, C.Has mid ⟨name, id⟩ → C.Ensures mid (q.read name id field) C.Knows

section Replies

variable {q : Requests m}

theorem Replies.operand (hq : C.Replies low q) {p : Primitive} (hp : p.Bare)
    (hmid : C.Leads low mid) : C.Ensures mid (Eval.operand q p) C.Knows := by
  rw [Eval.operand]
  split
  · have href : C.Ensures mid (ofSerial p.asRef) fun _ _ => True :=
      ensures_ofSerial fun _ _ _ _ => trivial
    exact C.bind href fun r later hlater _ => hq.chunk r later (C.trans hmid hlater)
  · next hne => exact ensures_ofSerial fun data hdata _ _ => hp hne data hdata _

private theorem Replies.namedArgs (hq : C.Replies low q) (resource : String) (args : Dict Data)
    {ps : List Primitive} (hps : ∀ p ∈ ps, p.Bare) (hmid : C.Leads low mid)
    (hargs : args.Refers (C.Has mid)) :
    C.Ensures mid (Eval.namedArgs q resource args ps) fun w args => args.Refers (C.Has w) := by
  induction args, ps using Eval.namedArgs.induct generalizing mid with
  | case1 args => exact C.pure fun w hw => hargs.imp fun _ => C.has hw
  | case2 => exact C.throw
  | case3 args name value rest ih =>
    have hname : C.Ensures mid (ofSerial name.asText) fun _ _ => True :=
      ensures_ofSerial fun _ _ _ _ => trivial
    refine C.bind hname fun name later hlater _ => ?_
    have hvalue := hq.operand (hps value (by simp)) (C.trans hmid hlater)
    refine C.bind hvalue fun data last hlast hdata => ?_
    have hthere : args.Refers (C.Has last) := hargs.imp fun _ => C.has (C.trans hlater hlast)
    exact ih name data (fun p hp => hps p (by simp [hp])) (C.trans hmid (C.trans hlater hlast))
      (hthere.insert hdata)

private theorem Replies.call (hq : C.Replies low q) {c : Chunk} (hc : c.Bare) :
    C.Ensures low (Eval.call q c) C.Knows := by
  simp only [Eval.call]
  split
  · exact C.bind (hq.namedArgs c.id .empty hc.args (C.refl low) Dict.refers_empty)
      fun args mid _ hargs => hq.create _ _ mid hargs
  · refine C.bind (hq.chunk _ low (C.refl low)) fun receiver mid hmid hreceiver => ?_
    split
    · exact C.pure fun _ _ => Value.refers_nil
    · split
      · split
        · next name id hvalue =>
          have hkey : (Value.resource name id).Refers (C.Has mid) := hvalue ▸ hreceiver
          exact hq.read name id _ mid (Value.refers_resource_iff.mp hkey)
        · exact C.pure fun _ _ => Value.refers_nil
      · have hargs : C.Ensures mid (c.args.mapM (Eval.operand q)) fun w args =>
            ∀ data ∈ args, C.Knows w data := by
          refine ensures_mapM ?_ fun p hp later hlater =>
            hq.operand (hc.args p hp) (C.trans hmid hlater)
          exact fun _ _ _ => knows
        refine C.bind hargs fun args later hlater _ => ?_
        exact ensures_apply (knows hlater hreceiver) (fun k element last hlast =>
          hq.block k element last (C.trans hmid (C.trans hlater hlast))) _ _ _

private theorem Replies.constant (hq : C.Replies low q) (r : Ref) {written : Option Primitive}
    (hp : ∀ p ∈ written, p.Bare) : C.Ensures low (Eval.constant q r written) C.Knows := by
  cases written with
  | none => exact C.pure fun _ _ => Value.refers_nil
  | some p =>
    rw [Eval.constant]
    split
    · have href : C.Ensures low (ofSerial p.asRef) fun _ _ => True :=
        ensures_ofSerial fun _ _ _ _ => trivial
      refine C.bind href fun target mid hmid _ => ?_
      split
      · exact C.throw
      · exact hq.target target mid hmid
    · next hne => exact ensures_ofSerial fun data hdata _ _ => hp p rfl hne data hdata _

private theorem Replies.evaluate (hq : C.Replies low q) {frame : Frame} {r : Ref}
    (hchunk : ∀ c, frame.code.chunk? r = some c → c.Bare)
    (hprops : frame.props.Refers (C.Has low)) :
    C.Ensures low (Eval.chunk q frame r) C.Knows := by
  rw [Eval.chunk]
  split
  · exact C.throw
  · next c hc =>
    have hbare := hchunk c hc
    split
    · next hkind => exact hq.constant r (hbare.constant hkind)
    · split
      · next data hdata => exact C.pure fun w hw => knows hw (hprops.find? hdata)
      · exact C.throw
    · exact hq.call hbare

end Replies

/-- Whether the values of chunks of codes keep a contract. -/
def Values (C : Contract m ω) (may : Code → Prop)
    (value : Frame → Ref → ExceptT EvalError m Data) : Prop :=
  ∀ frame r low, may frame.code → frame.props.Refers (C.Has low) →
    C.Ensures low (value frame r) C.Knows

private theorem Values.row {may : Code → Prop} {value : Frame → Ref → ExceptT EvalError m Data}
    (hvalue : C.Values may value) (hbare : Code.Bare may) {frame : Frame}
    (hframe : may frame.code) (k : Ref) {element : Data} (helement : C.Knows low element) :
    C.Ensures low (Eval.row value frame k element) C.KnowsRow := by
  rw [Eval.row]
  split
  · exact C.throw
  · next block hblock =>
    refine ensures_mapM ?_ fun r _ mid hmid => ?_
    · exact fun _ _ _ => knows
    · have hcolumn : C.Ensures mid (value (.ofBlock block element) r) C.Knows :=
        hvalue _ r mid (hbare.block _ k block hframe hblock)
          (Dict.refers_empty.insert (knows hmid helement))
      exact C.bind hcolumn fun data later _ hdata => C.pure fun _ hw => knows hw hdata

end Contract

end Eval

namespace Execution

variable {σ ω : Type} {s : Setting σ} {C : Eval.Contract (StateT (Progress σ) Option) ω}

structure Upholds (s : Setting σ) (C : Eval.Contract (StateT (Progress σ) Option) ω) : Prop where
  isolated : ∀ {α : Type} {low : ω} {x : Execution σ α} {post : ω → α → Prop},
    C.Ensures low x post → C.Ensures low (isolated x) post
  remember : ∀ {low : ω} {r : Ref} {x : Execution σ Data}, C.Ensures low x C.Knows →
    C.Ensures low (remember r x) C.Knows
  create : ∀ {low : ω} (name : String) {args : Dict Data}, args.Refers (C.Has low) →
    C.Ensures low (create s name args) C.Knows
  read : ∀ {low : ω} {name id : String} (field : String), C.Has low ⟨name, id⟩ →
    C.Ensures low (read s name id field) C.Knows

variable {may : Code → Prop}

private theorem Upholds.replies (h : Upholds s C) (hbare : Code.Bare may) {frame : Frame} {low : ω}
    {value target : Frame → Ref → Execution σ Data} (hvalue : C.Values may value)
    (htarget : C.Values may target) (hframe : may frame.code)
    (hprops : frame.props.Refers (C.Has low)) :
    C.Replies low (requests s frame value target) where
  chunk r mid hmid := hvalue frame r mid hframe (hprops.imp fun _ => C.has hmid)
  target r mid hmid := htarget frame r mid hframe (hprops.imp fun _ => C.has hmid)
  block k _ _ _ helement := h.isolated (hvalue.row hbare hframe k helement)
  create name _ _ hargs := h.create name hargs
  read _ _ field _ hkey := h.read field hkey

theorem Upholds.value (h : Upholds s C) (hbare : Code.Bare may) (levels : Nat) :
    C.Values may (Execution.value s levels) := by
  induction levels using Nat.strongRecOn with
  | _ levels ih =>
    intro frame r low hframe hprops
    cases levels with
    | zero => exact C.throw
    | succ levels =>
      rw [value_succ]
      have hreplies := h.replies hbare (ih levels (by omega)) (ih (levels - 1) (by omega)) hframe
        hprops
      exact h.remember (hreplies.evaluate (fun c hc => hbare.chunk _ r c hframe hc) hprops)

end Execution

end AssetQuery
