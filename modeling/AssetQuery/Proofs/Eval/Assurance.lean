import AssetQuery.Proofs.Eval.Trace
import Mathlib.Data.List.Forall2

/-!
# What holds of every chunk that is reached

To show that something holds of all that an execution evaluates, it is enough to show it of one
chunk, given that it holds of what the chunk asks for. What is shown of a step may speak of the
visits made up to its end, which later steps only add to.
-/

namespace AssetQuery

variable {σ α β : Type}

/-- What is to hold of the session, and of what becomes of each chunk, given the visits made by
then. -/
structure Assurance (σ : Type) where
  session : Session σ → Prop
  outcome : List Visit → Frame → Ref → Except EvalError Data → Prop
  mono : ∀ {visits visits' : List Visit} {frame : Frame} {r : Ref} {o : Except EvalError Data},
    visits ⊆ visits' → outcome visits frame r o → outcome visits' frame r o

namespace Assurance

variable {A : Assurance σ} {frame inner : Frame} {r : Ref} {seen : List Visit}

/-- What holds between the steps of an evaluation in a frame. -/
structure Kept (A : Assurance σ) (frame : Frame) (progress : Progress σ) (visits : List Visit) :
    Prop where
  session : A.session progress.session
  values : ∀ r data, progress.values.lookup r = some data → A.outcome visits frame r (.ok data)
  visits : ∀ v ∈ visits, A.outcome visits v.frame v.r v.outcome

/-- Whether a step that begins after some visits keeps what is to hold, and ends as stated. -/
def Ensures (A : Assurance σ) (frame : Frame) (seen : List Visit) (x : Traced σ α)
    (post : List Visit → Except EvalError α → Prop) : Prop :=
  ∀ state, A.Kept frame state.1 state.2 → seen ⊆ state.2 →
    ∀ reply after, x state = some (reply, after) →
      A.Kept frame after.1 after.2 ∧ state.2 ⊆ after.2 ∧ post after.2 reply

variable {post : List Visit → Except EvalError α → Prop}
  {post' : List Visit → Except EvalError β → Prop}

theorem ensures_pure {a : α} (h : ∀ visits, seen ⊆ visits → post visits (.ok a)) :
    A.Ensures frame seen (pure a) post := by
  rintro state hkept hseen _ _ ⟨⟩
  exact ⟨hkept, List.Subset.refl _, h _ hseen⟩

theorem ensures_throw {e : EvalError} (h : ∀ visits, seen ⊆ visits → post visits (.error e)) :
    A.Ensures frame seen (throw e) post := by
  rintro state hkept hseen _ _ ⟨⟩
  exact ⟨hkept, List.Subset.refl _, h _ hseen⟩

theorem ensures_ofExcept {x : Except EvalError α}
    (h : ∀ visits, seen ⊆ visits → post visits x) :
    A.Ensures frame seen (MonadExcept.ofExcept x) post := by
  cases x with
  | ok a => exact ensures_pure h
  | error e => exact ensures_throw h

theorem Ensures.bind {x : Traced σ α} {f : α → Traced σ β} (hx : A.Ensures frame seen x post)
    (herror : ∀ visits e, seen ⊆ visits → post visits (.error e) → post' visits (.error e))
    (hf : ∀ a visits, seen ⊆ visits → post visits (.ok a) →
      A.Ensures frame visits (f a) post') :
    A.Ensures frame seen (x >>= f) post' := by
  intro state hkept hseen reply after hrun
  replace hrun : (x state).bind _ = some (reply, after) := hrun
  rcases hfirst : x state with _ | ⟨_ | a, mid⟩
  · rw [hfirst] at hrun
    cases hrun
  · rw [hfirst] at hrun
    cases hrun
    obtain ⟨hmid, hgrown, hpost⟩ := hx state hkept hseen _ _ hfirst
    exact ⟨hmid, hgrown, herror _ _ (List.Subset.trans hseen hgrown) hpost⟩
  · obtain ⟨hmid, hgrown, hpost⟩ := hx state hkept hseen _ _ hfirst
    rw [hfirst] at hrun
    obtain ⟨hlast, hmore, hpost⟩ := hf a mid.2 (List.Subset.trans hseen hgrown) hpost mid hmid
      (List.Subset.refl _) reply after hrun
    exact ⟨hlast, List.Subset.trans hgrown hmore, hpost⟩

theorem Ensures.imp {x : Traced σ α} {weaker : List Visit → Except EvalError α → Prop}
    (hx : A.Ensures frame seen x post)
    (h : ∀ visits reply, seen ⊆ visits → post visits reply → weaker visits reply) :
    A.Ensures frame seen x weaker := by
  intro state hkept hseen reply after hrun
  obtain ⟨hafter, hgrown, hpost⟩ := hx state hkept hseen reply after hrun
  exact ⟨hafter, hgrown, h _ _ (List.Subset.trans hseen hgrown) hpost⟩

section Lists

theorem exists_of_forall₂ {R : α → β → Prop} {as : List α} {bs : List β}
    (h : List.Forall₂ R as bs) {b : β} (hb : b ∈ bs) : ∃ a ∈ as, R a b := by
  induction h with
  | nil => cases hb
  | cons hfirst _ ih =>
    rcases List.mem_cons.mp hb with rfl | hb
    · exact ⟨_, List.mem_cons_self, hfirst⟩
    · obtain ⟨a, ha, hr⟩ := ih hb
      exact ⟨a, List.mem_cons_of_mem _ ha, hr⟩

variable {post : α → List Visit → Except EvalError β → Prop}

/-- What a step ensures of each entry of a list, in the end it has ensured of all, or it has failed
at one. -/
theorem ensures_mapM {f : α → Traced σ β}
    (hmono : ∀ a visits visits' o, visits ⊆ visits' → post a visits o → post a visits' o)
    {as : List α} (h : ∀ a ∈ as, ∀ visits, seen ⊆ visits → A.Ensures frame visits (f a) (post a)) :
    A.Ensures frame seen (as.mapM f) fun visits reply =>
      match reply with
      | .ok bs => List.Forall₂ (fun a b => post a visits (.ok b)) as bs
      | .error e => ∃ a ∈ as, post a visits (.error e) := by
  induction as generalizing seen with
  | nil =>
    rw [List.mapM_nil]
    exact ensures_pure fun _ _ => .nil
  | cons a rest ih =>
    rw [List.mapM_cons]
    refine (h a List.mem_cons_self seen (List.Subset.refl _)).bind
      (fun visits e _ he => ⟨a, List.mem_cons_self, he⟩) fun b visits hseen hb => ?_
    have hrest := ih fun a ha visits' hseen' =>
      h a (List.mem_cons_of_mem _ ha) visits' (List.Subset.trans hseen hseen')
    refine hrest.bind (fun _ e _ he => ?_) fun bs visits' hmore hbs => ?_
    · obtain ⟨a, ha, he⟩ := he
      exact ⟨a, List.mem_cons_of_mem _ ha, he⟩
    · refine ensures_pure fun last hlast => .cons ?_ ?_
      · exact hmono _ _ _ _ (List.Subset.trans hmore hlast) hb
      · exact hbs.imp fun _ _ => hmono _ _ _ _ hlast

end Lists

section Blocks

variable {block : Value → Traced σ Row} {post : Value → List Visit → Except EvalError Row → Prop}
  {items : List Value}

theorem ensures_keepItems
    (hmono : ∀ a visits visits' o, visits ⊆ visits' → post a visits o → post a visits' o)
    (h : ∀ item ∈ items, ∀ visits, seen ⊆ visits →
      A.Ensures frame visits (block item) (post item)) :
    A.Ensures frame seen (Builtin.keepItems block items) fun visits reply =>
      match reply with
      | .ok kept => kept ⊆ items
      | .error e => ∃ item ∈ items, post item visits (.error e) ∨
        ∃ row fault, post item visits (.ok row) ∧ Row.fault? row = some fault ∧
          e = .invalidArgument "where" fault := by
  induction items generalizing seen with
  | nil => exact ensures_pure fun _ _ => List.Subset.refl _
  | cons item rest ih =>
    rw [Builtin.keepItems]
    refine (h item List.mem_cons_self seen (List.Subset.refl _)).bind
      (fun visits e _ he => ⟨item, List.mem_cons_self, .inl he⟩) fun row visits hseen hrow => ?_
    split
    · next fault hfault =>
      refine ensures_throw fun last hlast => ⟨item, List.mem_cons_self, .inr ⟨row, fault, ?_⟩⟩
      exact ⟨hmono _ _ _ _ hlast hrow, hfault, rfl⟩
    · have hrest := ih fun item hitem visits' hseen' =>
        h item (List.mem_cons_of_mem _ hitem) visits' (List.Subset.trans hseen hseen')
      refine hrest.bind (fun _ e _ he => ?_) fun kept visits' hmore hkept => ?_
      · obtain ⟨item, hitem, he⟩ := he
        exact ⟨item, List.mem_cons_of_mem _ hitem, he⟩
      · refine ensures_pure fun _ _ => ?_
        show (if row.truthy then item :: kept else kept) ⊆ item :: rest
        split
        · exact List.cons_subset_cons _ hkept
        · exact List.subset_cons_of_subset _ hkept

theorem ensures_projectItems
    (h : ∀ item ∈ items, ∀ visits, seen ⊆ visits →
      A.Ensures frame visits (block item) (post item)) :
    A.Ensures frame seen (Builtin.projectItems block items) fun visits reply =>
      match reply with
      | .ok rows => ∀ v ∈ rows, ∃ row : Row, v = row.toValue
      | .error e => ∃ item ∈ items, post item visits (.error e) := by
  induction items generalizing seen with
  | nil => exact ensures_pure fun _ _ => List.forall_mem_nil _
  | cons item rest ih =>
    rw [Builtin.projectItems]
    refine (h item List.mem_cons_self seen (List.Subset.refl _)).bind
      (fun visits e _ he => ⟨item, List.mem_cons_self, he⟩) fun row visits hseen _ => ?_
    have hrest := ih fun item hitem visits' hseen' =>
      h item (List.mem_cons_of_mem _ hitem) visits' (List.Subset.trans hseen hseen')
    refine hrest.bind (fun _ e _ he => ?_) fun rows visits' _ hrows => ?_
    · obtain ⟨item, hitem, he⟩ := he
      exact ⟨item, List.mem_cons_of_mem _ hitem, he⟩
    · exact ensures_pure fun _ _ => List.forall_mem_cons.mpr ⟨⟨row, rfl⟩, hrows⟩

end Blocks

private theorem Kept.cons_visit {progress : Progress σ} {visits : List Visit} {v : Visit}
    (h : A.Kept frame progress visits) (hv : A.outcome visits v.frame v.r v.outcome) :
    A.Kept frame progress (v :: visits) where
  session := h.session
  values r data hdata := A.mono (List.subset_cons_self _ _) (h.values r data hdata)
  visits := List.forall_mem_cons.mpr ⟨A.mono (List.subset_cons_self _ _) hv,
    fun w hw => A.mono (List.subset_cons_self _ _) (h.visits w hw)⟩

private theorem Ensures.visit {x : Traced σ Data}
    (hx : A.Ensures frame seen x fun visits reply => A.outcome visits frame r reply) :
    A.Ensures frame seen (Traced.visit frame r x) fun visits reply =>
      ⟨frame, r, reply⟩ ∈ visits ∧ A.outcome visits frame r reply := by
  intro state hkept hseen reply after hrun
  replace hrun : (x state).bind _ = some (reply, after) := hrun
  rcases hx' : x state with _ | ⟨outcome, mid⟩
  · rw [hx'] at hrun
    cases hrun
  · rw [hx'] at hrun
    cases hrun
    obtain ⟨hmid, hgrown, hpost⟩ := hx state hkept hseen _ _ hx'
    exact ⟨hmid.cons_visit hpost, List.subset_cons_of_subset _ hgrown, List.mem_cons_self,
      A.mono (List.subset_cons_self _ _) hpost⟩

private theorem Ensures.remember {x : Traced σ Data}
    (hx : A.Ensures frame seen x fun visits reply => A.outcome visits frame r reply) :
    A.Ensures frame seen (Traced.remember r x) fun visits reply =>
      A.outcome visits frame r reply := by
  intro state hkept hseen reply after hrun
  cases hlookup : state.1.values.lookup r with
  | some data =>
    rw [Traced.remember_of_some hlookup] at hrun
    cases hrun
    exact ⟨hkept, List.Subset.refl _, hkept.values r data hlookup⟩
  | none =>
    rw [Traced.remember_of_none hlookup] at hrun
    refine hx.bind (fun _ _ _ he => he) (fun data visits _ hdata => ?_) state hkept hseen reply
      after hrun
    rintro mid hmid hmore _ _ ⟨⟩
    have hdata := A.mono hmore hdata
    refine ⟨⟨hmid.session, fun q found hq => ?_, hmid.visits⟩, List.Subset.refl _, hdata⟩
    rw [List.lookup_cons] at hq
    split at hq
    · next heq =>
      obtain rfl := Option.some.inj hq
      exact eq_of_beq heq ▸ hdata
    · exact hmid.values q found hq

/-- A step in which no chunk is evaluated, and which is not remembered. -/
theorem ensures_silent {x : Execution σ α}
    (h : ∀ progress, A.session progress.session → ∀ reply after, x progress = some (reply, after) →
      A.session after.session ∧ after.values = progress.values ∧
        ∀ visits, seen ⊆ visits → post visits reply) :
    A.Ensures frame seen (Traced.silent x) post := by
  intro state hkept hseen reply after hrun
  replace hrun : (x state.1).bind _ = some (reply, after) := hrun
  rcases hx : x state.1 with _ | ⟨outcome, progress⟩
  · rw [hx] at hrun
    cases hrun
  · rw [hx] at hrun
    cases hrun
    obtain ⟨hsession, hvalues, hpost⟩ := h state.1 hkept.session _ _ hx
    exact ⟨⟨hsession, hvalues ▸ hkept.values, hkept.visits⟩, List.Subset.refl _, hpost _ hseen⟩

private theorem Ensures.isolated {x : Traced σ α} (hx : A.Ensures inner seen x post) :
    A.Ensures frame seen (Traced.isolated x) post := by
  intro state hkept hseen reply after hrun
  replace hrun : (x ({ state.1 with values := [] }, state.2)).bind _ = some (reply, after) := hrun
  rcases hx' : x ({ state.1 with values := [] }, state.2) with _ | ⟨outcome, mid⟩
  · rw [hx'] at hrun
    cases hrun
  · rw [hx'] at hrun
    cases hrun
    obtain ⟨hmid, hgrown, hpost⟩ := hx ({ state.1 with values := [] }, state.2)
      ⟨hkept.session, nofun, hkept.visits⟩ hseen _ _ hx'
    exact ⟨⟨hmid.session, fun q found hq => A.mono hgrown (hkept.values q found hq), hmid.visits⟩,
      hgrown, hpost⟩

/-- Whether the chunks that may be asked for have what is to hold of them, and are written down. -/
def Answers (A : Assurance σ) (may : Frame → Ref → Prop) (value : Frame → Ref → Traced σ Data) :
    Prop :=
  ∀ frame r seen, may frame r → A.Ensures frame seen (value frame r) fun visits reply =>
    ⟨frame, r, reply⟩ ∈ visits ∧ A.outcome visits frame r reply

variable {may : Frame → Ref → Prop} {value : Frame → Ref → Traced σ Data}

/-- What a column of a row holds, made in a frame of the block. -/
def Column (A : Assurance σ) (inner : Frame) (q : Ref) (visits : List Visit) :
    Except EvalError (String × Data) → Prop
  | .ok e => A.outcome visits inner q (.ok e.2)
  | .error e => ⟨inner, q, .error e⟩ ∈ visits ∧ A.outcome visits inner q (.error e)

/-- A row is made of what becomes of the entry points of a block. -/
theorem Answers.row (hvalue : A.Answers may value) {k : Ref} {block : Code}
    (hblock : frame.code.function? k = some block) {element : Data}
    (hmay : ∀ q ∈ block.entrypoints, may (.ofBlock block element) q) :
    A.Ensures frame seen (Traced.isolated (Eval.row value frame k element)) fun visits reply =>
      match reply with
      | .ok row => ∀ e ∈ row, ∃ q ∈ block.entrypoints,
        A.outcome visits (.ofBlock block element) q (.ok e.2)
      | .error e => ∃ q ∈ block.entrypoints,
        ⟨.ofBlock block element, q, .error e⟩ ∈ visits ∧
          A.outcome visits (.ofBlock block element) q (.error e) := by
  refine Ensures.isolated (?_ : A.Ensures (.ofBlock block element) seen _ _)
  rw [Eval.row, hblock]
  have hmono : ∀ q visits visits' o, visits ⊆ visits' →
      A.Column (.ofBlock block element) q visits o →
      A.Column (.ofBlock block element) q visits' o := by
    intro q visits visits' o hmore h
    cases o with
    | ok e => exact A.mono hmore h
    | error e => exact ⟨hmore h.1, A.mono hmore h.2⟩
  refine (ensures_mapM hmono fun q hq visits _ => ?_).imp fun visits reply _ h => ?_
  · refine (hvalue _ q visits (hmay q hq)).bind (fun _ _ _ he => he) fun data last _ hdata => ?_
    exact ensures_pure fun _ hlast => A.mono hlast hdata.2
  · cases reply with
    | ok row =>
      intro e he
      exact exists_of_forall₂ h he
    | error e => exact h

/-- Evaluation has what is to hold, if each chunk has it when the chunks that it asks for do. -/
theorem answers_value {s : Setting σ}
    (hdepth : ∀ visits frame r,
      A.outcome visits frame r (.error (.depthExceeded s.config.maxDepth)))
    (hstep : ∀ value target, A.Answers may value → A.Answers may target → ∀ frame r seen,
      may frame r → A.Ensures frame seen (Eval.chunk (Traced.requests s frame value target) frame r)
        fun visits reply => A.outcome visits frame r reply)
    (levels : Nat) : A.Answers may (Traced.value s levels) := by
  induction levels using Nat.strongRecOn with
  | _ levels ih =>
    intro frame r seen hmay
    cases levels with
    | zero => exact Ensures.visit (ensures_throw fun visits _ => hdepth visits frame r)
    | succ levels =>
      rw [Traced.value_succ]
      exact Ensures.visit (Ensures.remember (hstep _ _ (ih levels (by omega))
        (ih (levels - 1) (by omega)) frame r seen hmay))

/-- What evaluation ensures of chunks holds of every visit of an execution, and of the session that
it leaves behind. -/
theorem Answers.trace {s : Setting σ} (h : A.Answers may (Traced.value s (s.config.maxDepth + 1)))
    {code : Code} {props : Dict Data} (hmay : ∀ r ∈ code.entrypoints, may ⟨code, props⟩ r)
    {session : Session σ} (hsession : A.session session)
    {result : List (Ref × Answer) × Session σ} {visits : List Visit}
    (hrun : s.trace code props session = some (result, visits)) :
    A.session result.2 ∧ ∀ v ∈ visits, A.outcome visits v.frame v.r v.outcome := by
  have hanswers (rs : List Ref) (hrs : ∀ r ∈ rs, may ⟨code, props⟩ r)
      (state : Progress σ × List Visit) (hkept : A.Kept ⟨code, props⟩ state.1 state.2)
      (given : List (Ref × Answer)) (after : Progress σ × List Visit)
      (hgiven : s.tracedAnswers ⟨code, props⟩ rs state = some (given, after)) :
      A.Kept ⟨code, props⟩ after.1 after.2 := by
    induction rs generalizing state given with
    | nil =>
      cases hgiven
      exact hkept
    | cons r rest ih =>
      replace hgiven : (Traced.value s (s.config.maxDepth + 1) ⟨code, props⟩ r state).bind _ =
        some (given, after) := hgiven
      rcases hfirst : Traced.value s (s.config.maxDepth + 1) ⟨code, props⟩ r state with
        _ | ⟨reply, mid⟩
      · rw [hfirst] at hgiven
        cases hgiven
      · obtain ⟨hmid, _, _⟩ := h _ r [] (hrs r List.mem_cons_self) state hkept
          (List.nil_subset _) _ _ hfirst
        rw [hfirst] at hgiven
        replace hgiven : (s.tracedAnswers ⟨code, props⟩ rest mid).bind _ = some (given, after) :=
          hgiven
        rcases hrest : s.tracedAnswers ⟨code, props⟩ rest mid with _ | ⟨others, last⟩
        · rw [hrest] at hgiven
          cases hgiven
        · rw [hrest] at hgiven
          cases hgiven
          exact ih (fun q hq => hrs q (List.mem_cons_of_mem _ hq)) mid hmid others hrest
  replace hrun : (s.tracedAnswers ⟨code, props⟩ code.entrypoints (⟨[], session⟩, [])).bind _ =
    some (result, visits) := hrun
  rcases hgiven : s.tracedAnswers ⟨code, props⟩ code.entrypoints (⟨[], session⟩, []) with
    _ | ⟨given, after⟩
  · rw [hgiven] at hrun
    cases hrun
  · rw [hgiven] at hrun
    cases hrun
    have hkept := hanswers _ hmay (⟨[], session⟩, []) ⟨hsession, nofun, nofun⟩ _ _ hgiven
    exact ⟨hkept.session, hkept.visits⟩

end Assurance

end AssetQuery
