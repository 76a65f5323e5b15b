import AssetQuery.Session.Script

/-!
# Fields that pass on fields

Where every field of a resource is a constant, fails, or passes on another field of the resource, at
most one way leads on from a field. Following it, one comes to a field that does not pass on
another, or meets a field twice. Either of the two tells how a read of the first field is answered.
-/

namespace AssetQuery

/-- What a provider does for a field. -/
inductive FieldRule where
  | constant (data : Data)
  | failing (cause : Failure)
  /-- Passes on another field, or fails as that does, with some context. -/
  | passing (field : String) (context : Option String)

/-- How a field fails that passes on one whose read is an error. -/
def ResourceError.passedOn (e : ResourceError) (context : Option String) : Failure :=
  context.elim (.resource e) (.during · (.resource e))

/-- Gives data without a value the type of the field that it is given for. -/
def Data.filled (t : Ty) (data : Data) : Data :=
  if data.value.isNil && data.error.isNone then { data with typ := t } else data

/-- The declared fields of a resource, with their types, and what its provider does for each. -/
structure FieldGraph where
  resource : String
  typ? : String → Option Ty
  rule : String → FieldRule

/-- How a field ends that does not pass on another: with a value, with a failure, or as one that
fails by a circle of fields elsewhere. -/
inductive Ending where
  | value (data : Data)
  | failure (cause : String)
  | told (e : ResourceError)

namespace FieldGraph

variable {G : FieldGraph}

/-- The ending of a declared field, unless it passes on another declared field. -/
def ending? (G : FieldGraph) (f : String) : Option Ending :=
  if (G.typ? f).isSome then
    match G.rule f with
    | .constant data => some (data.error.elim (.value data) .failure)
    | .failing cause => some (cause.circle?.elim (.failure cause.message) .told)
    | .passing g context =>
      if (G.typ? g).isSome then none
      else some (.failure ((ResourceError.unknownField G.resource g).passedOn context).message)
  else none

/-- Whether a declared field passes on another. -/
def Next (G : FieldGraph) (f g : String) : Prop :=
  (G.typ? f).isSome ∧ (G.typ? g).isSome ∧ ∃ context, G.rule f = .passing g context

/-- A way that leads from a field over the fields of a list to a field behind them. -/
inductive Walk (G : FieldGraph) : String → List String → String → Prop
  | here (f : String) : Walk G f [] f
  | on {f g last : String} {path : List String} :
      G.Next f g → Walk G g path last → Walk G f (f :: path) last

/-- Why a field fails from which fields lead on to one that fails by `cause`. -/
def causeAlong (G : FieldGraph) (cause : String) : List String → String
  | [] => cause
  | f :: path =>
    match G.rule f with
    | .passing g context =>
      ((ResourceError.fieldComputation G.resource g (G.causeAlong cause path)).passedOn
        context).message
    | _ => G.causeAlong cause path

/-- How a read of a field is answered from which fields lead on to an ending. -/
def replyAlong (G : FieldGraph) (f : String) (path : List String) :
    Ending → Except ResourceError Data
  | .value data => .ok (data.filled ((G.typ? f).getD .any))
  | .failure cause => .error (.fieldComputation G.resource f (G.causeAlong cause path))
  | .told e => .error e

/-- How a read of a field is answered that comes to an end. -/
def Ends (G : FieldGraph) (f : String) (reply : Except ResourceError Data) : Prop :=
  ∃ path last e, G.Walk f path last ∧ G.ending? last = some e ∧ reply = G.replyAlong f path e

/-- How a read of a field is answered: by what the way from it comes to, or by the first field that
is met twice. -/
inductive Answer (G : FieldGraph) (f : String) : Except ResourceError Data → Prop
  | ends {reply : Except ResourceError Data} : G.Ends f reply → Answer G f reply
  | circle {path : List String} {g : String} :
      G.Walk f path g → path.Nodup → g ∈ path → Answer G f (.error (.cyclic G.resource g))

theorem Next.ending? {f g : String} (h : G.Next f g) : G.ending? f = none := by
  obtain ⟨hf, hg, context, hrule⟩ := h
  simp only [FieldGraph.ending?, hf, hrule, hg, if_true]

theorem Next.unique {f g g' : String} (h : G.Next f g) (h' : G.Next f g') : g = g' := by
  obtain ⟨_, _, _, hrule⟩ := h
  obtain ⟨_, _, _, hrule'⟩ := h'
  rw [hrule] at hrule'
  exact (FieldRule.passing.inj hrule').1

namespace Walk

variable {f last last' : String} {path path' : List String}

theorem comparable (h : G.Walk f path last) (h' : G.Walk f path' last') :
    (∃ rest, path' = path ++ rest ∧ G.Walk last rest last') ∨
      ∃ rest, path = path' ++ rest ∧ G.Walk last' rest last := by
  induction h generalizing path' with
  | here f => exact .inl ⟨path', rfl, h'⟩
  | @on f g last path hnext hwalk ih =>
    cases h' with
    | here => exact .inr ⟨_, rfl, .on hnext hwalk⟩
    | on hnext' hwalk' =>
      cases hnext.unique hnext'
      rcases ih hwalk' with ⟨rest, rfl, hrest⟩ | ⟨rest, rfl, hrest⟩
      · exact .inl ⟨rest, rfl, hrest⟩
      · exact .inr ⟨rest, rfl, hrest⟩

private theorem eq_of_ending (h : G.Walk f path last) {e : Ending} (he : G.ending? f = some e) :
    path = [] ∧ last = f := by
  cases h with
  | here => exact ⟨rfl, rfl⟩
  | on hnext =>
    rw [hnext.ending?] at he
    cases he

private theorem unique (h : G.Walk f path last) {e : Ending} (he : G.ending? last = some e)
    (h' : G.Walk f path' last') {e' : Ending} (he' : G.ending? last' = some e') :
    path = path' ∧ last = last' := by
  rcases h.comparable h' with ⟨rest, rfl, hrest⟩ | ⟨rest, rfl, hrest⟩
  · obtain ⟨rfl, rfl⟩ := hrest.eq_of_ending he
    exact ⟨by simp, rfl⟩
  · obtain ⟨rfl, rfl⟩ := hrest.eq_of_ending he'
    exact ⟨by simp, rfl⟩

private theorem exists_next (h : G.Walk f path last) {p : String} (hp : p ∈ path) :
    ∃ g, G.Next p g ∧ (g ∈ path ∨ g = last) := by
  induction h with
  | here => cases hp
  | @on f g last path hnext hwalk ih =>
    rcases List.mem_cons.mp hp with rfl | hp
    · refine ⟨g, hnext, ?_⟩
      cases hwalk with
      | here => exact .inr rfl
      | on => exact .inl (by simp)
    · obtain ⟨g', hnext', hg'⟩ := ih hp
      exact ⟨g', hnext', hg'.imp (List.mem_cons_of_mem _) id⟩

/-- A way that meets a field twice does not come to an end, from whichever of its fields. -/
theorem not_ends (h : G.Walk f path last) (hlast : last ∈ path) {p : String} (hp : p ∈ path)
    {reply : Except ResourceError Data} : ¬G.Ends p reply := by
  rintro ⟨path', last', e, hwalk, he, -⟩
  induction hwalk with
  | here p =>
    obtain ⟨_, hnext, _⟩ := h.exists_next hp
    rw [hnext.ending?] at he
    cases he
  | on hnext _ ih =>
    obtain ⟨g, hnext', hg⟩ := h.exists_next hp
    cases hnext.unique hnext'
    exact ih (hg.elim id fun hg => hg ▸ hlast) he

private theorem mem_of_circle (h : G.Walk f path last) (hlast : last ∈ path) : f ∈ path := by
  cases h with
  | here => cases hlast
  | on => exact List.mem_cons_self

private theorem circle_unique (h : G.Walk f path last) (hnodup : path.Nodup) (hlast : last ∈ path)
    (h' : G.Walk f path' last') (hnodup' : path'.Nodup) (hlast' : last' ∈ path') :
    last = last' := by
  rcases h.comparable h' with ⟨rest, rfl, hrest⟩ | ⟨rest, rfl, hrest⟩
  · cases hrest with
    | here => rfl
    | on => exact absurd rfl ((List.nodup_append.mp hnodup').2.2 _ hlast _ List.mem_cons_self)
  · cases hrest with
    | here => rfl
    | on => exact absurd rfl ((List.nodup_append.mp hnodup).2.2 _ hlast' _ List.mem_cons_self)

end Walk

private theorem Ends.unique {f : String} {reply reply' : Except ResourceError Data}
    (h : G.Ends f reply) (h' : G.Ends f reply') : reply = reply' := by
  obtain ⟨path, last, e, hwalk, he, rfl⟩ := h
  obtain ⟨path', last', e', hwalk', he', rfl⟩ := h'
  obtain ⟨rfl, rfl⟩ := hwalk.unique he hwalk' he'
  cases he.symm.trans he'
  rfl

/-- Reads of a field are answered in one way. -/
theorem Answer.unique {f : String} {reply reply' : Except ResourceError Data}
    (h : G.Answer f reply) (h' : G.Answer f reply') : reply = reply' := by
  cases h with
  | ends hends =>
    cases h' with
    | ends hends' => exact hends.unique hends'
    | circle hwalk _ hmem => exact absurd hends (hwalk.not_ends hmem (hwalk.mem_of_circle hmem))
  | circle hwalk hnodup hmem =>
    cases h' with
    | ends hends => exact absurd hends (hwalk.not_ends hmem (hwalk.mem_of_circle hmem))
    | circle hwalk' hnodup' hmem' =>
      rw [hwalk.circle_unique hnodup hmem hwalk' hnodup' hmem']

end FieldGraph

end AssetQuery
