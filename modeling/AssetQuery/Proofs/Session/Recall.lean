import AssetQuery.Proofs.Session.Attached

/-!
# Asking again

What a request came to it comes to on every session at rest that knows what was known after it: a
resource is there already, and a field is known or not declared. There nothing is done but that the
reply is given and written down. Nothing is kept of a field that turned out to depend on itself.
-/

namespace AssetQuery

variable {σ α : Type}

namespace Event

/-- Whether the computation of a field found that it depends on itself. -/
def isCircle : Event → Bool
  | computed _ _ none => true
  | _ => false

/-- Whether a field was read whose value was known. -/
def isAnswer : Event → Bool
  | answered .. => true
  | _ => false

end Event

namespace Session

variable {s : Setting σ} {session after later : Session σ} {key : Key}

/-- How many computations found that a field depends on itself. -/
def circles (session : Session σ) : Nat := session.journal.countP Event.isCircle

/-- The session in which more was done that changed nothing, the latest first. -/
def log (session : Session σ) (events : List Event) : Session σ :=
  { session with journal := events ++ session.journal }

theorem Grows.circles_le (h : session.Grows after) : session.circles ≤ after.circles :=
  h.journal.sublist.countP_le

/-- Where two steps found no circle, neither did. -/
theorem Grows.circles_eq {mid : Session σ} (h : session.Grows mid) (h' : mid.Grows after)
    (hcircles : after.circles = session.circles) :
    mid.circles = session.circles ∧ after.circles = mid.circles := by
  have hfew := h.circles_le
  have hmore := h'.circles_le
  omega

private theorem adopt_of_has (h : session.Has key) (inst : Instance σ) :
    session.adopt key inst = session :=
  if_pos (has_iff_instance?.mp h)

structure Rests (s : Setting σ) (session : Session σ) : Prop where
  attached : session.Attached s
  idle : session.computing = fun _ => []

structure Recalls (s : Setting σ) (later session : Session σ) : Prop where
  rests : later.Rests s
  has : ∀ {key}, session.Has key → later.Has key
  known : ∀ {key field data}, session.known? key field = some data →
    later.known? key field = some data

theorem Rests.recalls (h : session.Rests s) : session.Recalls s session := ⟨h, id, id⟩

theorem Recalls.of_grows (h : later.Recalls s after) (hgrows : session.Grows after) :
    later.Recalls s session := ⟨h.rests, h.has ∘ hgrows.has, h.known ∘ hgrows.known⟩

/-- Whether all that was done in between was to answer reads. -/
def Answers (session after : Session σ) : Prop :=
  ∃ events, (∀ e ∈ events, e.isAnswer) ∧ after = session.log events

theorem Answers.refl (session : Session σ) : session.Answers session :=
  ⟨[], List.forall_mem_nil _, rfl⟩

theorem Answers.trans {mid : Session σ} (h : session.Answers mid) (h' : mid.Answers after) :
    session.Answers after := by
  obtain ⟨events, hevents, rfl⟩ := h
  obtain ⟨events', hevents', rfl⟩ := h'
  refine ⟨events' ++ events, List.forall_mem_append.mpr ⟨hevents', hevents⟩, ?_⟩
  simp only [log, List.append_assoc]

theorem Recalls.of_answers (h : later.Recalls s session) (hanswers : later.Answers after) :
    after.Recalls s session := by
  obtain ⟨events, _, rfl⟩ := hanswers
  exact ⟨⟨h.rests.attached.congr rfl rfl rfl, h.rests.idle⟩, h.has, h.known⟩

theorem Rests.not_computing {inst : Instance σ} (h : session.Rests s)
    (hinst : session.instance? key = some inst) (name : String) : name ∉ inst.computing := by
  have hidle := congrFun h.idle key
  rw [Session.computing, hinst] at hidle
  simp only [Option.map_some, Option.getD_some] at hidle
  rw [hidle]
  exact List.not_mem_nil

end Session

/-- Requests from outside lead to sessions at rest. -/
theorem Setting.Reaches.rests {s : Setting σ} {memory : σ} {session : Session σ}
    (h : s.Reaches memory session) (hpure : s.PureFactories)
    (hhands : s.HandsOutAttached memory) : session.Rests s := by
  induction h with
  | start => exact ⟨.new memory, rfl⟩
  | create _ hargs hrun ih =>
    obtain ⟨hattached, hgrows, _⟩ := createStep_advances hpure _ _ hargs ih.attached _ _ hrun
    exact ⟨hattached, hgrows.computing.trans ih.idle⟩
  | read hsession hrun ih =>
    obtain ⟨hattached, hgrows, _⟩ := readStep_advances hhands
      (calls_attach hpure hhands s.nesting) (.inl hsession) ih.attached _ _ hrun
    exact ⟨hattached, hgrows.computing.trans ih.idle⟩
  | invalidate _ hrun ih =>
    cases hrun
    exact ⟨ih.attached.invalidate.record _, Session.computing_invalidate.trans ih.idle⟩

/-- Whether work comes to a reply on every session that recalls some session, and only answers
there. -/
def Work.Recalls (s : Setting σ) (w : Work σ α) (reply : α)
    (after : Session σ) : Prop :=
  ∀ later : Session σ, later.Recalls s after →
    ∃ events, (∀ e ∈ events, e.isAnswer) ∧ w later = some (reply, later.log events)

namespace Setting

variable {s : Setting σ} {calls : Calls σ} {session after : Session σ}
  {key : Key} {name : String}

private theorem readStep_recalls_of_known {data : Data} (h : after.known? key name = some data) :
    Work.Recalls s (s.readStep calls key name) (fieldResult key name data) after := by
  intro later hlater
  obtain ⟨inst, hinst, hknown⟩ := Option.bind_eq_some_iff.mp (hlater.known h)
  exact ⟨[.answered key name (fieldResult key name data)], by simp [Event.isAnswer],
    readStep_eq_some.mpr (.answered hinst hknown)⟩

private theorem readStep_recalls_of_undeclared (h : s.registry.field? key.name name = none)
    (hkey : after.Has key) :
    Work.Recalls s (s.readStep calls key name) (.error (.unknownField key.name name))
      after := by
  intro later hlater
  obtain ⟨inst, hinst⟩ := Option.isSome_iff_exists.mp
    (Session.has_iff_instance?.mp (hlater.has hkey))
  refine ⟨[], List.forall_mem_nil _, readStep_eq_some.mpr (.undeclared hinst ?_
    (hlater.rests.not_computing hinst name) h)⟩
  cases hknown : inst.known? name with
  | none => rfl
  | some data =>
    have hdeclared := (hlater.rests.attached.known key name data (by
      rw [Session.known?, hinst]
      exact hknown)).2
    rw [h] at hdeclared
    cases hdeclared

private theorem circles_concluded_error (mid : Session σ) (e : ResourceError) :
    (s.concluded key name mid (.error e)).circles = mid.circles + 1 := List.countP_cons_of_pos rfl

private theorem known?_concluded_ok (hcached : s.config.cacheErrors = true) {mid : Session σ}
    (hkey : mid.Has key) (data : Data) :
    (s.concluded key name mid (.ok data)).known? key name = some data := by
  obtain ⟨inst, hinst⟩ := Option.isSome_iff_exists.mp (Session.has_iff_instance?.mp hkey)
  have hfinished : ((mid.update key (·.finish name)).record
      (.computed key name (some data))).instance? key = some (inst.finish name) := by
    rw [Session.instance?_record, Session.instance?_update, if_pos rfl, hinst]
    rfl
  simp only [concluded]
  rw [hcached, Bool.or_true, if_pos rfl, Session.known?_keep hfinished, if_pos ⟨rfl, rfl⟩]

/-- What a read came to it comes to again. -/
theorem readStep_recalls {memory : σ} {depth : Nat} (hcached : s.config.cacheErrors = true)
    (hhands : s.HandsOutAttached memory) (hcalls : s.Attach memory (s.calls depth))
    (hasks : s.Asks memory key name session) (hsession : session.Rests s) (hkey : session.Has key)
    {reply : Except ResourceError Data}
    (hrun : s.readStep (s.calls depth) key name session = some (reply, after))
    (hcircles : after.circles = session.circles) :
    Work.Recalls s (s.readStep (s.calls depth) key name) reply after := by
  cases readStep_eq_some.mp hrun with
  | missing hinst =>
    rw [Session.has_iff_instance?, hinst] at hkey
    cases hkey
  | answered hinst hknown =>
    refine readStep_recalls_of_known ?_
    rw [Session.known?, Session.instance?_record, hinst]
    exact hknown
  | circular hinst _ hcomputing => exact absurd hcomputing (hsession.not_computing hinst name)
  | undeclared _ _ _ hundeclared => exact readStep_recalls_of_undeclared hundeclared hkey
  | @computed inst declared _ _ hinst hunknown hnew hdeclared hfield =>
    obtain ⟨outcome, mid, hcompute, rfl, rfl⟩ := computeField_eq_some.mp hfield
    obtain ⟨_, hgrows, _⟩ := compute_advances hhands hcalls hasks hsession.attached hinst hunknown
      hnew hdeclared _ _ hcompute
    cases hsettled : settled declared.typ outcome with
    | error e =>
      have hbefore : session.circles ≤ mid.circles := hgrows.circles_le
      rw [hsettled, circles_concluded_error] at hcircles
      omega
    | ok data =>
      refine readStep_recalls_of_known (known?_concluded_ok hcached (hgrows.has ?_) data)
      rwa [Session.Has, Session.args?_begin]

/-- What the creation of a resource came to it comes to again. -/
theorem createStep_recalls (hpure : s.PureFactories) {args : Dict Data}
    {reply : Except ResourceError Key}
    (hrun : s.createStep calls name args session = some (reply, after)) :
    Work.Recalls s (s.createStep calls name args) reply after := by
  intro later hlater
  rcases createStep_eq hpure name args with ⟨e, heq⟩ | ⟨key, made, provider, _, _, heq⟩
  · cases (heq calls session).symm.trans hrun
    exact ⟨[], List.forall_mem_nil _, heq calls later⟩
  · cases (heq calls session).symm.trans hrun
    refine ⟨[], List.forall_mem_nil _, (heq calls later).trans ?_⟩
    rw [Session.adopt_of_has (hlater.has Session.has_adopt)]
    rfl

end Setting

end AssetQuery
