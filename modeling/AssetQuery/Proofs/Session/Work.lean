import AssetQuery.Session.Request

/-!
# What work keeps

A property of sessions that work keeps, whatever its outcome, is closed under the operations that
work is put together from.
-/

namespace AssetQuery

variable {σ α β : Type}

/-- Whether work on a session keeps it as it is to be, and has an outcome as stated if it has
one. -/
def Work.Keeps (kept : Session σ → Prop) (w : Work σ α) (post : α → Prop) : Prop :=
  ∀ session, kept session → ∀ reply after, w session = some (reply, after) →
    kept after ∧ post reply

namespace Work

variable {kept : Session σ → Prop} {w : Work σ α} {post : α → Prop} {post' : β → Prop}

theorem keeps_pure {a : α} (h : post a) : Keeps kept (pure a) post := by
  rintro session hkept _ _ ⟨⟩
  exact ⟨hkept, h⟩

theorem keeps_modify {f : Session σ → Session σ} (h : ∀ session, kept session → kept (f session)) :
    Keeps kept (modify f) fun _ => True := by
  rintro session hkept _ _ ⟨⟩
  exact ⟨h session hkept, trivial⟩

theorem run_get_bind (f : Session σ → Work σ α) (session : Session σ) :
    (get >>= f) session = f session session := rfl

theorem run_modify_bind (f : Session σ → Session σ) (g : PUnit → Work σ α) (session : Session σ) :
    (modify f >>= g) session = g ⟨⟩ (f session) := rfl

theorem run_bind {f : α → Work σ β} {session after : Session σ} {a : α}
    (h : w session = some (a, after)) : (w >>= f) session = f a after := by
  show (w session).bind _ = _
  rw [h]
  rfl

theorem bind_eq_some {f : α → Work σ β} {session after : Session σ} {b : β} :
    (w >>= f) session = some (b, after) ↔
      ∃ a mid, w session = some (a, mid) ∧ f a mid = some (b, after) := by
  refine Option.bind_eq_some_iff.trans ⟨?_, ?_⟩
  · rintro ⟨⟨a, mid⟩, hfirst, hrest⟩
    exact ⟨a, mid, hfirst, hrest⟩
  · rintro ⟨a, mid, hfirst, hrest⟩
    exact ⟨(a, mid), hfirst, hrest⟩

theorem Keeps.bind {f : α → Work σ β} (hw : Keeps kept w post)
    (hf : ∀ a, post a → Keeps kept (f a) post') : Keeps kept (w >>= f) post' := by
  intro session hkept reply after hrun
  obtain ⟨a, mid, hfirst, hrest⟩ := bind_eq_some.mp hrun
  obtain ⟨hmid, ha⟩ := hw session hkept a mid hfirst
  exact hf a ha mid hmid reply after hrest

/-- What is found in the session is as it is to be. -/
theorem keeps_get {f : Session σ → Work σ β}
    (hf : ∀ session, kept session → Keeps kept (f session) post') :
    Keeps kept (get >>= f) post' :=
  fun session hkept reply after hrun => hf session hkept session hkept reply after hrun

theorem Keeps.imp {weaker : α → Prop} (h : Keeps kept w post) (himp : ∀ a, post a → weaker a) :
    Keeps kept w weaker := by
  intro session hkept reply after hrun
  obtain ⟨hafter, hpost⟩ := h session hkept reply after hrun
  exact ⟨hafter, himp reply hpost⟩

end Work

namespace Script

variable {s : Setting σ} {calls : Calls σ} {session mid : Session σ} {f : α → Script σ β}

theorem perform_andThen (script : Script σ α) (f : α → Script σ β) :
    (script.andThen f).perform s calls = (do
      match ← script.perform s calls with
      | .ok a => (f a).perform s calls
      | .error cause => return .error cause : Work σ (Except Failure β)) := by
  induction script with
  | done a => rfl
  | fail cause => rfl
  | load next ih => simp only [andThen, perform, bind_assoc, ih]
  | save memory next ih => simp only [andThen, perform, bind_assoc, ih]
  | look next ih => simp only [andThen, perform, ih]
  | run command next ih => simp only [andThen, perform, bind_assoc, ih]
  | read key field next ih => simp only [andThen, perform, bind_assoc, ih]
  | create name args next ih => simp only [andThen, perform, bind_assoc, ih]
  | invalidate key field next ih => simp only [andThen, perform, bind_assoc, ih]

theorem perform_andThen_ok (script : Script σ α) {a : α}
    (h : script.perform s calls session = some (.ok a, mid)) :
    (script.andThen f).perform s calls session = (f a).perform s calls mid := by
  rw [perform_andThen, Work.run_bind h]

theorem perform_andThen_error (script : Script σ α) {cause : Failure}
    (h : script.perform s calls session = some (.error cause, mid)) :
    (script.andThen f).perform s calls session = some (.error cause, mid) := by
  rw [perform_andThen, Work.run_bind h]
  rfl

end Script

end AssetQuery
