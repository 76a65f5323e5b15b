import AssetQuery.Proofs.Session.Work

/-!
# Sessions that share resources

What the resources of a session were made of, and how those of a session to which an earlier one
contributed compare with those of one that started afresh.
-/

namespace AssetQuery

variable {σ : Type}

namespace Session

variable {session after earlier shared : Session σ} {key : Key} {args : Dict Data}

/-- What a resource was made of, if it is there. -/
def args? (session : Session σ) (key : Key) : Option (Dict Data) :=
  (session.instance? key).map (·.args)

/-- The resources, each with what it was made of. -/
def made (session : Session σ) : List (Key × Dict Data) :=
  session.instances.map fun e => (e.1, e.2.args)

private theorem args?_eq_lookup (session : Session σ) (key : Key) :
    session.args? key = session.made.lookup key := by
  rw [args?, instance?, made]
  induction session.instances with
  | nil => rfl
  | cons e rest ih =>
    rw [List.map_cons, List.lookup_cons, List.lookup_cons]
    split
    · rfl
    · exact ih

/-- Whether a resource is there. -/
def Has (session : Session σ) (key : Key) : Prop := (session.args? key).isSome

theorem args?_eq_some :
    session.args? key = some args ↔ ∃ inst, session.instance? key = some inst ∧ inst.args = args :=
  Option.map_eq_some_iff

theorem has_iff_instance? : session.Has key ↔ (session.instance? key).isSome := by
  rw [Has, args?, Option.isSome_map]

theorem args?_update {f : Instance σ → Instance σ} (hf : ∀ inst, (f inst).args = inst.args) :
    (session.update key f).args? = session.args? := by
  funext k
  rw [args?, args?, instance?_update]
  split
  · cases session.instance? k <;> simp [hf]
  · rfl

theorem args?_keep {field : String} {data : Data} :
    (session.update key (·.keep field data)).args? = session.args? := args?_update fun _ => rfl

theorem args?_begin {field : String} :
    (session.update key (·.begin field)).args? = session.args? := args?_update fun _ => rfl

theorem args?_finish {field : String} :
    (session.update key (·.finish field)).args? = session.args? := args?_update fun _ => rfl

theorem args?_adopt {inst : Instance σ} (k : Key) :
    (session.adopt key inst).args? k =
      (session.args? k).or (if k = key then some inst.args else none) := by
  rw [args?, args?, instance?_adopt]
  cases session.instance? k with
  | some found => rfl
  | none => split <;> rfl

theorem has_adopt {inst : Instance σ} : (session.adopt key inst).Has key := by
  rw [Has, args?_adopt, if_pos rfl]
  cases session.args? key <;> rfl

/-- Whether the resources of a session are still there, made of what they were made of. -/
def Extends (session after : Session σ) : Prop :=
  ∀ key args, session.args? key = some args → after.args? key = some args

theorem Extends.refl (session : Session σ) : session.Extends session := fun _ _ h => h

theorem Extends.trans {mid : Session σ} (h : session.Extends mid) (h' : mid.Extends after) :
    session.Extends after := fun key args hargs => h' key args (h key args hargs)

theorem Extends.of_args?_eq (h : after.args? = session.args?) : session.Extends after :=
  fun _ _ hargs => h ▸ hargs

theorem Extends.has (h : session.Extends after) (hkey : session.Has key) : after.Has key := by
  obtain ⟨args, hargs⟩ := Option.isSome_iff_exists.mp hkey
  exact Option.isSome_iff_exists.mpr ⟨args, h key args hargs⟩

theorem extends_adopt {inst : Instance σ} : session.Extends (session.adopt key inst) := by
  intro k args hargs
  rw [args?_adopt, hargs]
  rfl

/-- Whether the resources that are in two sessions were made of the same in both. -/
def Agrees (session other : Session σ) : Prop :=
  ∀ key args args', session.args? key = some args → other.args? key = some args' → args = args'

theorem Agrees.of_extends (h : earlier.Agrees after) (hextends : session.Extends after) :
    earlier.Agrees session :=
  fun key args args' hargs hargs' => h key args args' hargs (hextends key args' hargs')

theorem Agrees.of_made_eq {other : Session σ} (h : session.made = other.made) :
    session.Agrees other := by
  intro key args args' hargs hargs'
  rw [args?_eq_lookup, h] at hargs
  rw [args?_eq_lookup] at hargs'
  exact Option.some.inj (hargs.symm.trans hargs')

/-- Whether the resources of a session are those of another and, beside them, those of an earlier
one. -/
def Joins (shared earlier session : Session σ) : Prop :=
  ∀ key, shared.args? key = (session.args? key).or (earlier.args? key)

theorem joins_new (memory : σ) : earlier.Joins earlier (new memory) := fun _ => rfl

theorem Joins.args? (h : shared.Joins earlier session) (hargs : session.args? key = some args) :
    shared.args? key = some args := by
  rw [h key, hargs]
  rfl

theorem Joins.has (h : shared.Joins earlier session) (hkey : session.Has key) : shared.Has key := by
  obtain ⟨args, hargs⟩ := Option.isSome_iff_exists.mp hkey
  exact Option.isSome_iff_exists.mpr ⟨args, h.args? hargs⟩

theorem Joins.congr {shared' : Session σ} (h : shared.Joins earlier session)
    (hshared : shared'.args? = shared.args?) (hafter : after.args? = session.args?) :
    shared'.Joins earlier after := by
  rw [Joins, hshared, hafter]
  exact h

/-- A resource that both get is there in the end as it is in the session that started afresh, unless
the earlier one made it of something else. -/
theorem Joins.adopt {inst inst' : Instance σ} (h : shared.Joins earlier session)
    (hagrees : earlier.Agrees (session.adopt key inst)) (hargs : inst'.args = inst.args) :
    (shared.adopt key inst').Joins earlier (session.adopt key inst) := by
  intro k
  rw [args?_adopt, args?_adopt, h k, hargs]
  cases hsession : session.args? k with
  | some args => rfl
  | none =>
    split
    · next hk =>
      cases hearlier : earlier.args? k with
      | none => rfl
      | some args =>
        have hnew : (session.adopt key inst).args? k = some inst.args := by
          rw [args?_adopt, hsession, if_pos hk]
          rfl
        obtain rfl := hagrees k args inst.args hearlier hnew
        rfl
    · cases earlier.args? k <;> rfl

end Session

/-- Whether work has an outcome, the same on a session to which an earlier one contributed, unless
resources of the same key were made of different arguments. -/
def Work.Repeats {α : Type} (steady : Session σ → Prop) (w : Work σ α) (session : Session σ)
    (post : Session σ → α → Prop) : Prop :=
  ∃ reply after, w session = some (reply, after) ∧ steady after ∧ session.Extends after ∧
    post after reply ∧
    ∀ earlier shared, steady shared → shared.Joins earlier session → earlier.Agrees after →
      ∃ last, w shared = some (reply, last) ∧ steady last ∧ last.Joins earlier after

end AssetQuery
