import Mathlib.Data.List.Basic

/-!
# Parts between separators

Where the first of several parts can be told from a text, whatever follows it, all of them can that
stand there with separators between them.
-/

namespace AssetQuery

variable {α : Type}

/-- Whether a text that starts with a part tells which part it is, of some parts, and where it
ends, if the text goes on as it may. -/
def Told (write : α → List Char) (ok : α → Prop) (may : List Char → Prop) (a : α) : Prop :=
  ∀ b rest rest', ok b → may rest → may rest' → write a ++ rest = write b ++ rest' →
    a = b ∧ rest = rest'

theorem told_of_forall {sort : Char → Bool} {s : List Char} (hs : ∀ c ∈ s, sort c) :
    Told id (fun t => ∀ c ∈ t, sort c) (fun rest => ∀ c ∈ rest.head?, sort c = false) s := by
  have htake {s rest : List Char} (hs : ∀ c ∈ s, sort c)
      (hrest : ∀ c ∈ rest.head?, sort c = false) : (s ++ rest).takeWhile sort = s := by
    rw [List.takeWhile_append_of_pos hs]
    cases rest with
    | nil => simp
    | cons c rest => simp [hrest c rfl]
  intro t rest rest' ht hrest hrest' heq
  obtain rfl : s = t := by
    have hsame := congrArg (List.takeWhile sort) heq
    rwa [id, id, htake hs hrest, htake ht hrest'] at hsame
  exact ⟨rfl, List.append_cancel_left heq⟩

section Separated

variable {write : α → List Char} {ok : α → Prop} {may : List Char → Prop} {sep : Char}
  {rest rest' : List Char}

/-- What follows the first of several parts. -/
def afterFirst (write : α → List Char) (sep : Char) : List α → List Char → List Char
  | [], rest => rest
  | a :: as, rest => sep :: ([sep].intercalate ((a :: as).map write) ++ rest)

theorem intercalate_cons_append (a : α) (as : List α) (rest : List Char) :
    [sep].intercalate ((a :: as).map write) ++ rest = write a ++ afterFirst write sep as rest := by
  cases as with
  | nil => simp [afterFirst]
  | cons next as => simp [afterFirst, List.intercalate_cons_cons]

/-- Parts are told one after the other, if what follows the last does not start with a separator. -/
theorem told_intercalate (hsep : ∀ b rest, ok b → may (sep :: (write b ++ rest))) {a : α}
    {as : List α} (h : ∀ a' ∈ a :: as, ok a' ∧ Told write ok may a') :
    Told (fun as => [sep].intercalate (as.map write)) (fun bs => bs ≠ [] ∧ ∀ b ∈ bs, ok b)
      (fun rest => may rest ∧ sep ∉ rest.head?) (a :: as) := by
  have hafter {as : List α} {rest : List Char} (has : ∀ a ∈ as, ok a) (hrest : may rest) :
      may (afterFirst write sep as rest) := by
    cases as with
    | nil => exact hrest
    | cons next as =>
      rw [afterFirst, intercalate_cons_append]
      exact hsep next _ (has next List.mem_cons_self)
  rintro bs rest rest' ⟨hne, hbs⟩ hrest hrest' heq
  obtain ⟨b, bs, rfl⟩ := List.exists_cons_of_ne_nil hne
  induction as generalizing a b bs with
  | nil =>
    simp only [intercalate_cons_append] at heq
    obtain ⟨rfl, hends⟩ := (h a List.mem_cons_self).2 b _ _ (hbs b List.mem_cons_self)
      hrest.1 (hafter (List.forall_mem_cons.mp hbs).2 hrest'.1) heq
    cases bs with
    | nil => exact ⟨rfl, hends⟩
    | cons next bs =>
      have hrest := hrest.2
      rw [show rest = afterFirst write sep (next :: bs) rest' from hends] at hrest
      exact absurd rfl hrest
  | cons next as ih =>
    simp only [intercalate_cons_append] at heq
    obtain ⟨ha, has⟩ := List.forall_mem_cons.mp h
    obtain ⟨rfl, hends⟩ := ha.2 b _ _ (hbs b List.mem_cons_self)
      (hafter (fun a' ha' => (has a' ha').1) hrest.1)
      (hafter (List.forall_mem_cons.mp hbs).2 hrest'.1) heq
    cases bs with
    | nil =>
      have hrest' := hrest'.2
      rw [show rest' = afterFirst write sep (next :: as) rest from hends.symm] at hrest'
      exact absurd rfl hrest'
    | cons next' bs =>
      obtain ⟨hsame, hend⟩ := ih has next' bs (List.cons_ne_nil _ _)
        (List.forall_mem_cons.mp hbs).2 (List.cons.inj hends).2
      exact ⟨congrArg (a :: ·) hsame, hend⟩

end Separated

end AssetQuery
