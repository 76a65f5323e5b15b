import AssetQuery.Json.Reader

/-!
# Strings spelled and read back

What a text is spelled as ends at the first quotation mark after it, and spells that text.
-/

namespace AssetQuery.Json

/-- How a character may be spelled: by a letter after a backslash, by its number if it is a control
character, or as it is. -/
inductive Spells : List Char → Char → Prop
  | letter {e c : Char} : escaped? e = some c → Spells ['\\', e] c
  | number {a b c : Char} : hexValue4? '0' '0' a b = some c.toNat → c.toNat < 0x20 →
    Spells ['\\', 'u', '0', '0', a, b] c
  | plain {c : Char} : c ≠ '"' → c ≠ '\\' → ¬c.val < 0x20 → Spells [c] c

private theorem hexValue4?_of_control : ∀ n < 0x20,
    hexValue4? '0' '0' (Nat.digitChar (n / 16)) (Nat.digitChar (n % 16)) = some n := by
  decide

private theorem eq_of_val_eq {c : Char} {n : Nat} (h : c.toNat = n) : c = Char.ofNat n := by
  rw [← h, Char.ofNat_toNat]

theorem spells_spellChar (c : Char) : Spells (spellChar c) c := by
  rw [spellChar]
  split
  · next h =>
    subst h
    exact .letter rfl
  split
  · next h =>
    subst h
    exact .letter rfl
  split
  · next h =>
    obtain rfl : c = '\x08' := eq_of_val_eq (congrArg UInt32.toNat h)
    exact .letter rfl
  split
  · next h =>
    obtain rfl : c = '\x0c' := eq_of_val_eq (congrArg UInt32.toNat h)
    exact .letter rfl
  split
  · next h =>
    subst h
    exact .letter rfl
  split
  · next h =>
    subst h
    exact .letter rfl
  split
  · next h =>
    subst h
    exact .letter rfl
  split
  · next h =>
    have hlt : c.toNat < 0x20 := UInt32.lt_iff_toNat_lt.mp h
    exact .number (hexValue4?_of_control c.toNat hlt) hlt
  · next hquote hbackslash _ _ _ _ _ hcontrol => exact .plain hquote hbackslash hcontrol

section Spells

variable {s : List Char} {c : Char}

theorem escaped?_ne_u {e : Char} (h : escaped? e = some c) : e ≠ 'u' := by
  rintro rfl
  cases h

private theorem Spells.unspellChars (h : Spells s c) (rest : List Char) :
    unspellChars (s ++ rest) = (unspellChars rest).map (c :: ·) := by
  cases h with
  | letter he =>
    have hne := escaped?_ne_u he
    simp [Json.unspellChars, hne, he]
  | number hvalue hlt =>
    have hlow : ¬(0xdc00 ≤ c.toNat) := by omega
    have hhigh : ¬(0xd800 ≤ c.toNat) := by omega
    simp [Json.unspellChars, hvalue, hlow, hhigh]
  | plain _ hbackslash _ => simp [Json.unspellChars, hbackslash]

theorem Spells.stringEnd (h : Spells s c) (rest : List Char) :
    stringEnd (s ++ rest) = (stringEnd rest).map fun (t, rest) => (s ++ t, rest) := by
  cases h with
  | letter he =>
    have hne := escaped?_ne_u he
    simp [Json.stringEnd, hne, he]
  | number hvalue _ => simp [Json.stringEnd, hvalue]
  | plain hquote hbackslash hcontrol => simp [Json.stringEnd, hbackslash, hcontrol]

end Spells

theorem unspell?_spell (text : String) : unspell? (spell text) = some text := by
  have hchars (cs : List Char) : unspellChars (cs.flatMap spellChar) = some cs := by
    induction cs with
    | nil => rfl
    | cons c rest ih =>
      rw [List.flatMap_cons, (spells_spellChar c).unspellChars, ih, Option.map_some]
  rw [unspell?, spell, String.toList_ofList, hchars, Option.map_some, String.ofList_toList]

/-- Whether a spelling between quotation marks is read up to its end. -/
def Closed (spelling : String) : Prop :=
  ∀ rest, stringEnd (spelling.toList ++ '"' :: rest) = some (spelling.toList, rest)

theorem closed_spell (text : String) : Closed (spell text) := by
  intro rest
  rw [spell, String.toList_ofList]
  induction text.toList with
  | nil => rfl
  | cons c cs ih =>
    rw [List.flatMap_cons, List.append_assoc, (spells_spellChar c).stringEnd, ih, Option.map_some]

theorem closed_of_plain {spelling : String}
    (h : ∀ c ∈ spelling.toList, c ≠ '"' ∧ c ≠ '\\' ∧ ¬c.val < 0x20) : Closed spelling := by
  intro rest
  generalize spelling.toList = cs at h
  induction cs with
  | nil => rfl
  | cons c cs ih =>
    obtain ⟨⟨hquote, hbackslash, hcontrol⟩, hcs⟩ := List.forall_mem_cons.mp h
    have hc := (Spells.plain hquote hbackslash hcontrol).stringEnd (cs ++ '"' :: rest)
    rw [ih hcs] at hc
    exact hc

end AssetQuery.Json
