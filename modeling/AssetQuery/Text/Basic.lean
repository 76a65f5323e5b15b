/-!
# White space and dotted names

The characters with the Unicode property White_Space, and trimming by them. Dotted names and their
parts: the text without any dot has one part, and parts may be empty.
-/

namespace AssetQuery

/-- The characters with the Unicode property White_Space. -/
def isBlank (c : Char) : Bool :=
  let n := c.val
  (0x09 ≤ n && n ≤ 0x0d) || n == 0x20 || n == 0x85 || n == 0xa0 || n == 0x1680 ||
    (0x2000 ≤ n && n ≤ 0x200a) || n == 0x2028 || n == 0x2029 || n == 0x202f || n == 0x205f ||
    n == 0x3000

/-- A text without the white space at its ends. -/
def trim (cs : List Char) : List Char :=
  ((cs.dropWhile isBlank).reverse.dropWhile isBlank).reverse

theorem length_trim_le (cs : List Char) : (trim cs).length ≤ cs.length := by
  have hfront := (List.dropWhile_sublist (l := cs) isBlank).length_le
  have hback := (List.dropWhile_sublist (l := (cs.dropWhile isBlank).reverse) isBlank).length_le
  simp only [List.length_reverse] at hback
  simp only [trim, List.length_reverse]
  omega

end AssetQuery

namespace AssetQuery.Dotted

def splitChars : List Char → List (List Char)
  | [] => [[]]
  | c :: rest =>
    if c = '.' then [] :: splitChars rest
    else match splitChars rest with
      | part :: parts => (c :: part) :: parts
      | [] => [[c]]

/-- The parts between the dots. -/
def parts (name : String) : List String := (splitChars name.toList).map String.ofList

def joinChars : List (List Char) → List Char
  | [] => []
  | [part] => part
  | part :: parts => part ++ '.' :: joinChars parts

/-- The name with the given parts. -/
def join (parts : List String) : String := String.ofList (joinChars (parts.map String.toList))

theorem splitChars_ne_nil (text : List Char) : splitChars text ≠ [] := by
  cases text with
  | nil => simp [splitChars]
  | cons c rest =>
    simp only [splitChars]
    split
    · simp
    · split <;> simp

private theorem joinChars_splitChars (text : List Char) : joinChars (splitChars text) = text := by
  induction text with
  | nil => rfl
  | cons c rest ih =>
    simp only [splitChars]
    split
    · next hc =>
      subst hc
      cases h : splitChars rest with
      | nil => exact absurd h (splitChars_ne_nil rest)
      | cons part parts => simp [joinChars, ← h, ih]
    · cases h : splitChars rest with
      | nil => exact absurd h (splitChars_ne_nil rest)
      | cons part parts =>
        rw [h] at ih
        cases parts with
        | nil => simpa [joinChars] using ih
        | cons next others => simpa [joinChars] using ih

theorem join_parts (name : String) : join (parts name) = name := by
  simp [join, parts, Function.comp_def, joinChars_splitChars]

end AssetQuery.Dotted
