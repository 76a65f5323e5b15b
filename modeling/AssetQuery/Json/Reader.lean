import AssetQuery.Json.Basic

/-!
# Reading JSON

The grammar of JSON, read from the front of a text. Documents keep their spelling, so that what a
number or a string stands for is asked only of those that are looked at.
-/

namespace AssetQuery.Json

def isBlank (c : Char) : Bool := c = ' ' || c = '\n' || c = '\t' || c = '\r'

def skipBlanks (text : List Char) : List Char := text.dropWhile isBlank

def isDigit (c : Char) : Bool := '0' ≤ c && c ≤ '9'

/-- The digits at the front of a text, and the rest of it. -/
def digits (text : List Char) : List Char × List Char := text.span isDigit

/-- At least one digit. -/
def someDigits (text : List Char) : Option (List Char × List Char) :=
  match digits text with
  | ([], _) => none
  | found => some found

/-- The digits before the point: none of them is a zero in front of others. -/
def wholeDigits : List Char → Option (List Char × List Char)
  | '0' :: rest => some (['0'], rest)
  | text => someDigits text

/-- The point and the digits after it, if there is a point. -/
def fraction : List Char → Option (List Char × List Char)
  | '.' :: rest => (someDigits rest).map fun (ds, rest) => ('.' :: ds, rest)
  | text => some ([], text)

/-- The exponent with its mark and sign, if there is a mark. -/
def exponent : List Char → Option (List Char × List Char)
  | c :: rest =>
    if c = 'e' || c = 'E' then
      match rest with
      | s :: signed =>
        if s = '+' || s = '-' then
          (someDigits signed).map fun (ds, rest) => (c :: s :: ds, rest)
        else (someDigits rest).map fun (ds, rest) => (c :: ds, rest)
      | [] => none
    else some ([], c :: rest)
  | [] => some ([], [])

/-- A number without its sign. -/
def unsigned (text : List Char) : Option (List Char × List Char) := do
  let (whole, text) ← wholeDigits text
  let (frac, text) ← fraction text
  let (exp, text) ← exponent text
  return (whole ++ frac ++ exp, text)

def number? : List Char → Option (List Char × List Char)
  | '-' :: rest => (unsigned rest).map fun (ds, rest) => ('-' :: ds, rest)
  | text => unsigned text

/-- The spelling of a string up to the quotation mark that ends it, and the text after that mark.
Escapes have to be well formed; surrogates are not looked at. -/
def stringEnd : List Char → Option (List Char × List Char)
  | [] => none
  | '"' :: rest => some ([], rest)
  | '\\' :: 'u' :: a :: b :: c :: d :: rest =>
    if (hexValue4? a b c d).isSome then
      (stringEnd rest).map fun (s, rest) => ('\\' :: 'u' :: a :: b :: c :: d :: s, rest)
    else none
  | '\\' :: c :: rest =>
    if (escaped? c).isSome then (stringEnd rest).map fun (s, rest) => ('\\' :: c :: s, rest)
    else none
  | c :: rest =>
    if c = '\\' || c.val < 0x20 then none
    else (stringEnd rest).map fun (s, rest) => (c :: s, rest)

/-- The rest of a text after a word. -/
def afterWord : (word text : List Char) → Option (List Char)
  | [], text => some text
  | _ :: _, [] => none
  | c :: word, d :: text => if c = d then afterWord word text else none

mutual

/-- A document at the front of a text, blanks before it included. `steps` bounds the steps. -/
def value? : (steps : Nat) → List Char → Option (Json × List Char)
  | 0, _ => none
  | steps + 1, text =>
    match skipBlanks text with
    | [] => none
    | c :: rest =>
      if c = '[' then
        match skipBlanks rest with
        | ']' :: rest => some (.array [], rest)
        | _ => (items? steps rest).map fun (items, rest) => (.array items, rest)
      else if c = '\x7b' then
        match skipBlanks rest with
        | '\x7d' :: rest => some (.object [], rest)
        | _ => (members? steps rest).map fun (members, rest) => (.object members, rest)
      else if c = '"' then
        (stringEnd rest).map fun (s, rest) => (.string (String.ofList s), rest)
      else if c = 'n' then (afterWord "ull".toList rest).map fun rest => (.null, rest)
      else if c = 't' then (afterWord "rue".toList rest).map fun rest => (.bool true, rest)
      else if c = 'f' then (afterWord "alse".toList rest).map fun rest => (.bool false, rest)
      else (number? (c :: rest)).map fun (ds, rest) => (.number (String.ofList ds), rest)

/-- The items of an array up to its end. -/
def items? : (steps : Nat) → List Char → Option (List Json × List Char)
  | 0, _ => none
  | steps + 1, text =>
    match value? steps text with
    | none => none
    | some (item, rest) =>
      match skipBlanks rest with
      | ',' :: rest => (items? steps rest).map fun (items, rest) => (item :: items, rest)
      | ']' :: rest => some ([item], rest)
      | _ => none

/-- The members of an object up to its end. -/
def members? : (steps : Nat) → List Char → Option (List (String × Json) × List Char)
  | 0, _ => none
  | steps + 1, text =>
    match skipBlanks text with
    | '"' :: rest =>
      match stringEnd rest with
      | none => none
      | some (name, rest) =>
        match skipBlanks rest with
        | ':' :: rest =>
          match value? steps rest with
          | none => none
          | some (value, rest) =>
            let member := (String.ofList name, value)
            match skipBlanks rest with
            | ',' :: rest =>
              (members? steps rest).map fun (members, rest) => (member :: members, rest)
            | '\x7d' :: rest => some ([member], rest)
            | _ => none
        | _ => none
    | _ => none

end

/-- The document that a text spells, with nothing but blanks around it. A step is taken for each
character at most, and one more for each item. -/
def parse? (text : String) : Option Json :=
  match value? (2 * text.length + 2) text.toList with
  | some (doc, rest) => if (skipBlanks rest).isEmpty then some doc else none
  | none => none

end AssetQuery.Json
