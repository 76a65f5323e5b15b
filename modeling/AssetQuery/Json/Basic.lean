/-!
# JSON documents

A JSON document as it is spelled: numbers and strings keep the text they are written with, objects
the order of their members and members of the same name. Here are the spelling of texts and the two
layouts of documents: everything on one line, and one item or member a line, indented by two blanks.
-/

namespace AssetQuery

/-- A JSON document. A string, like the name of a member, is spelled by what stands between its
quotation marks. -/
inductive Json where
  | null
  | bool (b : Bool)
  | number (spelling : String)
  | string (spelling : String)
  | array (items : List Json)
  | object (members : List (String × Json))
  deriving Inhabited, Repr, BEq

namespace Json

/-- How a character is spelled. -/
def spellChar (c : Char) : List Char :=
  if c = '"' then ['\\', '"']
  else if c = '\\' then ['\\', '\\']
  else if c.val = 0x08 then ['\\', 'b']
  else if c.val = 0x0c then ['\\', 'f']
  else if c = '\n' then ['\\', 'n']
  else if c = '\r' then ['\\', 'r']
  else if c = '\t' then ['\\', 't']
  else if c.val < 0x20 then
    ['\\', 'u', '0', '0', Nat.digitChar (c.toNat / 16), Nat.digitChar (c.toNat % 16)]
  else [c]

def spell (text : String) : String := String.ofList (text.toList.flatMap spellChar)

/-- The value of a hexadecimal digit. -/
def hexValue? (c : Char) : Option Nat :=
  if '0' ≤ c && c ≤ '9' then some (c.toNat - '0'.toNat)
  else if 'a' ≤ c && c ≤ 'f' then some (c.toNat - 'a'.toNat + 10)
  else if 'A' ≤ c && c ≤ 'F' then some (c.toNat - 'A'.toNat + 10)
  else none

def hexValue4? (a b c d : Char) : Option Nat := do
  return (((← hexValue? a) * 16 + (← hexValue? b)) * 16 + (← hexValue? c)) * 16 + (← hexValue? d)

/-- The character that a backslash and a letter stand for. -/
def escaped? : Char → Option Char
  | '"' => some '"'
  | '\\' => some '\\'
  | '/' => some '/'
  | 'b' => some '\x08'
  | 'f' => some '\x0c'
  | 'n' => some '\n'
  | 'r' => some '\r'
  | 't' => some '\t'
  | _ => none

/-- The text that is spelled. Half a surrogate pair by itself spells nothing. -/
def unspellChars : List Char → Option (List Char)
  | [] => some []
  | '\\' :: 'u' :: a :: b :: c :: d :: rest =>
    match hexValue4? a b c d with
    | none => none
    | some unit =>
      if 0xdc00 ≤ unit && unit ≤ 0xdfff then none
      else if 0xd800 ≤ unit && unit ≤ 0xdbff then
        match rest with
        | '\\' :: 'u' :: a :: b :: c :: d :: rest =>
          match hexValue4? a b c d with
          | none => none
          | some low =>
            if 0xdc00 ≤ low && low ≤ 0xdfff then
              (unspellChars rest).map
                (Char.ofNat (0x10000 + (unit - 0xd800) * 0x400 + (low - 0xdc00)) :: ·)
            else none
        | _ => none
      else (unspellChars rest).map (Char.ofNat unit :: ·)
  | '\\' :: c :: rest =>
    match escaped? c with
    | some e => (unspellChars rest).map (e :: ·)
    | none => none
  | c :: rest => if c = '\\' then none else (unspellChars rest).map (c :: ·)

def unspell? (spelling : String) : Option String :=
  (unspellChars spelling.toList).map String.ofList

/-- A JSON string. -/
def ofText (text : String) : Json := .string (spell text)

def ofNat (n : Nat) : Json := .number (toString n)

def ofInt (n : Int) : Json := .number (toString n)

/-- An object whose members are named by texts. -/
def ofMembers (members : List (String × Json)) : Json :=
  .object (members.map fun m => (spell m.1, m.2))

def quote (spelling : String) : List Char := '"' :: (spelling.toList ++ ['"'])

mutual

/-- The text on one line, without blanks. -/
def compactChars : Json → List Char
  | null => "null".toList
  | bool true => "true".toList
  | bool false => "false".toList
  | number spelling => spelling.toList
  | string spelling => quote spelling
  | array items => '[' :: (compactItems items ++ [']'])
  | object members => '\x7b' :: (compactMembers members ++ ['\x7d'])

def compactItems : List Json → List Char
  | [] => []
  | [item] => item.compactChars
  | item :: rest => item.compactChars ++ ',' :: compactItems rest

def compactMembers : List (String × Json) → List Char
  | [] => []
  | [(name, value)] => quote name ++ ':' :: value.compactChars
  | (name, value) :: rest => quote name ++ ':' :: (value.compactChars ++ ',' :: compactMembers rest)

end

def compact (doc : Json) : String := String.ofList doc.compactChars

/-- A new line at some level of nesting. -/
def newLine (level : Nat) : List Char := '\n' :: List.replicate (2 * level) ' '

mutual

/-- The text with a line for each item and member, at some level of nesting. -/
def prettyChars (level : Nat) : Json → List Char
  | null => "null".toList
  | bool true => "true".toList
  | bool false => "false".toList
  | number spelling => spelling.toList
  | string spelling => quote spelling
  | array [] => "[]".toList
  | array (item :: items) =>
    '[' :: (newLine (level + 1) ++ item.prettyChars (level + 1) ++
      prettyItems (level + 1) items ++ newLine level ++ [']'])
  | object [] => "\x7b\x7d".toList
  | object ((name, value) :: members) =>
    '\x7b' :: (newLine (level + 1) ++ quote name ++ ':' :: ' ' :: value.prettyChars (level + 1) ++
      prettyMembers (level + 1) members ++ newLine level ++ ['\x7d'])

/-- The items after the first. -/
def prettyItems (level : Nat) : List Json → List Char
  | [] => []
  | item :: rest => ',' :: (newLine level ++ item.prettyChars level ++ prettyItems level rest)

/-- The members after the first. -/
def prettyMembers (level : Nat) : List (String × Json) → List Char
  | [] => []
  | (name, value) :: rest =>
    ',' :: (newLine level ++ quote name ++ ':' :: ' ' :: value.prettyChars level ++
      prettyMembers level rest)

end

def pretty (doc : Json) : String := String.ofList (doc.prettyChars 0)

end Json

end AssetQuery
