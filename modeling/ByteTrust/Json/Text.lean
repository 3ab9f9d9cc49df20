import ByteTrust.Json.Basic

/-!
# Texts in JSON strings

`escape` spells a text as the inside of a JSON string and `unescape?` reads such a spelling back.
A spelling that names half of a surrogate pair stands for no text.
-/

namespace ByteTrust.Json

/-- The value of a hexadecimal digit. -/
def hexDigit? (c : Char) : Option Nat :=
  if '0' ≤ c ∧ c ≤ '9' then some (c.toNat - '0'.toNat)
  else if 'a' ≤ c ∧ c ≤ 'f' then some (c.toNat - 'a'.toNat + 10)
  else if 'A' ≤ c ∧ c ≤ 'F' then some (c.toNat - 'A'.toNat + 10)
  else none

/-- The value of four hexadecimal digits. -/
def hexCode? (a b c d : Char) : Option Nat := do
  let a ← hexDigit? a
  let b ← hexDigit? b
  let c ← hexDigit? c
  let d ← hexDigit? d
  return ((a * 16 + b) * 16 + c) * 16 + d

/-- The character that a one-letter escape stands for. -/
def shortEscape? : Char → Option Char
  | '"' => some '"'
  | '\\' => some '\\'
  | '/' => some '/'
  | 'b' => some (Char.ofNat 8)
  | 'f' => some (Char.ofNat 12)
  | 'n' => some '\n'
  | 'r' => some '\r'
  | 't' => some '\t'
  | _ => none

/-- Resolve the escapes of a spelling, adding the characters in reverse to `acc`. Two escapes
that form a surrogate pair give one character. -/
def unescapeOnto (acc : List Char) : List Char → Option (List Char)
  | [] => some acc
  | '\\' :: 'u' :: a :: b :: c :: d :: rest =>
    match hexCode? a b c d with
    | none => none
    | some high =>
      if 0xDC00 ≤ high ∧ high < 0xE000 then none
      else if 0xD800 ≤ high ∧ high < 0xDC00 then
        match rest with
        | '\\' :: 'u' :: e :: f :: g :: h :: rest =>
          match hexCode? e f g h with
          | none => none
          | some low =>
            if 0xDC00 ≤ low ∧ low < 0xE000 then
              unescapeOnto
                (Char.ofNat (0x10000 + (high - 0xD800) * 0x400 + (low - 0xDC00)) :: acc) rest
            else none
        | _ => none
      else unescapeOnto (Char.ofNat high :: acc) rest
  | '\\' :: c :: rest =>
    match shortEscape? c with
    | none => none
    | some c => unescapeOnto (c :: acc) rest
  | c :: rest => if c = '\\' then none else unescapeOnto (c :: acc) rest

/-- The text that a spelling stands for. -/
def unescape? (spelling : String) : Option String :=
  (unescapeOnto [] spelling.toList).map fun cs => String.ofList cs.reverse

/-- A hexadecimal digit, in lower case. -/
def hexChar (n : Nat) : Char :=
  Char.ofNat (if n < 10 then '0'.toNat + n else 'a'.toNat + (n - 10))

/-- Spell one character: quotes, backslashes and control characters are escaped. -/
def escapeChar (c : Char) : List Char :=
  if c = '"' then ['\\', '"']
  else if c = '\\' then ['\\', '\\']
  else if c.toNat = 8 then ['\\', 'b']
  else if c.toNat = 12 then ['\\', 'f']
  else if c = '\n' then ['\\', 'n']
  else if c = '\r' then ['\\', 'r']
  else if c = '\t' then ['\\', 't']
  else if c.toNat < 0x20 then
    ['\\', 'u', '0', '0', hexChar (c.toNat / 16), hexChar (c.toNat % 16)]
  else [c]

/-- Spell a text as the inside of a JSON string. -/
def escape (text : String) : String := String.ofList (text.toList.flatMap escapeChar)

/-- A text as a JSON string. -/
def ofString (text : String) : Json := .str (escape text)

end ByteTrust.Json
