import ByteTrust.Json.Basic

/-!
# The tokens of JSON text

`tokens?` splits a text into tokens, one character at a time. It accepts exactly the lexical
grammar of JSON: blanks are space, tab, line feed and carriage return; strings hold no raw control
character and only the known escapes; numbers have no leading zero.
-/

namespace ByteTrust.Json

/-- A token. Numbers and strings keep their spelling. -/
inductive Token
  | openObject
  | closeObject
  | openArray
  | closeArray
  | colon
  | comma
  | null
  | bool (b : Bool)
  | num (spelling : String)
  | str (spelling : String)
deriving DecidableEq, Inhabited

/-! ## Numbers and words -/

/-- Digits to the end. -/
def isFractionTail (cs : List Char) : Bool := !cs.isEmpty && cs.all Char.isDigit

/-- An exponent's digits, after an optional sign. -/
def isExponent : List Char → Bool
  | '+' :: cs => isFractionTail cs
  | '-' :: cs => isFractionTail cs
  | cs => isFractionTail cs

/-- An optional exponent. -/
def isExponentPart : List Char → Bool
  | [] => true
  | c :: cs => (c == 'e' || c == 'E') && isExponent cs

/-- An optional fraction, then an optional exponent. -/
def isFractionPart : List Char → Bool
  | '.' :: cs => !(cs.takeWhile Char.isDigit).isEmpty && isExponentPart (cs.dropWhile Char.isDigit)
  | cs => isExponentPart cs

/-- A number without its sign. -/
def isUnsigned : List Char → Bool
  | '0' :: cs => isFractionPart cs
  | cs => !(cs.takeWhile Char.isDigit).isEmpty && isFractionPart (cs.dropWhile Char.isDigit)

/-- The grammar of numbers. -/
def isNumber : List Char → Bool
  | '-' :: cs => isUnsigned cs
  | cs => isUnsigned cs

/-- The token of a number, given its characters in reverse. -/
def numberToken? (reversed : List Char) : Option Token :=
  if isNumber reversed.reverse then some (.num (String.ofList reversed.reverse)) else none

/-- The token of a word, given its characters in reverse. -/
def wordToken? (reversed : List Char) : Option Token :=
  match reversed.reverse with
  | ['n', 'u', 'l', 'l'] => some .null
  | ['t', 'r', 'u', 'e'] => some (.bool true)
  | ['f', 'a', 'l', 's', 'e'] => some (.bool false)
  | _ => none

/-! ## Scanning -/

/-- Where the scan stands: between tokens, or inside one whose characters so far are kept in
reverse. Inside a string, an escape may be open and may want more hexadecimal digits. -/
inductive Scan
  | between
  | string (reversed : List Char)
  | escape (reversed : List Char)
  | hex (reversed : List Char) (missing : Nat)
  | number (reversed : List Char)
  | word (reversed : List Char)

/-- Blanks between tokens. -/
def isBlank (c : Char) : Bool := c == ' ' || c == '\t' || c == '\n' || c == '\r'

/-- Characters that continue a number. -/
def isNumberChar (c : Char) : Bool :=
  c.isDigit || c == '-' || c == '+' || c == '.' || c == 'e' || c == 'E'

/-- Hexadecimal digits. -/
def isHexDigit (c : Char) : Bool :=
  c.isDigit || ('a' ≤ c && c ≤ 'f') || ('A' ≤ c && c ≤ 'F')

/-- Letters that may follow a backslash, `u` apart. -/
def isShortEscape (c : Char) : Bool :=
  ['"', '\\', '/', 'b', 'f', 'n', 'r', 't'].contains c

/-- A character between tokens: the tokens so far, in reverse, and where the scan goes on. -/
def startToken (c : Char) (acc : List Token) : Option (List Token × Scan) :=
  if isBlank c then some (acc, .between)
  else if c == '\x7b' then some (.openObject :: acc, .between)
  else if c == '\x7d' then some (.closeObject :: acc, .between)
  else if c == '[' then some (.openArray :: acc, .between)
  else if c == ']' then some (.closeArray :: acc, .between)
  else if c == ':' then some (.colon :: acc, .between)
  else if c == ',' then some (.comma :: acc, .between)
  else if c == '"' then some (acc, .string [])
  else if c == '-' || c.isDigit then some (acc, .number [c])
  else if c.isLower then some (acc, .word [c])
  else none

/-- One step of the scan. -/
def scan : Scan → Char → List Token → Option (List Token × Scan)
  | .between, c, acc => startToken c acc
  | .string cs, c, acc =>
    if c == '"' then some (.str (String.ofList cs.reverse) :: acc, .between)
    else if c == '\\' then some (acc, .escape (c :: cs))
    else if c.toNat < 0x20 then none
    else some (acc, .string (c :: cs))
  | .escape cs, c, acc =>
    if c == 'u' then some (acc, .hex (c :: cs) 3)
    else if isShortEscape c then some (acc, .string (c :: cs))
    else none
  | .hex cs missing, c, acc =>
    if isHexDigit c then
      match missing with
      | 0 => some (acc, .string (c :: cs))
      | n + 1 => some (acc, .hex (c :: cs) n)
    else none
  | .number cs, c, acc =>
    if isNumberChar c then some (acc, .number (c :: cs))
    else do startToken c ((← numberToken? cs) :: acc)
  | .word cs, c, acc =>
    if c.isLower then some (acc, .word (c :: cs))
    else do startToken c ((← wordToken? cs) :: acc)

/-- The end of the text: a number or a word may end here, a string may not. -/
def finish : Scan → List Token → Option (List Token)
  | .between, acc => some acc.reverse
  | .number cs, acc => (numberToken? cs).map fun t => (t :: acc).reverse
  | .word cs, acc => (wordToken? cs).map fun t => (t :: acc).reverse
  | _, _ => none

/-- Scan a text from a state, with the tokens so far in reverse. -/
def scanAll (s : Scan) (acc : List Token) : List Char → Option (List Token)
  | [] => finish s acc
  | c :: cs =>
    match scan s c acc with
    | none => none
    | some (acc, s) => scanAll s acc cs

/-- The tokens of a text. -/
def tokens? (text : String) : Option (List Token) := scanAll .between [] text.toList

/-- The characters of a token. -/
def Token.spell : Token → String
  | .openObject => "\x7b"
  | .closeObject => "\x7d"
  | .openArray => "["
  | .closeArray => "]"
  | .colon => ":"
  | .comma => ","
  | .null => "null"
  | .bool true => "true"
  | .bool false => "false"
  | .num s => s
  | .str s => "\"" ++ s ++ "\""

end ByteTrust.Json
