import ByteTrust.Toml.Node

/-!
# Strings, numbers and dates in TOML

Readers for values without parts. Each reader of characters gives back what it read and the rest
of the text.
-/

namespace ByteTrust.Toml

/-! ## Characters -/

/-- Blanks within a line. -/
def isBlank (c : Char) : Bool := c == ' ' || c == '\t'

/-- Characters of comments and literal strings: no control characters but the tab. -/
def isPlain (c : Char) : Bool := c == '\t' || (0x20 ≤ c.toNat && c.toNat ≠ 0x7F)

/-- Characters of bare keys. -/
def isBare (c : Char) : Bool := c.isAlphanum || c == '_' || c == '-'

/-- The value of a digit in bases up to sixteen. -/
def digit? (c : Char) : Option Nat :=
  if '0' ≤ c ∧ c ≤ '9' then some (c.toNat - '0'.toNat)
  else if 'a' ≤ c ∧ c ≤ 'f' then some (c.toNat - 'a'.toNat + 10)
  else if 'A' ≤ c ∧ c ≤ 'F' then some (c.toNat - 'A'.toNat + 10)
  else none

/-- The value of hexadecimal digits. -/
def hex? (cs : List Char) : Option Nat :=
  cs.foldlM (fun n c => (digit? c).map fun d => 16 * n + d) 0

/-- The character with a code, unless it is half of a surrogate pair or too great. -/
def character? (code : Nat) : Option Char :=
  if code.isValidChar then some (Char.ofNat code) else none

/-! ## Strings -/

/-- The character that a one-letter escape stands for. -/
def shortEscape? : Char → Option Char
  | 'b' => some (Char.ofNat 8)
  | 't' => some '\t'
  | 'n' => some '\n'
  | 'f' => some (Char.ofNat 12)
  | 'r' => some '\r'
  | '"' => some '"'
  | '\\' => some '\\'
  | _ => none

/-- Drop blanks and line breaks. A carriage return must stand before a line feed. -/
def dropLayout : List Char → Option (List Char)
  | '\r' :: '\n' :: cs => dropLayout cs
  | c :: cs => if isBlank c || c == '\n' then dropLayout cs else some (c :: cs)
  | [] => some []

/-- After a backslash at the end of a line, blanks and line breaks are dropped. -/
def dropLineEnd (cs : List Char) : Option (List Char) :=
  match cs.dropWhile isBlank with
  | '\n' :: _ => dropLayout cs
  | '\r' :: '\n' :: _ => dropLayout cs
  | _ => none

/-- The inside of a string in double quotes, on one line or on several. `fuel` bounds the number
of characters and escapes. -/
def quoted (multiline : Bool) : Nat → List Char → List Char → Option (String × List Char)
  | 0, _, _ => none
  | fuel + 1, acc, cs =>
    match cs with
    | '\\' :: 'u' :: a :: b :: c :: d :: rest => do
      quoted multiline fuel ((← character? (← hex? [a, b, c, d])) :: acc) rest
    | '\\' :: 'U' :: a :: b :: c :: d :: e :: f :: g :: h :: rest => do
      quoted multiline fuel ((← character? (← hex? [a, b, c, d, e, f, g, h])) :: acc) rest
    | '\\' :: c :: rest =>
      match shortEscape? c with
      | some c => quoted multiline fuel (c :: acc) rest
      | none => do
        if multiline then quoted multiline fuel acc (← dropLineEnd (c :: rest)) else none
    | '"' :: rest =>
      if multiline then
        -- Up to two quotes may stand before the three that end the string.
        match rest with
        | '"' :: '"' :: '"' :: '"' :: rest => some (String.ofList ('"' :: '"' :: acc).reverse, rest)
        | '"' :: '"' :: '"' :: rest => some (String.ofList ('"' :: acc).reverse, rest)
        | '"' :: '"' :: rest => some (String.ofList acc.reverse, rest)
        | _ => quoted multiline fuel ('"' :: acc) rest
      else some (String.ofList acc.reverse, rest)
    | '\r' :: '\n' :: rest => if multiline then quoted multiline fuel ('\n' :: acc) rest else none
    | c :: rest =>
      if isPlain c && c ≠ '\\' || multiline && c == '\n' then
        quoted multiline fuel (c :: acc) rest
      else none
    | [] => none

/-- The inside of a string in single quotes, on one line or on several. -/
def literal (multiline : Bool) : Nat → List Char → List Char → Option (String × List Char)
  | 0, _, _ => none
  | fuel + 1, acc, cs =>
    match cs with
    | '\'' :: rest =>
      if multiline then
        match rest with
        | '\'' :: '\'' :: '\'' :: '\'' :: rest =>
          some (String.ofList ('\'' :: '\'' :: acc).reverse, rest)
        | '\'' :: '\'' :: '\'' :: rest => some (String.ofList ('\'' :: acc).reverse, rest)
        | '\'' :: '\'' :: rest => some (String.ofList acc.reverse, rest)
        | _ => literal multiline fuel ('\'' :: acc) rest
      else some (String.ofList acc.reverse, rest)
    | '\r' :: '\n' :: rest => if multiline then literal multiline fuel ('\n' :: acc) rest else none
    | c :: rest =>
      if isPlain c || multiline && c == '\n' then literal multiline fuel (c :: acc) rest else none
    | [] => none

/-- Drop the line break right after the quotes that open a string on several lines. -/
def dropFirstBreak : List Char → List Char
  | '\n' :: cs => cs
  | '\r' :: '\n' :: cs => cs
  | cs => cs

/-- A string on one line. -/
def lineString? : List Char → Option (String × List Char)
  | '"' :: cs => quoted false (cs.length + 1) [] cs
  | '\'' :: cs => literal false (cs.length + 1) [] cs
  | _ => none

/-- A string. -/
def string? : List Char → Option (String × List Char)
  | '"' :: '"' :: '"' :: cs => quoted true (cs.length + 1) [] (dropFirstBreak cs)
  | '\'' :: '\'' :: '\'' :: cs => literal true (cs.length + 1) [] (dropFirstBreak cs)
  | cs => lineString? cs

/-! ## Numbers -/

/-- Digits below `base`, in which single underscores may stand between two digits: the digits
without the underscores. -/
def digits? (base : Nat) : List Char → Option (List Nat)
  | [] => none
  | [c] => ((digit? c).filter (· < base)).map fun d => [d]
  | c :: '_' :: cs => do
    let d ← (digit? c).filter (· < base)
    return d :: (← digits? base cs)
  | c :: cs => do
    let d ← (digit? c).filter (· < base)
    return d :: (← digits? base cs)

/-- The value of digits in a base. -/
def value (base : Nat) (ds : List Nat) : Nat := ds.foldl (fun n d => base * n + d) 0

/-- Decimal digits without a leading zero. -/
def decimal? (cs : List Char) : Option (List Nat) :=
  match cs with
  | '0' :: _ :: _ => none
  | _ => digits? 10 cs

/-- Split off a sign. -/
def sign : List Char → Bool × List Char
  | '-' :: cs => (true, cs)
  | '+' :: cs => (false, cs)
  | cs => (false, cs)

/-- An integer of 64 bits; with a base mark it has no sign. -/
def integer? (cs : List Char) : Option Int := do
  let i ←
    match cs with
    | '0' :: 'x' :: ds => (digits? 16 ds).map fun ds => (value 16 ds : Int)
    | '0' :: 'o' :: ds => (digits? 8 ds).map fun ds => (value 8 ds : Int)
    | '0' :: 'b' :: ds => (digits? 2 ds).map fun ds => (value 2 ds : Int)
    | cs =>
      let (negative, ds) := sign cs
      (decimal? ds).map fun ds => if negative then -(value 10 ds : Int) else (value 10 ds : Int)
  if -0x8000000000000000 ≤ i ∧ i ≤ 0x7fffffffffffffff then return i else none

/-- Whether `m * 10 ^ e` is too great for a number of double precision: not below the greatest one
by half of its last place. -/
def isTooGreat (m : Nat) (e : Int) : Bool :=
  let limit := Nat.pow 2 1024 - Nat.pow 2 970
  if m = 0 then false
  else if 0 ≤ e then e > 400 || limit ≤ m * Nat.pow 10 e.toNat
  else
    let places := (-e).toNat
    if (Nat.repr m).length ≤ places then false else limit * Nat.pow 10 places ≤ m

/-- A number with a fraction or an exponent. Positive numbers must not be too great. -/
def isReal (cs : List Char) : Bool :=
  let (negative, cs) := sign cs
  let isE (c : Char) : Bool := c == 'e' || c == 'E'
  let mantissa := cs.takeWhile fun c => !isE c
  let whole := mantissa.takeWhile (· ≠ '.')
  let exponent? : Option (Option Int) :=
    match cs.dropWhile fun c => !isE c with
    | [] => some none
    | _ :: ds =>
      let (negative, ds) := sign ds
      (digits? 10 ds).map fun ds =>
        some (if negative then -(value 10 ds : Int) else (value 10 ds : Int))
  let fraction? : Option (Option (List Nat)) :=
    match mantissa.dropWhile (· ≠ '.') with
    | [] => some none
    | _ :: ds => (digits? 10 ds).map some
  match decimal? whole, fraction?, exponent? with
  | some _, some none, some none => false
  | some w, some f, some e =>
    let f := f.getD []
    negative || !isTooGreat (value 10 (w ++ f)) (e.getD 0 - f.length)
  | _, _, _ => false

/-! ## Dates and times -/

/-- A number of two digits, from `lo` to `hi`. -/
def twoDigits? (lo hi : Nat) (a b : Char) : Option Nat := do
  let a ← (digit? a).filter (· < 10)
  let b ← (digit? b).filter (· < 10)
  if lo ≤ 10 * a + b ∧ 10 * a + b ≤ hi then return 10 * a + b else none

/-- The number of days of a month. -/
def daysIn (year month : Nat) : Nat :=
  let leap := year % 4 = 0 ∧ (year % 100 ≠ 0 ∨ year % 400 = 0)
  if month = 2 then (if leap then 29 else 28)
  else if month = 4 ∨ month = 6 ∨ month = 9 ∨ month = 11 then 30
  else 31

/-- A date at the front of a text: whether it is one, and the rest. -/
def date? : List Char → Option (List Char)
  | a :: b :: c :: d :: '-' :: e :: f :: '-' :: g :: h :: rest => do
    let year ← [a, b, c, d].mapM fun c => (digit? c).filter (· < 10)
    let month ← twoDigits? 1 12 e f
    let day ← twoDigits? 1 31 g h
    if day ≤ daysIn (value 10 year) month then return rest else none
  | _ => none

/-- An optional fraction of a second: the rest after it. -/
def secondFraction? : List Char → Option (List Char)
  | '.' :: cs => if (cs.takeWhile Char.isDigit).isEmpty then none else some (cs.dropWhile Char.isDigit)
  | cs => some cs

/-- A time at the front of a text: the rest after it. -/
def time? : List Char → Option (List Char)
  | a :: b :: ':' :: c :: d :: ':' :: e :: f :: rest => do
    discard (twoDigits? 0 23 a b)
    discard (twoDigits? 0 59 c d)
    discard (twoDigits? 0 60 e f)
    secondFraction? rest
  | _ => none

/-- The text is an offset from universal time, or empty. -/
def isZone : List Char → Bool
  | [] => true
  | ['Z'] => true
  | ['z'] => true
  | [s, a, b, ':', c, d] =>
    (s == '+' || s == '-') && (twoDigits? 0 23 a b).isSome && (twoDigits? 0 59 c d).isSome
  | _ => false

/-- The text starts like a time. -/
def startsTime : List Char → Bool
  | a :: b :: ':' :: _ => (twoDigits? 0 23 a b).isSome
  | _ => false

/-- A time with an optional offset. -/
def isZonedTime (cs : List Char) : Bool := (time? cs).any isZone

/-- A date with an optional time, or a time. -/
def isMoment (cs : List Char) : Bool :=
  match date? cs with
  | some [] => true
  | some (t :: rest) => (t == 'T' || t == 't') && isZonedTime rest
  | none => (time? cs).any List.isEmpty

/-! ## Words -/

/-- Characters of numbers, dates and words. -/
def isWordChar (c : Char) : Bool :=
  c.isAlphanum || c == '+' || c == '-' || c == '_' || c == '.' || c == ':'

/-- The value of a word. -/
def word? (cs : List Char) : Option Node :=
  match cs with
  | ['t', 'r', 'u', 'e'] => some (.bool true)
  | ['f', 'a', 'l', 's', 'e'] => some (.bool false)
  | _ =>
    if isMoment cs then some (.moment (String.ofList cs))
    else if isReal cs || [['i', 'n', 'f'], ['n', 'a', 'n']].contains (sign cs).2 then
      some (.real (String.ofList cs))
    else (integer? cs).map .integer

/-- A value that is one word, or a date and a time with a space between them. -/
def scalar? (cs : List Char) : Option (Node × List Char) := do
  let word := cs.takeWhile isWordChar
  let rest := cs.dropWhile isWordChar
  match date? word, rest with
  | some [], ' ' :: after =>
    let time := after.takeWhile isWordChar
    if startsTime time then
      if isZonedTime time then
        return (.moment (String.ofList (word ++ ' ' :: time)), after.dropWhile isWordChar)
      else none
    else return (.moment (String.ofList word), rest)
  | _, _ => return (← word? word, rest)

end ByteTrust.Toml
