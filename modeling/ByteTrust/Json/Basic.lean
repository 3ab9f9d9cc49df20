/-!
# JSON values

A `Json` value is kept as it is written: fields in their order, repeated keys included, and
numbers, strings and keys in the spelling of the text. What a spelling means is decided by the
reader that wants a number or a text (`ByteTrust.Json.Decode`), so a part that nobody reads is
never judged.

Numerals are plain decimal text: digits only, no leading zero, and for negative numbers one minus
sign before a number other than zero.
-/

namespace ByteTrust

namespace Decimal

/-- The value of a run of digits, read from the left onto `n`. -/
def accumulate (n : Nat) : List Char → Option Nat
  | [] => some n
  | c :: cs => if c.isDigit then accumulate (10 * n + (c.toNat - '0'.toNat)) cs else none

/-- Read a natural number. -/
def nat? : List Char → Option Nat
  | [] => none
  | ['0'] => some 0
  | '0' :: _ => none
  | cs => accumulate 0 cs

/-- Read an integer. Minus zero is refused. -/
def int? : List Char → Option Int
  | '-' :: cs =>
    match nat? cs with
    | some 0 => none
    | some n => some (-(n : Int))
    | none => none
  | cs => (nat? cs).map Int.ofNat

/-- Write an integer. -/
def ofInt : Int → String
  | .ofNat n => Nat.repr n
  | .negSucc n => "-" ++ Nat.repr (n + 1)

end Decimal

/-- A JSON value. Numbers are spelled out; strings and keys hold the characters between the
quotes, with escapes unresolved. -/
inductive Json
  | null
  | bool (b : Bool)
  | num (spelling : String)
  | str (spelling : String)
  | arr (items : List Json)
  | obj (fields : List (String × Json))
deriving Inhabited

namespace Json

/-- A natural number. -/
def ofNat (n : Nat) : Json := .num (Nat.repr n)

/-- An integer. -/
def ofInt (i : Int) : Json := .num (Decimal.ofInt i)

/-- `null` for nothing. -/
def ofOption {α : Type} (f : α → Json) : Option α → Json
  | none => .null
  | some a => f a

/-- An array of encoded entries. -/
def ofList {α : Type} (f : α → Json) (as : List α) : Json := .arr (as.map f)

/-- The value of the last field with the key spelled `key`. -/
def field? (key : String) : Json → Option Json
  | .obj fields => (fields.reverse.find? fun f => f.1 == key).map Prod.snd
  | _ => none

end Json

end ByteTrust
