import ByteTrust.Json.Token

/-!
# Writing JSON text

`compact` writes a value without blanks. `pretty` puts each entry on a line of its own, indented
by two spaces for each level; empty arrays and objects stay on one line.
-/

namespace ByteTrust.Json

/-! ## Without blanks -/

mutual

/-- The tokens of a value, followed by `rest`. -/
def tokensOnto : Json → List Token → List Token
  | .null, rest => .null :: rest
  | .bool b, rest => .bool b :: rest
  | .num s, rest => .num s :: rest
  | .str s, rest => .str s :: rest
  | .arr [], rest => .openArray :: .closeArray :: rest
  | .arr (v :: vs), rest => .openArray :: tokensOnto v (itemTokensOnto vs (.closeArray :: rest))
  | .obj [], rest => .openObject :: .closeObject :: rest
  | .obj ((k, v) :: fs), rest =>
    .openObject :: .str k :: .colon :: tokensOnto v (fieldTokensOnto fs (.closeObject :: rest))

/-- The tokens of further items, each after a comma. -/
def itemTokensOnto : List Json → List Token → List Token
  | [], rest => rest
  | v :: vs, rest => .comma :: tokensOnto v (itemTokensOnto vs rest)

/-- The tokens of further fields, each after a comma. -/
def fieldTokensOnto : List (String × Json) → List Token → List Token
  | [], rest => rest
  | (k, v) :: fs, rest => .comma :: .str k :: .colon :: tokensOnto v (fieldTokensOnto fs rest)

end

/-- The tokens of a value. -/
def tokens (v : Json) : List Token := tokensOnto v []

/-- The text of a value, without blanks. -/
def compact (v : Json) : String := String.join (v.tokens.map Token.spell)

/-! ## On several lines -/

/-- A line break and `level` steps of indentation. -/
def lineBreak (level : Nat) : String := "\n" ++ String.join (List.replicate level "  ")

mutual

/-- The pieces of an indented value at a level, followed by `rest`. -/
def prettyOnto (level : Nat) : Json → List String → List String
  | .null, rest => "null" :: rest
  | .bool b, rest => Token.spell (.bool b) :: rest
  | .num s, rest => s :: rest
  | .str s, rest => Token.spell (.str s) :: rest
  | .arr [], rest => "[]" :: rest
  | .arr (v :: vs), rest =>
    "[" :: lineBreak (level + 1) ::
      prettyOnto (level + 1) v (prettyItemsOnto (level + 1) vs (lineBreak level :: "]" :: rest))
  | .obj [], rest => "\x7b\x7d" :: rest
  | .obj ((k, v) :: fs), rest =>
    "\x7b" :: lineBreak (level + 1) :: Token.spell (.str k) :: ": " ::
      prettyOnto (level + 1) v
        (prettyFieldsOnto (level + 1) fs (lineBreak level :: "\x7d" :: rest))

/-- The pieces of further items. -/
def prettyItemsOnto (level : Nat) : List Json → List String → List String
  | [], rest => rest
  | v :: vs, rest =>
    "," :: lineBreak level :: prettyOnto level v (prettyItemsOnto level vs rest)

/-- The pieces of further fields. -/
def prettyFieldsOnto (level : Nat) : List (String × Json) → List String → List String
  | [], rest => rest
  | (k, v) :: fs, rest =>
    "," :: lineBreak level :: Token.spell (.str k) :: ": " ::
      prettyOnto level v (prettyFieldsOnto level fs rest)

end

/-- The text of a value on several lines, without a final line break. -/
def pretty (v : Json) : String := String.join (prettyOnto 0 v [])

end ByteTrust.Json
