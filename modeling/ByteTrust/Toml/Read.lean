import ByteTrust.Toml.Scalar

/-!
# Reading TOML text

`Toml.parse?` reads a document of TOML 1.0. Arrays and inline tables may be nested up to a limit,
and a dotted key has a limited number of parts. The functions on nested values are bounded by a
number `fuel` of steps; the length of the text is enough.
-/

namespace ByteTrust.Toml

/-- Nesting, and the parts of a key, stay below this number. -/
def nestingLimit : Nat := 80

/-! ## Layout and keys -/

/-- Drop blanks within a line. -/
def dropBlanks (cs : List Char) : List Char := cs.dropWhile isBlank

/-- The end of a line, or of the text: the rest after it. -/
def lineBreak? : List Char → Option (List Char)
  | [] => some []
  | '\n' :: cs => some cs
  | '\r' :: '\n' :: cs => some cs
  | _ => none

/-- Blanks, an optional comment, and the end of the line: the rest after it. -/
def lineEnd? (cs : List Char) : Option (List Char) :=
  match dropBlanks cs with
  | '#' :: cs => lineBreak? (cs.dropWhile isPlain)
  | cs => lineBreak? cs

/-- Drop blanks, line breaks and comments. `inComment` says whether the text starts in a
comment. -/
def dropComments (inComment : Bool) : List Char → Option (List Char)
  | [] => some []
  | '\r' :: '\n' :: cs => dropComments false cs
  | c :: cs =>
    if c == '\n' then dropComments false cs
    else if inComment then (if isPlain c then dropComments true cs else none)
    else if isBlank c then dropComments false cs
    else if c == '#' then dropComments true cs
    else some (c :: cs)

/-- One part of a key. -/
def keyPart? (cs : List Char) : Option (String × List Char) :=
  match cs with
  | '"' :: _ => lineString? cs
  | '\'' :: _ => lineString? cs
  | _ =>
    if (cs.takeWhile isBare).isEmpty then none
    else some (String.ofList (cs.takeWhile isBare), cs.dropWhile isBare)

/-- A key with its dots, and the blanks around it. -/
def keyParts? : Nat → List Char → Option (List String × List Char)
  | 0, _ => none
  | fuel + 1, cs => do
    let (part, cs) ← keyPart? (dropBlanks cs)
    match dropBlanks cs with
    | '.' :: cs =>
      let (parts, cs) ← keyParts? fuel cs
      return (part :: parts, cs)
    | cs => return ([part], cs)

/-- A key: the parts before its last one, the last one, and the rest of the text. -/
def key? (cs : List Char) : Option (List String × String × List Char) := do
  let (parts, cs) ← keyParts? (nestingLimit - 1) cs
  return (parts.dropLast, ← parts.getLast?, cs)

/-! ## Values -/

mutual

/-- A value inside `depth` arrays and inline tables. -/
def value? (depth : Nat) : Nat → List Char → Option (Node × List Char)
  | 0, _ => none
  | fuel + 1, cs =>
    match cs with
    | '"' :: _ => (string? cs).map fun r => (.text r.1, r.2)
    | '\'' :: _ => (string? cs).map fun r => (.text r.1, r.2)
    | '[' :: rest =>
      if depth + 1 < nestingLimit then
        (items? (depth + 1) fuel rest).map fun r => (.array r.1, r.2)
      else none
    | '\x7b' :: rest =>
      if depth + 1 < nestingLimit then
        match dropBlanks rest with
        | '\x7d' :: rest => some (.table .inline [], rest)
        | rest => (pairs? (depth + 1) fuel [] rest).map fun r => (.table .inline r.1, r.2)
      else none
    | _ => scalar? cs

/-- The items of an array, up to its end. A comma may stand after the last one. -/
def items? (depth : Nat) : Nat → List Char → Option (List Node × List Char)
  | 0, _ => none
  | fuel + 1, cs => do
    match ← dropComments false cs with
    | ']' :: rest => return ([], rest)
    | cs =>
      let (v, cs) ← value? depth fuel cs
      match ← dropComments false cs with
      | ',' :: cs =>
        let (vs, cs) ← items? depth fuel cs
        return (v :: vs, cs)
      | ']' :: cs => return ([v], cs)
      | _ => none

/-- The pairs of an inline table, up to its end, added to those before. -/
def pairs? (depth : Nat) : Nat → Entries → List Char → Option (Entries × List Char)
  | 0, _, _ => none
  | fuel + 1, es, cs => do
    let (path, key, cs) ← key? cs
    match cs with
    | '=' :: cs =>
      let (v, cs) ← value? depth fuel (dropBlanks cs)
      let es ← addPair path key v es
      match dropBlanks cs with
      | ',' :: cs => pairs? depth fuel es cs
      | '\x7d' :: cs => return (es, cs)
      | _ => none
    | _ => none

end

/-! ## Documents -/

/-- The entries read so far, and the path of the table that pairs go into. -/
structure Reading where
  root : Entries := []
  home : List String := []

/-- One statement: a header or a pair, up to the end of its line. -/
def statement? (r : Reading) (cs : List Char) : Option (Reading × List Char) := do
  match cs with
  | '[' :: '[' :: cs =>
    let (path, key, cs) ← key? cs
    match cs with
    | ']' :: ']' :: cs =>
      return (⟨← addElement path key r.root, path ++ [key]⟩, ← lineEnd? cs)
    | _ => none
  | '[' :: cs =>
    let (path, key, cs) ← key? cs
    match cs with
    | ']' :: cs => return (⟨← addTable path key r.root, path ++ [key]⟩, ← lineEnd? cs)
    | _ => none
  | cs =>
    let (path, key, cs) ← key? cs
    match cs with
    | '=' :: cs =>
      let (v, cs) ← value? 0 (2 * cs.length + 1) (dropBlanks cs)
      return ({ r with root := ← addPairIn r.home path key v r.root }, ← lineEnd? cs)
    | _ => none

/-- All statements. -/
def statements? : Nat → Reading → List Char → Option Entries
  | 0, _, _ => none
  | fuel + 1, r, cs => do
    match ← dropComments false cs with
    | [] => return r.root
    | cs =>
      let (r, cs) ← statement? r cs
      statements? fuel r cs

/-- Read a document. A byte order mark may stand before it. -/
def parse? (text : String) : Option Entries :=
  let cs := text.toList
  let cs := match cs with
    | '\uFEFF' :: cs => cs
    | cs => cs
  statements? (cs.length + 1) {} cs

end ByteTrust.Toml
