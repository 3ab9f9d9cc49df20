/-!
# TOML documents

A document is a tree of tables. How a table came about decides what may be added to it later:

* a table with a header of its own is written once;
* a table that only stands above another one's header may get a header of its own later;
* a table made by dotted keys grows by dotted keys only;
* an inline table is closed.
-/

namespace ByteTrust.Toml

/-- How a table came about. -/
inductive Origin
  /-- It has a header, or is the document itself, or an element of an array of tables. -/
  | header
  /-- It stands above the table of some header. -/
  | above
  /-- It was made by a dotted key. -/
  | dotted
  /-- It is written in braces. -/
  | inline
deriving DecidableEq

/-- A value of a document. Numbers with a fraction and dates keep their spelling. -/
inductive Node
  | text (s : String)
  | integer (i : Int)
  | real (spelling : String)
  | bool (b : Bool)
  | moment (spelling : String)
  | array (items : List Node)
  | table (origin : Origin) (entries : List (String × Node))
  /-- An array of tables, each with a header. -/
  | tables (elements : List (List (String × Node)))

/-- The entries of a table. -/
abbrev Entries := List (String × Node)

/-- The value at a key. -/
def Entries.get? (key : String) (es : Entries) : Option Node :=
  (es.find? fun e => e.1 == key).map Prod.snd

/-- Change the value at a key that is present. -/
def Entries.set (key : String) (v : Node) (es : Entries) : Entries :=
  es.map fun e => if e.1 == key then (key, v) else e

/-- Change the last element of a list. -/
def changeLast {α : Type} (f : α → Option α) : List α → Option (List α)
  | [] => none
  | [a] => (f a).map fun a => [a]
  | a :: as => (changeLast f as).map (a :: ·)

/-- Change the table at the end of a path. Tables that are missing on the way are made, with the
origin `made`. The way leads through the last element of an array of tables. Dotted keys lead
through no table with a header, and nothing leads into an inline table. -/
def changeAt (made : Origin) (f : Origin → Entries → Option Entries) :
    List String → Origin → Entries → Option Entries
  | [], origin, es => f origin es
  | key :: path, _, es =>
    match es.get? key with
    | none => (changeAt made f path made []).map fun sub => es ++ [(key, .table made sub)]
    | some (.table origin sub) =>
      if origin = .inline ∨ (made = .dotted ∧ origin = .header) then none
      else (changeAt made f path origin sub).map fun sub => es.set key (.table origin sub)
    | some (.tables elements) =>
      (changeLast (changeAt made f path .header) elements).map fun elements =>
        es.set key (.tables elements)
    | some _ => none

/-- Put a value at a dotted key. The key must be new, and the table that the dots lead to must be
one made by dotted keys. -/
def addPair (path : List String) (key : String) (v : Node) : Entries → Option Entries :=
  changeAt .dotted (fun origin es =>
    if (origin = .dotted) = path.isEmpty ∨ (es.get? key).isSome then none
    else some (es ++ [(key, v)])) path .header

/-- Start the table of a header. -/
def addTable (path : List String) (key : String) : Entries → Option Entries :=
  changeAt .above (fun _ es =>
    match es.get? key with
    | none => some (es ++ [(key, .table .header [])])
    | some (.table .above sub) => some (es.set key (.table .header sub))
    | some _ => none) path .header

/-- Start a new element of an array of tables. -/
def addElement (path : List String) (key : String) : Entries → Option Entries :=
  changeAt .above (fun _ es =>
    match es.get? key with
    | none => some (es ++ [(key, .tables [[]])])
    | some (.tables elements) => some (es.set key (.tables (elements ++ [[]])))
    | some _ => none) path .header

/-- Put a value at a dotted key in the table with the path `home`. -/
def addPairIn (home path : List String) (key : String) (v : Node) : Entries → Option Entries :=
  changeAt .above (fun _ es => addPair path key v es) home .header

end ByteTrust.Toml
