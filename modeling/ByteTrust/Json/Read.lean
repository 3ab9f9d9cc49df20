import ByteTrust.Json.Token

/-!
# Reading JSON text

The tokens of a text are put together by a machine that keeps the open arrays and objects on a
stack, so nesting is bounded by nothing but the text. A text is read when the machine has one
whole value and no token is left.
-/

namespace ByteTrust.Json

/-- An array or object that waits for a value: the entries so far in reverse, and for an object
the key of the value. -/
inductive Open
  | arr (items : List Json)
  | obj (fields : List (String × Json)) (key : String)

/-- What has been read. In each state but `done`, `stack` holds the containers around the place
that is read next, innermost first. -/
inductive State
  /-- A value comes next. -/
  | value (stack : List Open)
  /-- An array was just opened. -/
  | firstItem (stack : List Open)
  /-- In an array, after an item. -/
  | afterItem (items : List Json) (stack : List Open)
  /-- An object was just opened. -/
  | firstKey (stack : List Open)
  /-- In an object, after a comma. -/
  | nextKey (fields : List (String × Json)) (stack : List Open)
  /-- In an object, after a key. -/
  | afterKey (fields : List (String × Json)) (key : String) (stack : List Open)
  /-- In an object, after a field. -/
  | afterField (fields : List (String × Json)) (stack : List Open)
  /-- The whole value is read. -/
  | done (v : Json)

/-- A value is complete: give it to the innermost container that waits. -/
def settle (v : Json) : List Open → State
  | [] => .done v
  | .arr items :: stack => .afterItem (v :: items) stack
  | .obj fields key :: stack => .afterField ((key, v) :: fields) stack

/-- A token where a value is wanted. -/
def beginValue (stack : List Open) : Token → Option State
  | .null => some (settle .null stack)
  | .bool b => some (settle (.bool b) stack)
  | .num s => some (settle (.num s) stack)
  | .str s => some (settle (.str s) stack)
  | .openArray => some (.firstItem stack)
  | .openObject => some (.firstKey stack)
  | _ => none

/-- One step of the machine. -/
def State.step : State → Token → Option State
  | .value stack, t => beginValue stack t
  | .firstItem stack, .closeArray => some (settle (.arr []) stack)
  | .firstItem stack, t => beginValue (.arr [] :: stack) t
  | .afterItem items stack, .comma => some (.value (.arr items :: stack))
  | .afterItem items stack, .closeArray => some (settle (.arr items.reverse) stack)
  | .firstKey stack, .closeObject => some (settle (.obj []) stack)
  | .firstKey stack, .str k => some (.afterKey [] k stack)
  | .nextKey fields stack, .str k => some (.afterKey fields k stack)
  | .afterKey fields k stack, .colon => some (.value (.obj fields k :: stack))
  | .afterField fields stack, .comma => some (.nextKey fields stack)
  | .afterField fields stack, .closeObject => some (settle (.obj fields.reverse) stack)
  | _, _ => none

/-- Run the machine over a list of tokens. -/
def State.run : State → List Token → Option Json
  | .done v, [] => some v
  | _, [] => none
  | s, t :: ts =>
    match s.step t with
    | none => none
    | some s => s.run ts

/-- Read a text that holds one JSON value and nothing else but blanks. -/
def parse? (text : String) : Option Json := do (State.value []).run (← tokens? text)

end ByteTrust.Json
