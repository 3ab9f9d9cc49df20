import ByteTrust.Ident.Set
import ByteTrust.Json.Text

/-!
# Typed readers of JSON values

A reader takes a `Json` value to a value of some type, or refuses it. Its first argument is the
number of arrays and objects that may still be entered on the way down.

* A record is an object, or an array of its fields in order. In an object, unknown fields are
  ignored whatever they hold, and a known field stands at most once. Fields left out take their
  default, if they have one.
* A choice without content is its name, or an object from its name to `null`; a choice with
  content is an object with its name as the only key.
* In a map from identifiers the keys are plain decimal numerals.
-/

namespace ByteTrust.Json

/-- The number of arrays and objects that may be nested on the way to a value that is read. -/
def depthLimit : Nat := 127

/-- A reader of values of type `α`. -/
abbrev Reader (α : Type) := Nat → Json → Option α

namespace Decode

variable {α β : Type} {κ : IdentKind}

/-! ## Plain values -/

/-- A truth value. -/
def bool : Reader Bool
  | _, .bool b => some b
  | _, _ => none

/-- A natural number below `bound`. -/
def natBelow (bound : Nat) : Reader Nat
  | _, .num s => (Decimal.nat? s.toList).filter (· < bound)
  | _, _ => none

/-- An unsigned number of 64 bits. -/
def size : Reader Nat := natBelow UInt64.size

/-- A signed number of 64 bits. -/
def offset : Reader Int
  | _, .num s => (Decimal.int? s.toList).filter fun i =>
      -0x8000000000000000 ≤ i ∧ i ≤ 0x7fffffffffffffff
  | _, _ => none

/-- An identifier. -/
def ident : Reader (Ident κ) := fun d j => (natBelow Ident.bound d j).map Ident.mk

/-- A text. -/
def text : Reader String
  | _, .str s => unescape? s
  | _, _ => none

/-- `null`, or a value. -/
def option (r : Reader α) : Reader (Option α)
  | _, .null => some none
  | d, j => (r d j).map some

/-! ## Arrays and maps -/

/-- An array. -/
def list (r : Reader α) : Reader (List α)
  | d + 1, .arr items => items.mapM (r d)
  | _, _ => none

/-- An array of two. -/
def pair (r : Reader α) (s : Reader β) : Reader (α × β)
  | d + 1, .arr [a, b] => do return (← r d a, ← s d b)
  | _, _ => none

/-- A set of identifiers, as an array in any order. -/
def identSet : Reader (IdentSet κ) := fun d j => (list ident d j).map IdentSet.ofList

/-- A map key. -/
def key (spelling : String) : Option (Ident κ) :=
  ((Decimal.nat? spelling.toList).filter (· < Ident.bound)).map Ident.mk

/-- The entries of a map from identifiers, in the order of the text. -/
def keyed (r : Reader α) : Reader (List (Ident κ × α))
  | d + 1, .obj fields => fields.mapM fun f => do return (← key f.1, ← r d f.2)
  | _, _ => none

/-- A map from identifiers. Of a repeated key the last value counts. -/
def identMap (r : Reader α) : Reader (IdentMap κ α) := fun d j =>
  (keyed r d j).map IdentMap.ofList

/-! ## Records -/

/-- What a record holds for one of its fields. -/
inductive Slot
  /-- A value is written. -/
  | given (v : Json)
  /-- An object without the field. -/
  | omitted
  /-- An array that ends before the field. -/
  | cutOff

/-- A field that must be there. -/
def Slot.required (r : Reader α) (d : Nat) : Slot → Option α
  | .given v => r d v
  | _ => none

/-- A field that may be `null`, or left out of an object. -/
def Slot.optional (r : Reader α) (d : Nat) : Slot → Option (Option α)
  | .given v => option r d v
  | .omitted => some none
  | .cutOff => none

/-- A field with a default. -/
def Slot.withDefault (r : Reader α) (a : α) (d : Nat) : Slot → Option α
  | .given v => r d v
  | _ => some a

/-- The values of the fields with a name. -/
def valuesOf (name : String) (fields : List (String × Json)) : List Json :=
  (fields.filter fun f => f.1 == name).map Prod.snd

/-- What an object holds for a field: a field that stands twice is refused. -/
def slotOf (fields : List (String × Json)) (name : String) : Option Slot :=
  match valuesOf name fields with
  | [] => some .omitted
  | [v] => some (.given v)
  | _ => none

/-- What an array holds for the fields in order: surplus entries are refused. -/
def slotsOf : List String → List Json → Option (List Slot)
  | [], [] => some []
  | [], _ :: _ => none
  | _ :: names, [] => (slotsOf names []).map (.cutOff :: ·)
  | _ :: names, v :: vs => (slotsOf names vs).map (.given v :: ·)

/-- Resolve the keys of an object. -/
def resolveKeys (fields : List (String × Json)) : Option (List (String × Json)) :=
  fields.mapM fun f => do return (← unescape? f.1, f.2)

/-- What a value holds for the named fields of a record. -/
def slots (names : List String) : Json → Option (List Slot)
  | .obj fields => do names.mapM (slotOf (← resolveKeys fields))
  | .arr items => slotsOf names items
  | _ => none

/-- A record with the given field names. -/
def record (names : List String) (body : Nat → List Slot → Option α) : Reader α
  | d + 1, j => do body d (← slots names j)
  | 0, _ => none

/-- A record in which fields other than the given ones are refused. -/
def closedRecord (names : List String) (body : Nat → List Slot → Option α) : Reader α
  | d, .obj fields => do
    let resolved ← resolveKeys fields
    if resolved.all fun f => names.contains f.1 then record names body d (.obj fields) else none
  | d, j => record names body d j

/-! ## Choices -/

/-- A choice, by its name and its content if it is written with one. -/
def choice (body : Nat → String → Option Json → Option α) : Reader α
  | d, .str s => do body d (← unescape? s) none
  | d + 1, .obj [(k, v)] => do body d (← unescape? k) (some v)
  | _, _ => none

/-- A choice that has no content. -/
def bare (a : α) : Option Json → Option α
  | none => some a
  | some .null => some a
  | some _ => none

/-- A choice among names without content. -/
def oneOf (options : List (String × α)) : Reader α :=
  choice fun _ name content =>
    match options.find? fun o => o.1 == name with
    | some o => bare o.2 content
    | none => none

end Decode

end ByteTrust.Json
