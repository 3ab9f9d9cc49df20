/-!
# Identifiers

Objects, contexts, blocks, instructions, loops and functions are named by numbers below `2 ^ 32`.
An identifier carries what it names in its type, so that a block is never taken for a context.
-/

namespace ByteTrust

/-- What an identifier can name. -/
inductive IdentKind
  | object
  | context
  | block
  | inst
  | loop
  | function
deriving DecidableEq, Repr

/-- An identifier of kind `κ`. Two identifiers of one kind are equal exactly when their numbers
are. -/
structure Ident (κ : IdentKind) where
  number : Nat
deriving DecidableEq, Repr

/-- A memory object. -/
abbrev ObjectId := Ident .object
/-- An analysis context: one specialised function instance, or one peeled loop iteration. -/
abbrev ContextId := Ident .context
/-- A basic block, unique within a function and the iterations below it. -/
abbrev BlockId := Ident .block
/-- An instruction, unique in the whole program. -/
abbrev InstId := Ident .inst
/-- A loop of a context. -/
abbrev LoopId := Ident .loop
/-- A function before specialisation. -/
abbrev FunctionId := Ident .function

/-- The numbers of identifiers lie below this bound. -/
def Ident.bound : Nat := UInt32.size

/-- The letters put before the number when an identifier is shown. -/
def IdentKind.letters : IdentKind → String
  | .object => "obj"
  | .context => "ctx"
  | .block => "bb"
  | .inst => "inst"
  | .loop => "loop"
  | .function => "fn"

/-- An identifier as it is shown in messages: `ctx7`, `bb0`. -/
def Ident.render {κ : IdentKind} (i : Ident κ) : String :=
  κ.letters ++ Nat.repr i.number

/-- A list of identifiers as it is shown in messages: `[bb1, bb2]`, or `[]`. -/
def Ident.renderList {κ : IdentKind} (is : List (Ident κ)) : String :=
  "[" ++ String.intercalate ", " (is.map Ident.render) ++ "]"

theorem Ident.eq_of_number_eq {κ : IdentKind} {i j : Ident κ} (h : i.number = j.number) :
    i = j := by
  cases i
  cases j
  exact congrArg Ident.mk h

end ByteTrust
