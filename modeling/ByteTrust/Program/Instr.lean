import ByteTrust.Program.Value

/-!
# Instructions

The operations that the analyses tell apart, with the pointers and values they were speculated to
have.
-/

namespace ByteTrust

/-- The ordering of a memory access. -/
inductive AccessOrdering
  | plain
  /-- Volatile or ordered. -/
  | ordered
  /-- Ordered, and proven to behave like a plain access. -/
  | orderedSimple
deriving DecidableEq, Repr

/-- Anything but a plain access. -/
def AccessOrdering.isOrdered (o : AccessOrdering) : Bool := o ≠ .plain

/-- What a call that is not inlined does to other threads' view of memory. -/
inductive CallEffect
  /-- A known function that cannot synchronise with another thread. -/
  | known
  /-- The callee is not known. -/
  | unknown
  /-- A declared yield point. -/
  | yields
deriving DecidableEq, Repr

/-- The objects that a call may read. -/
inductive RefSummary
  | unknown
  | objects (os : List ObjectId)
deriving DecidableEq, Repr

/-- Whether a call may read `object`. -/
def RefSummary.mayReference (r : RefSummary) (object : ObjectId) : Bool :=
  match r with
  | .unknown => true
  | .objects os => os.contains object

/-- A call. -/
structure CallSite where
  /-- The specialised callee, when the call was inlined. -/
  callee : Option ContextId := none
  effect : CallEffect := .known
  /-- The only objects that a yielding call may change, if they are declared. -/
  domain : Option (List ObjectId) := none
  /-- What the call changes was already taken into account. -/
  pessimistic : Bool := false
  refs : RefSummary := .unknown
  result : ReadValue := .unknown
deriving DecidableEq, Repr

/-- What an instruction does. -/
inductive Operation
  | load (ptr : PointerValue) (size : Nat) (ordering : AccessOrdering) (result : ReadValue)
  | store (ptr : PointerValue) (size : Nat)
  /-- An atomic read-modify-write. -/
  | atomic (ptr : PointerValue) (size : Nat) (ordering : AccessOrdering) (result : ReadValue)
  | fence
  | memset (dest : PointerValue) (len : Option Nat)
  /-- A copy; `copied` holds the values it was speculated to carry, counted from `src`. -/
  | memcpy (dest src : PointerValue) (len : Option Nat) (copied : List ValuePiece)
  /-- A file read that writes to `dest`. -/
  | readFile (dest : PointerValue) (size : Option Nat)
  | alloc (object : ObjectId)
  /-- A reallocation into `object`, which copies from `source`. -/
  | realloc (object : ObjectId) (source : PointerValue) (len : Option Nat)
      (copied : List ValuePiece)
  | free (ptr : PointerValue)
  | call (site : CallSite)
  | phi (value : ReadValue)
  | other
deriving DecidableEq, Repr

namespace Operation

/-- Reads memory by itself, not through a callee. -/
def readsMemory : Operation → Bool
  | .load .. | .atomic .. | .memcpy .. | .realloc .. => true
  | _ => false

/-- Carries bytes from one place to another. -/
def isCopy : Operation → Bool
  | .memcpy .. | .realloc .. => true
  | _ => false

/-- Has a value that a run-time check could test. -/
def producesValue : Operation → Bool
  | .load .. | .atomic .. | .alloc .. | .realloc .. | .phi .. | .memcpy .. => true
  | .call site => site.result ≠ .unknown || site.callee.isSome
  | _ => false

/-- The speculated result, for operations that have one. -/
def result? : Operation → Option ReadValue
  | .load _ _ _ result | .atomic _ _ _ result => some result
  | .call site => some site.result
  | .phi value => some value
  | _ => none

/-- The values that a read was speculated to see, those that a copy carries included. -/
def readValues : Operation → List SpecValue
  | .memcpy _ _ _ copied | .realloc _ _ _ copied => copied.filterMap ValuePiece.value
  | op => (op.result?.map ReadValue.values).getD []

/-- The callee of an inlined call. -/
def callee? : Operation → Option ContextId
  | .call site => site.callee
  | _ => none

end Operation

/-- A run-time check that was asked for before the analysis. -/
inductive RuntimeCheck
  | none
  /-- The value is compared with its speculated value. -/
  | asExpected
  /-- A file read is validated again before the instruction. -/
  | fileRead
  /-- A comparison of memory is validated again after the instruction. -/
  | comparison
deriving DecidableEq, Repr

/-- An instruction. -/
structure Instr where
  id : InstId
  op : Operation
  /-- Touches only memory of its own thread. -/
  threadLocal : Bool := false
  runtimeCheck : RuntimeCheck := .none
  /-- Can be reached at all. -/
  reached : Bool := true
deriving DecidableEq, Repr

end ByteTrust
