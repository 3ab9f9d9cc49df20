import ByteTrust.Fault
import ByteTrust.Ident.Map
import ByteTrust.Program.Object
import ByteTrust.Program.Region
import ByteTrust.Table

/-!
# Programs

A program is a table of contexts. A function context is one specialised instance of a function; an
iteration context is one unrolled pass through a loop of the context above it. Contexts and blocks
keep the order in which they were declared.
-/

namespace ByteTrust

/-- What a context is an instance of. -/
inductive ContextKind
  /-- A function; `callers` are the call instructions that enter this instance. -/
  | function (function : FunctionId) (name : String) (callers : List InstId)
  /-- Pass number `index` through a loop of the parent context. -/
  | iteration (loop : LoopId) (index : Nat) (header latch : BlockId)
deriving DecidableEq

/-- An analysis context. -/
structure Context where
  id : ContextId
  kind : ContextKind
  /-- The calling context of a function, or the context that holds the loop of an iteration. -/
  parent : Option ContextId := none
  blocks : Table BlockId Block
  regions : List Region
  entry : BlockId
  /-- The context will be emitted. -/
  materialized : Bool := true

namespace Context

/-- Look up a block. -/
def block (c : Context) (b : BlockId) : Except Fault Block :=
  match c.blocks.get? b with
  | some block => .ok block
  | none => .error (.unknownBlock c.id b)

/-- The context is an instance of a function. -/
def isFunction (c : Context) : Bool :=
  match c.kind with
  | .function .. => true
  | .iteration .. => false

/-- The function that the context is an instance of. -/
def function? (c : Context) : Option FunctionId :=
  match c.kind with
  | .function f _ _ => some f
  | .iteration .. => none

/-- The call instructions that enter the context. -/
def callers (c : Context) : List InstId :=
  match c.kind with
  | .function _ _ callers => callers
  | .iteration .. => []

/-- The context that an iteration belongs to. -/
def enclosing? (c : Context) : Option ContextId :=
  match c.kind with
  | .function .. => none
  | .iteration .. => c.parent

/-- The loops of the context, outer ones first. -/
def loops (c : Context) : List Loop := Region.loopsAll c.regions

/-- The instructions with their block and their position in it, in the order of the blocks. -/
def instructions (c : Context) : List (BlockId × Nat × Instr) :=
  c.blocks.values.flatMap fun b => b.insts.mapIdx fun i inst => (b.id, i, inst)

end Context

/-- What a path condition says. -/
inductive PathFact
  /-- `len` bytes at `ptr + offset` hold their speculated values. -/
  | bytes (ptr : PointerValue) (offset : Int) (len : Nat)
  /-- A checker function runs here. -/
  | checker (context : ContextId)
deriving DecidableEq

/-- A fact that holds on entry to a block. -/
structure PathCondition where
  function : FunctionId
  block : BlockId
  /-- The call depth at which it holds; at any depth if there is none. -/
  stackDepth : Option Nat := none
  fact : PathFact
deriving DecidableEq

/-- An annotated call and loop tree. -/
structure Program where
  objects : IdentMap .object MemoryObject
  contexts : Table ContextId Context
  root : ContextId
  pathConditions : List PathCondition := []

/-- Where an instruction stands. -/
structure Place where
  context : ContextId
  block : BlockId
  index : Nat
deriving DecidableEq, Repr

namespace Program

/-- Look up a context. -/
def context (p : Program) (c : ContextId) : Except Fault Context :=
  match p.contexts.get? c with
  | some context => .ok context
  | none => .error (.unknownContext c)

/-- Look up an object. -/
def object (p : Program) (o : ObjectId) : Except Fault MemoryObject :=
  match p.objects.get? o with
  | some object => .ok object
  | none => .error (.unknownObject o)

/-- Look up a block of a context. -/
def block (p : Program) (c : ContextId) (b : BlockId) : Except Fault Block := do
  (← p.context c).block b

/-- The instruction at a place. -/
def instruction (p : Program) (place : Place) : Except Fault Instr := do
  match (← p.block place.context place.block).insts[place.index]? with
  | some inst => return inst
  | none => throw (.unknownBlock place.context place.block)

/-- The object is a constant global. -/
def isConstant (p : Program) (o : ObjectId) : Bool :=
  (p.objects.get? o).any MemoryObject.isConstant

/-- The object lives on through one surviving reference. -/
def needsReference (p : Program) (o : ObjectId) : Bool :=
  (p.objects.get? o).any MemoryObject.needsReference

/-- The size of an object, if it is declared with one. -/
def sizeOf? (p : Program) (o : ObjectId) : Option Nat :=
  (p.objects.get? o).bind MemoryObject.size

end Program

end ByteTrust
