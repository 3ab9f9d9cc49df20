import ByteTrust.Ident.Basic

/-!
# Memory objects

What is known of each allocation: where it lives, its size and its name.
-/

namespace ByteTrust

/-- Where an object lives. -/
inductive ObjectKind
  /-- A stack slot of the function context `owner`. -/
  | stack (owner : ContextId)
  | heap
  | global (constant : Bool)
  | descriptor
deriving DecidableEq, Repr

/-- A memory object. -/
structure MemoryObject where
  id : ObjectId
  kind : ObjectKind
  /-- The size in bytes, if it is known. -/
  size : Option Nat
  name : Option String
deriving DecidableEq, Repr

namespace MemoryObject

/-- A constant global: no thread ever changes it. -/
def isConstant (o : MemoryObject) : Bool := o.kind = .global true

/-- The context whose frame holds the object, for stack slots. -/
def frameOwner? (o : MemoryObject) : Option ContextId :=
  match o.kind with
  | .stack owner => some owner
  | _ => none

/-- Heap objects and descriptors live on through one surviving reference. -/
def needsReference (o : MemoryObject) : Bool := o.kind = .heap ∨ o.kind = .descriptor

/-- The object as it is shown: `obj3`, or `obj3(buffer)` with a name. -/
def label (o : MemoryObject) : String :=
  match o.name with
  | some name => o.id.render ++ "(" ++ name ++ ")"
  | none => o.id.render

end MemoryObject

end ByteTrust
