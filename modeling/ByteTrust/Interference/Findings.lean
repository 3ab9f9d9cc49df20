import ByteTrust.Interference.Need
import ByteTrust.Program.Layout

/-!
# What a walk finds

The needs of all reads, the contexts with reads that need a check, and what happened on the way.
A context is *tentative* when it, or a context it calls or iterates, has such a read.

Heap objects and descriptors live on through one surviving reference. The table of these
(`References`) says which objects have none, which speculated values had to be given up because
they name such an object, and which read became the surviving reference of an object.
-/

namespace ByteTrust

/-! ## Surviving references -/

/-- The surviving references of objects. -/
structure References where
  /-- Objects without a surviving reference. -/
  missing : IdentSet .object := ∅
  /-- The objects for which an instruction's value is given up, in the order found. -/
  silenced : IdentMap .inst (List ObjectId) := ∅
  /-- The instruction that became an object's surviving reference. -/
  canonical : IdentMap .object InstId := ∅
deriving DecidableEq

namespace References

/-- All objects have their reference, but for the listed ones. -/
def without (objects : List ObjectId) : References := { missing := .ofList objects }

/-- An object has lost its reference. -/
def lose (r : References) (object : ObjectId) : References :=
  { r with missing := r.missing.insert object }

/-- The value of `inst` names `object` and is given up. -/
def silence (r : References) (inst : InstId) (object : ObjectId) : References :=
  let objects := (r.silenced.get? inst).getD []
  { r with silenced :=
      r.silenced.insert inst (if objects.contains object then objects else objects ++ [object]) }

/-- `inst` becomes the surviving reference of `object`. -/
def promote (r : References) (object : ObjectId) (inst : InstId) : References :=
  { r with
    missing := r.missing.erase object
    canonical := r.canonical.insert object inst }

end References

/-! ## Findings -/

/-- The snapshots that entered the header of an unbounded loop. -/
structure LoopEntry where
  context : ContextId
  loop : LoopId
  /-- What entered from the preheader. -/
  first : Snapshot
  /-- What entered from the preheader and over the back edge. -/
  second : Snapshot
  /-- What came over the back edge again, in the second pass. -/
  closing : List Snapshot

/-- What a walk has found. -/
structure Findings where
  needs : IdentMap .inst Need := ∅
  /-- Contexts with a read that needs a check. -/
  tentative : IdentSet .context := ∅
  /-- Instructions whose value was given up. -/
  silenced : IdentSet .inst := ∅
  /-- Objects with the read that became their surviving reference, in the order found. -/
  promotions : List (ObjectId × InstId) := []
  /-- Callees that were walked from another call before, with the call that came later. -/
  sharedCalls : List (ContextId × InstId) := []
  /-- The unbounded loops walked, in order. -/
  loopEntries : List LoopEntry := []
  /-- The contexts walked. -/
  walked : IdentSet .context := ∅

/-- The last entry of a loop. -/
def Findings.lastEntry? (f : Findings) (c : ContextId) (loop : LoopId) : Option LoopEntry :=
  f.loopEntries.reverse.find? fun e => e.context = c ∧ e.loop = loop

/-! ## Tentative contexts -/

namespace Program

mutual

/-- The contexts below a region of `c`: callees of calls, and iterations of terminated peels. -/
def childrenOf (c : Context) : Region → Except Fault (List ContextId)
  | .block id => do return (← c.block id).callees
  | .loop info body =>
    match info.terminatedPeel? with
    | some peel => .ok peel.iterations
    | none => childrenOfAll c body

/-- The contexts below a list of regions. -/
def childrenOfAll (c : Context) : List Region → Except Fault (List ContextId)
  | [] => .ok []
  | r :: rs => do return (← childrenOf c r) ++ (← childrenOfAll c rs)

end

/-- The contexts that a context calls or iterates. -/
def children (p : Program) (c : ContextId) : Except Fault (List ContextId) := do
  let context ← p.context c
  childrenOfAll context context.regions

/-- Search for a context in `goal`, from those waiting on `stack`, through children that were not
seen before. Each step takes one context off the stack; `fuel` bounds the steps. -/
def reaches (p : Program) (goal : IdentSet .context) :
    Nat → IdentSet .context → List ContextId → Except Fault Bool
  | _, _, [] => .ok false
  | 0, _, _ :: _ => .error .endless
  | fuel + 1, seen, c :: stack =>
    if seen.contains c then reaches p goal fuel seen stack
    else if goal.contains c then .ok true
    else do
      reaches p goal fuel (seen.insert c) ((← p.children c).reverse ++ stack)

/-- The steps of a search: each context is expanded once, so each child waits at most once for
each place that names it. -/
def searchBound (p : Program) : Nat :=
  1 + (p.contexts.keys.flatMap fun c => (p.children c).toOption.getD []).length

/-- The context, or one that it calls or iterates, has a read that needs a check. -/
def isTentative (p : Program) (f : Findings) (c : ContextId) : Except Fault Bool :=
  p.reaches f.tentative p.searchBound ∅ [c]

/-- One of several contexts is tentative. -/
def anyTentative (p : Program) (f : Findings) : List ContextId → Except Fault Bool
  | [] => .ok false
  | c :: cs => do if ← p.isTentative f c then return true else anyTentative p f cs

end Program

end ByteTrust
