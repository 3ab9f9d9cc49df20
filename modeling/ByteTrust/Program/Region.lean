import ByteTrust.Ident.Set
import ByteTrust.Program.Instr

/-!
# Blocks and regions

The blocks of a context stand in a tree of regions: a list of blocks and loops, each loop with a
body of its own.
-/

namespace ByteTrust

/-- An edge out of a block. -/
structure Successor where
  target : BlockId
  /-- The edge may be taken. -/
  live : Bool := true
deriving DecidableEq, Repr

/-- How a block ends. -/
inductive Terminator
  | branch
  | ret
  | unreachable
deriving DecidableEq, Repr

/-- A basic block. -/
structure Block where
  id : BlockId
  insts : List Instr := []
  succs : List Successor := []
  /-- The blocks with an edge to this one. -/
  preds : List BlockId := []
  terminator : Terminator := .branch
  /-- Runs on every path through its context. -/
  certain : Bool := true
deriving DecidableEq, Repr

namespace Block

/-- The targets of the edges that may be taken. -/
def liveSuccs (b : Block) : List BlockId := (b.succs.filter Successor.live).map Successor.target

/-- There is an edge to `target`. -/
def hasEdgeTo (b : Block) (target : BlockId) : Bool := b.succs.any fun s => s.target = target

/-- There is an edge to `target` that may be taken. -/
def hasLiveEdgeTo (b : Block) (target : BlockId) : Bool :=
  b.succs.any fun s => s.live && s.target = target

/-- The callees of the inlined calls, in order. -/
def callees (b : Block) : List ContextId := b.insts.filterMap fun i => i.op.callee?

end Block

/-- A loop that was unrolled into iterations. -/
structure PeelAttempt where
  /-- The contexts of the iterations, in order. -/
  iterations : List ContextId
  /-- All iterations are known: after the last one the loop is left. -/
  terminated : Bool
  /-- The iterations will be emitted. -/
  materialized : Bool := true
deriving DecidableEq

/-- A loop, its body apart. -/
structure Loop where
  id : LoopId
  preheader : BlockId
  /-- For a terminated peel, the header of the first iteration. -/
  header : BlockId
  latch : BlockId
  /-- The blocks of the body. -/
  blocks : IdentSet .block := ∅
  peel : Option PeelAttempt := none
deriving DecidableEq

/-- The peel attempt, when all iterations are known. Such a loop is walked by iteration. -/
def Loop.terminatedPeel? (l : Loop) : Option PeelAttempt := l.peel.filter PeelAttempt.terminated

/-- A node of the tree of regions. -/
inductive Region
  | block (id : BlockId)
  | loop (info : Loop) (body : List Region)

namespace Region

mutual

/-- The loops of a region, outer ones first. -/
def loops : Region → List Loop
  | .block _ => []
  | .loop info body => info :: loopsAll body

/-- The loops of a list of regions, outer ones first. -/
def loopsAll : List Region → List Loop
  | [] => []
  | r :: rs => r.loops ++ loopsAll rs

end

mutual

/-- The blocks that a region names, in order. -/
def blocks : Region → List BlockId
  | .block id => [id]
  | .loop _ body => blocksAll body

/-- The blocks that a list of regions names, in order. -/
def blocksAll : List Region → List BlockId
  | [] => []
  | r :: rs => r.blocks ++ blocksAll rs

end

mutual

/-- Change the description of every loop in a region. -/
def mapLoops (f : Loop → Loop) : Region → Region
  | .block id => .block id
  | .loop info body => .loop (f info) (mapLoopsAll f body)

/-- Change the description of every loop in a list of regions. -/
def mapLoopsAll (f : Loop → Loop) : List Region → List Region
  | [] => []
  | r :: rs => r.mapLoops f :: mapLoopsAll f rs

end

end Region

end ByteTrust
