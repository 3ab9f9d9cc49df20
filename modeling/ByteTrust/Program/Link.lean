import ByteTrust.Program.Layout

/-!
# Linking a program

`Program.link` makes a program ready for analysis: every name is resolved, iterations that will
not be emitted are marked, predecessors are computed from the edges, and the regions are checked
against the blocks. The first fault found decides.
-/

namespace ByteTrust

namespace Program

/-! ## Names -/

/-- A context that must be an instance of a function. -/
def checkFunction (p : Program) (c : ContextId) : Except Fault Unit := do
  unless (← p.context c).isFunction do throw (.unknownContext c)

/-- The names in an operation. -/
def checkOperation (p : Program) : Operation → Except Fault Unit
  | .alloc object => discard (p.object object)
  | .realloc object _ _ _ => discard (p.object object)
  | .call site =>
    match site.callee with
    | some callee => p.checkFunction callee
    | none => .ok ()
  | _ => .ok ()

/-- The names in an instruction, whose own name must be new. -/
def checkInstr (p : Program) (seen : IdentSet .inst) (i : Instr) :
    Except Fault (IdentSet .inst) := do
  if seen.contains i.id then throw (.unknownInstr i.id)
  p.checkOperation i.op
  return seen.insert i.id

/-- The names in a block, which must be filed under its own. -/
def checkBlock (p : Program) (c : Context) (seen : IdentSet .inst) (e : BlockId × Block) :
    Except Fault (IdentSet .inst) := do
  if e.1 ≠ e.2.id then throw (.unknownBlock c.id e.1)
  e.2.insts.foldlM p.checkInstr seen

/-- The names in a context. -/
def checkContext (p : Program) (seen : IdentSet .inst) (c : Context) :
    Except Fault (IdentSet .inst) := do
  match c.parent with
  | some parent => discard (p.context parent)
  | none => unless c.isFunction do throw (.unknownContext c.id)
  discard (c.block c.entry)
  c.blocks.entries.foldlM (p.checkBlock c) seen

/-- The names in a program. -/
def checkNames (p : Program) : Except Fault Unit := do
  p.checkFunction p.root
  discard (p.contexts.values.foldlM p.checkContext ∅)
  p.pathConditions.forM fun cond =>
    match cond.fact with
    | .checker c => p.checkFunction c
    | .bytes .. => .ok ()

/-! ## Flags and predecessors -/

/-- The iterations of the peel attempts that will not be emitted. -/
def hiddenIterations (p : Program) : List ContextId :=
  p.contexts.values.flatMap fun c => c.loops.flatMap fun info =>
    match info.peel with
    | some peel => if peel.materialized then [] else peel.iterations
    | none => []

/-- Iterations of a peel attempt that will not be emitted are not emitted either. -/
def inheritFlags (p : Program) : Program :=
  let hidden := p.hiddenIterations
  { p with contexts := p.contexts.mapValues fun k c =>
      if hidden.contains k then { c with materialized := false } else c }

/-- All edges, in the order of contexts and blocks: the context and block that each leads to, and
the block it comes from. -/
def edges (p : Program) (l : Layout) : List ((ContextId × BlockId) × BlockId) :=
  p.contexts.values.flatMap fun c => c.blocks.values.flatMap fun b => b.succs.filterMap fun s =>
    (l.owner? (l.functionRoot c.id) s.target).map fun owner => ((owner, s.target), b.id)

/-- A context before the one filed under `k` bears the name `c` too, and has a block `b`. -/
def isTaken (p : Program) (k c : ContextId) (b : BlockId) : Bool :=
  (p.contexts.entries.takeWhile fun e => e.1 ≠ k).any fun e =>
    e.2.id = c && e.2.blocks.values.any fun block => block.id = b

/-- Fill in the predecessors of every block. Where two contexts bear one name, the first one has
them. -/
def withPreds (p : Program) (l : Layout) : Program :=
  let edges := p.edges l
  { p with contexts := p.contexts.mapValues fun k c =>
      { c with blocks := c.blocks.mapValues fun _ b =>
          { b with preds :=
              if p.isTaken k c.id b.id then []
              else (edges.filter fun e => e.1 = (c.id, b.id)).map Prod.snd } } }

/-! ## Edges, loops and regions -/

/-- Every edge of a context leads to a block of the same function. -/
def checkEdges (p : Program) (l : Layout) (c : Context) : Except Fault Unit :=
  c.blocks.values.forM fun b => b.succs.forM fun s =>
    if (l.edgeOwner? p c.id s.target).isSome then .ok ()
    else .error (.danglingEdge c.id b.id s.target)

/-- Iteration number `i` of a terminated peel. -/
def checkIteration (p : Program) (c : Context) (info : Loop) (i : Nat) (iteration : ContextId) :
    Except Fault Unit := do
  let context ← p.context iteration
  match context.kind with
  | .iteration loop index header _ =>
    if loop = info.id ∧ index = i ∧ context.parent = some c.id then
      if i = 0 ∧ header ≠ info.header then throw (.malformedLoop c.id info.id .headerNotFirst)
    else throw (.malformedLoop c.id info.id (.notIteration iteration i))
  | .function .. => throw (.malformedLoop c.id info.id (.notIteration iteration i))

/-- A loop that was unrolled completely: it has no body of its own, and the preheader enters the
first of its iterations. -/
def checkPeel (p : Program) (c : Context) (info : Loop) (body : List Region)
    (preheader : Block) (peel : PeelAttempt) : Except Fault Unit := do
  unless body.isEmpty && info.blocks.isEmpty do
    throw (.malformedLoop c.id info.id .peelKeepsBody)
  if peel.iterations.isEmpty then throw (.malformedLoop c.id info.id .noIterations)
  peel.iterations.zipIdx.forM fun e => p.checkIteration c info e.2 e.1
  unless preheader.hasEdgeTo info.header do
    throw (.malformedLoop c.id info.id .preheaderMissesPeel)

/-- A body starts with the block `header`. -/
def startsAt (header : BlockId) : List Region → Bool
  | .block b :: _ => b = header
  | _ => false

/-- A loop with a body: the body holds the listed blocks and starts at the header, and the header
is entered from the preheader and from the latch only. -/
def checkBody (c : Context) (info : Loop) (body : List Region) : Except Fault Unit := do
  let fail (defect : LoopDefect) : Except Fault Unit :=
    throw (.malformedLoop c.id info.id defect)
  if IdentSet.ofList (Region.blocksAll body) ≠ info.blocks then fail .blocksDisagree
  unless startsAt info.header body do fail .bodyStart
  unless info.blocks.contains info.latch do fail .latchOutside
  let header ← c.block info.header
  let (inside, outside) := header.preds.partition info.blocks.contains
  if outside ≠ [info.preheader] then fail (.outsideEntries outside)
  if inside.isEmpty || inside.any (· ≠ info.latch) then fail (.insideEntries inside)
  unless (← c.block info.latch).hasEdgeTo info.header do fail .noBackEdge

/-- A loop. -/
def checkLoop (p : Program) (c : Context) (info : Loop) (body : List Region) :
    Except Fault Unit := do
  let preheader ← c.block info.preheader
  if info.blocks.contains info.preheader then
    throw (.malformedLoop c.id info.id .preheaderInside)
  match info.terminatedPeel? with
  | some peel => p.checkPeel c info body preheader peel
  | none => checkBody c info body

mutual

/-- A region, given the blocks covered before it: the blocks covered with it. No block is covered
twice. -/
def checkRegion (p : Program) (c : Context) (covered : IdentSet .block) :
    Region → Except Fault (IdentSet .block)
  | .block b => do
    discard (c.block b)
    if covered.contains b then throw (.unknownBlock c.id b)
    return covered.insert b
  | .loop info body => do
    p.checkLoop c info body
    checkRegions p c covered body

/-- A list of regions, given the blocks covered before. -/
def checkRegions (p : Program) (c : Context) (covered : IdentSet .block) :
    List Region → Except Fault (IdentSet .block)
  | [] => .ok covered
  | r :: rs => do checkRegions p c (← checkRegion p c covered r) rs

end

/-- An iteration starts at its header, and its latch branches back there. -/
def checkBounds (c : Context) : Except Fault Unit :=
  match c.kind with
  | .function .. => .ok ()
  | .iteration loop _ header latch => do
    if c.entry ≠ header then throw (.malformedLoop c.id loop .iterationStart)
    unless (← c.block latch).hasEdgeTo header do throw (.malformedLoop c.id loop .noBackEdge)

/-- The edges and regions of a context; the regions cover all its blocks. -/
def checkShape (p : Program) (l : Layout) (c : Context) : Except Fault Unit := do
  p.checkEdges l c
  let covered ← p.checkRegions c ∅ c.regions
  match c.blocks.keys.find? fun b => !covered.contains b with
  | some missing => throw (.unknownBlock c.id missing)
  | none => checkBounds c

/-- Resolve and check a program, and fill in what follows from its text. -/
def link (p : Program) : Except Fault Program := do
  p.checkNames
  let p := p.inheritFlags
  let layout ← Layout.ofProgram p
  let p := p.withPreds layout
  p.contexts.values.forM (p.checkShape layout)
  return p

end Program

end ByteTrust
