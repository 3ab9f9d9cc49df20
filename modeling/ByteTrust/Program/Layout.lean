import ByteTrust.Program.Basic

/-!
# The layout of a program

Look-up tables that are drawn up once: where each instruction stands, which context holds a block,
which function and which call depth a context belongs to, and the order in which contexts are
visited. Climbing from a context to its parents takes at most one step for each context; a climb
that would take more goes round in a circle and fails.
-/

namespace ByteTrust

/-- Look-up tables of a program. -/
structure Layout where
  places : IdentMap .inst Place := ∅
  /-- From a function context and a block to the context that holds the block. -/
  owners : Table (ContextId × BlockId) ContextId := ∅
  /-- From a context and the header of a first iteration to the terminated peel entered there. -/
  peeledHeaders : Table (ContextId × BlockId) LoopId := ∅
  peels : Table (ContextId × LoopId) PeelAttempt := ∅
  /-- From a context to the function context at the top of its iterations. -/
  roots : IdentMap .context ContextId := ∅
  /-- From a context to its call depth. -/
  depths : IdentMap .context Nat := ∅
  /-- All contexts, parents before children. -/
  order : List ContextId := []

namespace Program

/-- A climb through parents visits each context at most once. -/
def climbBound (p : Program) : Nat := p.contexts.size + 1

/-- Climb from an iteration to the function around it, in at most `fuel` steps. -/
def functionRootFrom (p : Program) : Nat → ContextId → Except Fault ContextId
  | 0, c => .error (.unknownContext c)
  | fuel + 1, c => do
    match (← p.context c).enclosing? with
    | some parent => functionRootFrom p fuel parent
    | none => return c

/-- Climb from a context to the top, counting the function contexts with a parent, in at most
`fuel` steps. -/
def callDepthFrom (p : Program) : Nat → ContextId → Nat → Except Fault Nat
  | 0, c, _ => .error (.unknownContext c)
  | fuel + 1, c, depth => do
    let context ← p.context c
    match context.parent with
    | none => return depth
    | some parent =>
      callDepthFrom p fuel parent (if context.isFunction then depth + 1 else depth)

/-! ## The order of contexts -/

mutual

/-- The contexts that a region of `c` enters, in order: callees of calls, and iterations of a
peeled loop before those entered in its body. A block that does not exist is a fault at its
turn. -/
def entered (c : Context) : Region → List (Except Fault ContextId)
  | .block id =>
    match c.block id with
    | .ok block => block.callees.map .ok
    | .error fault => [.error fault]
  | .loop info body =>
    (info.peel.elim [] PeelAttempt.iterations).map .ok ++ enteredAll c body

/-- The contexts that a list of regions enters, in order. -/
def enteredAll (c : Context) : List Region → List (Except Fault ContextId)
  | [] => []
  | r :: rs => entered c r ++ enteredAll c rs

end

/-- Add a context and all that it enters to those visited before, latest first. Entering goes no
deeper than `fuel` contexts. -/
def visit (p : Program) : Nat → List ContextId → Context → Except Fault (List ContextId)
  | 0, _, _ => .error .endless
  | fuel + 1, visited, c =>
    if visited.contains c.id then .ok visited
    else
      (enteredAll c c.regions).foldlM
        (fun visited child => do visit p fuel visited (← p.context (← child))) (c.id :: visited)

/-- All contexts, parents before children: those below the root, those below the checker
functions of path conditions, and the others in the order of their declaration. -/
def visitOrder (p : Program) : Except Fault (List ContextId) := do
  let visited ← visit p p.climbBound [] (← p.context p.root)
  let visited ← p.pathConditions.foldlM (fun visited cond =>
    match cond.fact with
    | .checker c => do visit p p.climbBound visited (← p.context c)
    | .bytes .. => .ok visited) visited
  let visited ← p.contexts.values.foldlM (visit p p.climbBound) visited
  return visited.reverse

end Program

namespace Layout

/-- Enter one context into the tables. -/
def addContext (p : Program) (l : Layout) (c : Context) : Except Fault Layout := do
  let root ← p.functionRootFrom p.climbBound c.id
  let depth ← p.callDepthFrom p.climbBound c.id 0
  let peeled := c.loops.filterMap fun info => info.peel.map fun peel => (info, peel)
  return { l with
    roots := l.roots.insert c.id root
    depths := l.depths.insert c.id depth
    places := c.instructions.foldl
      (fun places i => places.insert i.2.2.id ⟨c.id, i.1, i.2.1⟩) l.places
    owners := c.blocks.keys.foldl (fun owners b => owners.insert (root, b) c.id) l.owners
    peels := peeled.foldl (fun peels e => peels.insert (c.id, e.1.id) e.2) l.peels
    peeledHeaders := (peeled.filter fun e => e.2.terminated).foldl
      (fun headers e => headers.insert (c.id, e.1.header) e.1.id) l.peeledHeaders }

/-- Draw up the tables of a program. -/
def ofProgram (p : Program) : Except Fault Layout := do
  let layout ← p.contexts.values.foldlM (addContext p) {}
  return { layout with order := ← p.visitOrder }

/-- Where an instruction stands. -/
def place (l : Layout) (inst : InstId) : Except Fault Place :=
  match l.places.get? inst with
  | some place => .ok place
  | none => .error (.unknownInstr inst)

/-- The function context at the top of a context's iterations. -/
def functionRoot (l : Layout) (c : ContextId) : ContextId := (l.roots.get? c).getD c

/-- The call depth of a context: zero at the top, one more for each function that is called. -/
def callDepth (l : Layout) (c : ContextId) : Nat := (l.depths.get? c).getD 0

/-- The context that holds a block, among the iterations of a function context. -/
def owner? (l : Layout) (root : ContextId) (b : BlockId) : Option ContextId :=
  l.owners.get? (root, b)

/-- The context holds the block itself, or enters a terminated peel there. -/
def owns (l : Layout) (c : ContextId) (b : BlockId) : Bool :=
  l.owner? (l.functionRoot c) b = some c || l.peeledHeaders.contains (c, b)

/-- Climb from `c` through enclosing iterations to the context that owns `target`, in at most
`fuel` steps. -/
def edgeOwnerFrom (l : Layout) (p : Program) (target : BlockId) :
    Nat → ContextId → Option ContextId
  | 0, _ => none
  | fuel + 1, c =>
    if l.owns c target then some c
    else
      match p.contexts.get? c with
      | none => none
      | some context =>
        match context.enclosing? with
        | some parent => edgeOwnerFrom l p target fuel parent
        | none => none

/-- The context that an edge from `c` to `target` leads into. -/
def edgeOwner? (l : Layout) (p : Program) (c : ContextId) (target : BlockId) : Option ContextId :=
  l.edgeOwnerFrom p target p.climbBound c

/-- The peel attempt of a loop. -/
def peel? (l : Layout) (c : ContextId) (loop : LoopId) : Option PeelAttempt :=
  l.peels.get? (c, loop)

end Layout

end ByteTrust
