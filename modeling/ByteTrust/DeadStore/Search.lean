import ByteTrust.DeadStore.Write
import ByteTrust.Program.Layout

/-!
# The search for a reader

From a write the search follows every path, into callees that may read the object and back to
their callers. A path ends well when the write is overwritten altogether, or when the lifetime of
its object ends. It ends badly when the write may be read. The write is dead when no path ends
badly.

A block is not walked again with the same pending returns when no fewer bytes are overwritten than
on an earlier visit: what could be read now could be read then.
-/

namespace ByteTrust.DeadStore

/-- Whether a write can be dropped. -/
inductive Verdict
  /-- It is never read. -/
  | dead
  | live
deriving DecidableEq, Repr

/-- What a search knows of the program. -/
structure Setting where
  program : Program
  layout : Layout
  /-- The verdicts so far. A copy that is dead reads nothing. -/
  verdicts : IdentMap .inst Verdict
  /-- The instructions that are checked at run time. They read memory even if their value is
  known. -/
  checked : IdentSet .inst

/-! ## One instruction -/

/-- What becomes of a path at an instruction. -/
inductive Visit
  /-- It goes on, with these bytes overwritten. -/
  | goOn (bits : Overwritten)
  /-- It ends well. -/
  | stop
  /-- The write may be read. -/
  | observed

/-- A later write. -/
def visitWrite (w : Write) (dest : PointerValue) (len : Nat) (bits : Overwritten) : Visit :=
  match w.overwrite dest len bits with
  | (_, true) => .stop
  | (bits, false) => .goOn bits

/-- A read, which is harmless if it is `hidden`. -/
def visitRead (w : Write) (hidden : Bool) (ptr : PointerValue) (len : Option Nat)
    (bits : Overwritten) : Visit :=
  if !hidden && w.mayAlias ptr len then .observed else .goOn bits

/-- A load in `c` is replaced by its known value: the value is known, the context is emitted, and
the load is not checked. -/
def isReplaced (q : Setting) (c : ContextId) (inst : InstId) (result : ReadValue) :
    Except Fault Bool := do
  if result.isFullyKnown then
    return (← q.program.context c).materialized && !q.checked.contains inst
  else return false

/-- Visit an instruction other than a call. -/
def visitInstr (q : Setting) (w : Write) (c : ContextId) (inst : Instr) (bits : Overwritten) :
    Except Fault Visit := do
  match inst.op with
  | .free ptr =>
    if w.kind = .heap ∧ (ptr.unique?.any fun p => p.object = w.target.object) then return .stop
    else return .goOn bits
  | .memcpy dest src len _ =>
    match visitRead w (q.verdicts.get? inst.id = some .dead) src len bits, len with
    | .goOn bits, some len => return visitWrite w dest len bits
    | visit, _ => return visit
  | .memset dest (some len) => return visitWrite w dest len bits
  | .readFile dest (some len) => return visitWrite w dest len bits
  | .store ptr size => return visitWrite w ptr size bits
  | .load ptr size _ result =>
    return visitRead w (← isReplaced q c inst.id result) ptr (some size) bits
  | .atomic ptr size _ _ => return visitRead w false ptr (some size) bits
  | .realloc _ source len _ => return visitRead w false source len bits
  | _ => return .goOn bits

/-! ## One block -/

/-- What becomes of a path within a block. -/
inductive Leg
  /-- The end of the block is reached. -/
  | finished (bits : Overwritten)
  /-- A call is entered, which returns to the instruction at `index`. -/
  | entering (callee : ContextId) (index : Nat) (bits : Overwritten)
  | stop
  | observed

/-- Follow the instructions of a block; the first one stands at `index`. -/
def follow (q : Setting) (w : Write) (c : ContextId) :
    Nat → List Instr → Overwritten → Except Fault Leg
  | _, [], bits => return .finished bits
  | index, inst :: rest, bits => do
    match inst.op with
    | .call site =>
      if site.refs.mayReference w.target.object then
        match site.callee with
        | none => return .observed
        | some callee => return .entering callee (index + 1) bits
      else follow q w c (index + 1) rest bits
    | _ =>
      match ← visitInstr q w c inst bits with
      | .goOn bits => follow q w c (index + 1) rest bits
      | .stop => return .stop
      | .observed => return .observed

/-! ## From block to block -/

/-- A path that is still to be followed: where it stands, the calls it has to return to, innermost
first, and the bytes overwritten so far. -/
structure Cursor where
  place : Place
  stack : List Place
  bits : Overwritten

/-- The iteration after iteration number `index` of a loop of `parent`. -/
def iterationAfter? (l : Layout) (parent : ContextId) (loop : LoopId) (index : Nat) :
    Option ContextId :=
  (l.peel? parent loop).bind fun peel => peel.iterations[index + 1]?

/-- The context and block that an edge leads to, or nothing for a back edge after the last
iteration of a peel. -/
def successor (q : Setting) (c : ContextId) (source target : BlockId) :
    Except Fault (Option (ContextId × BlockId)) := do
  let context ← q.program.context c
  let elsewhere : Except Fault (Option (ContextId × BlockId)) :=
    match q.layout.owner? (q.layout.functionRoot c) target with
    | some owner => return some (owner, target)
    | none => throw (.danglingEdge c source target)
  match context.kind, context.parent with
  | .iteration loop index header latch, some parent =>
    if source = latch ∧ target = header then
      match iterationAfter? q.layout parent loop index with
      | some next => return some (next, (← q.program.context next).entry)
      | none => return none
    else elsewhere
  | _, _ => elsewhere

/-- The cursors after the edges to `targets`, or nothing when one of them leaves a peel. -/
def branchTo (q : Setting) (start : Cursor) (bits : Overwritten) :
    List BlockId → Except Fault (Option (List Cursor))
  | [] => return some []
  | target :: targets => do
    match ← successor q start.place.context start.place.block target with
    | none => return none
    | some (c, b) =>
      let rest ← branchTo q start bits targets
      return rest.map (⟨⟨c, b, 0⟩, start.stack, bits⟩ :: ·)

/-- The cursors after a return from the function `root`: in the caller that was entered last, or
else in every caller. From a function without callers the write gets out. -/
def returnFrom (q : Setting) (root : ContextId) (stack : List Place) (bits : Overwritten) :
    Except Fault (Option (List Cursor)) := do
  match stack with
  | place :: stack => return some [⟨place, stack, bits⟩]
  | [] =>
    match (← q.program.context root).callers with
    | [] => return none
    | callers =>
      let places ← callers.mapM q.layout.place
      return some (places.map fun place =>
        ⟨{ place with index := place.index + 1 }, [], bits⟩)

/-- The cursors after the end of a block, or nothing when the write may be read from there on. A
stack slot dies with its function. -/
def leave (q : Setting) (w : Write) (start : Cursor) (block : Block) (bits : Overwritten) :
    Except Fault (Option (List Cursor)) := do
  let root := q.layout.functionRoot start.place.context
  let exits := block.terminator ≠ .branch || block.liveSuccs.isEmpty
  if exits && w.kind = .stack root then return some []
  match block.terminator with
  | .unreachable => return some []
  | .ret => returnFrom q root start.stack bits
  | .branch => branchTo q start bits block.liveSuccs

/-! ## The whole search -/

/-- What is still to be followed, latest first, and with which bytes overwritten each block was
entered so far, by the calls to return to. -/
structure State where
  work : List Cursor
  explored : Table (ContextId × BlockId × List Place) (List Overwritten) := ∅

/-- The result of a step. -/
inductive Progress
  | more (s : State)
  | done (dead : Bool)

/-- Enter a block from its start, unless an earlier visit stands for this one. -/
def State.enter? (s : State) (start : Cursor) : Option State :=
  let key := (start.place.context, start.place.block, start.stack)
  let seen := (s.explored.get? key).getD []
  if seen.any fun bits => isCoveredBy bits start.bits then none
  else some { s with explored := s.explored.insert key (seen ++ [start.bits]) }

/-- Follow one cursor through its block. -/
def State.advance (q : Setting) (w : Write) (s : State) (start : Cursor) :
    Except Fault Progress := do
  let block ← q.program.block start.place.context start.place.block
  match ← follow q w start.place.context start.place.index (block.insts.drop start.place.index)
      start.bits with
  | .stop => return .more s
  | .observed => return .done false
  | .entering callee index bits =>
    let entry := (← q.program.context callee).entry
    let stack := { start.place with index := index } :: start.stack
    return .more { s with work := ⟨⟨callee, entry, 0⟩, stack, bits⟩ :: s.work }
  | .finished bits =>
    match ← leave q w start block bits with
    | none => return .done false
    | some cursors => return .more { s with work := cursors.reverse ++ s.work }

/-- One step of the search. -/
def State.step (q : Setting) (w : Write) (s : State) : Except Fault Progress :=
  match s.work with
  | [] => .ok (.done true)
  | start :: work =>
    let s := { s with work := work }
    if start.place.index = 0 then
      match s.enter? start with
      | none => .ok (.more s)
      | some s => s.advance q w start
    else s.advance q w start

/-- Steps of the search until it ends. There is no answer if it never does, which can happen only
when functions lead into each other, by calls or by iterations that a loop of another function
lists, or return to each other, in a circle. -/
def State.run (q : Setting) (w : Write) (s : State) : Option (Except Fault Bool) :=
  match s.step q w with
  | .error fault => some (.error fault)
  | .ok (.done dead) => some (.ok dead)
  | .ok (.more s) => s |>.run q w
partial_fixpoint

/-- No path from just after `place` reads the write done there. -/
def isDead (q : Setting) (w : Write) (place : Place) : Except Fault Bool :=
  let initial : State := { work := [⟨{ place with index := place.index + 1 }, [], w.fresh⟩] }
  (initial.run q w).getD (.error .endless)

end ByteTrust.DeadStore
