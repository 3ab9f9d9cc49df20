import ByteTrust.Interference.Findings
import ByteTrust.Interference.Transfer
import ByteTrust.Snapshot.Order

/-!
# The walk through a program

The walk carries snapshots along the edges that may be taken. A block is entered with the meet of
what its predecessors left for it; it applies the path conditions that hold there and its
instructions, and leaves the result for its successors. Regions are walked in order. A call walks
its callee in place and goes on with the meet of the returns. A terminated peel is walked
iteration by iteration. Any other loop with a back edge is walked twice:

* first with what entered from the preheader alone, while what leaves the loop is dropped, to see
  what reaches the latch;
* then with the meet of that and of what entered from the preheader, while the back edge is
  dropped and exits are kept.

The steps of the walk are functions on `Walk.State`. What they know of their surroundings is a
`Walk.Scope`: the context at hand, the loops being walked, and whether checks are suppressed
because some context around will not be emitted.

Calls, checker functions and iterations enter contexts within contexts, and a context may be
entered within itself: then a block for which nothing waits is passed over, so that such a walk can
still come to its end. No depth is known beforehand. `walkContext` is given the depth that it may
reach, and `run` tries ever greater ones until one is enough.
-/

namespace ByteTrust

namespace Walk

/-- What a walk works on. -/
structure Setting where
  program : Program
  layout : Layout
  settings : Settings

/-- Which of the two passes over a loop is under way. -/
inductive Pass
  | first
  | second
deriving DecidableEq

/-- A loop that is being walked. -/
structure ActiveLoop where
  context : ContextId
  /-- The blocks of the loop, and the headers of terminated peels in its body. -/
  members : IdentSet .block
  header : BlockId
  latch : BlockId
  pass : Pass

/-- The surroundings of a step. -/
structure Scope where
  context : ContextId
  loops : List ActiveLoop
  suppressed : Bool

/-- A visit of an instruction that reads memory. -/
structure Visit where
  context : ContextId
  inst : Instr
  /-- What was trusted when the instruction was reached. -/
  before : Snapshot
  after : Snapshot

/-- The state of a walk: what was found, and the snapshots that wait to be picked up. -/
structure State where
  /-- The time of the next write. -/
  clock : Stamp
  findings : Findings := {}
  references : References := {}
  /-- Snapshots left for a block. -/
  incoming : Table (ContextId × BlockId) (List Snapshot) := ∅
  /-- Snapshots left over the back edge of an iteration, for the next one. -/
  backEdges : Table ContextId (List Snapshot) := ∅
  /-- Snapshots left by the returns of a function context. -/
  returns : Table ContextId (List Snapshot) := ∅
  /-- Snapshots dropped at the back edge of a loop in its second pass, with its header. -/
  closing : Table (ContextId × BlockId) (List Snapshot) := ∅
  /-- From a callee to the call that walked it first. -/
  firstCalls : Table ContextId InstId := ∅
  /-- All visits of instructions that read memory, the latest first. -/
  visits : List Visit := []

/-- The number of snapshots that wait to be picked up. -/
def State.pending (s : State) : Nat :=
  s.incoming.values.flatten.length + s.backEdges.values.flatten.length +
    s.returns.values.flatten.length

/-- A step of a walk. -/
abbrev Step := StateT State (Except Fault)

/-! ## Leaving and picking up snapshots -/

/-- The present time; the next write is later. -/
def tick : Step Stamp := fun s => .ok (s.clock, { s with clock := s.clock + 1 })

/-- Change the findings. -/
def note (f : Findings → Findings) : Step Unit :=
  modify fun s => { s with findings := f s.findings }

/-- Add a snapshot to those waiting at a key. -/
def addTo {α : Type} [DecidableEq α] (t : Table α (List Snapshot)) (k : α) (x : Snapshot) :
    Table α (List Snapshot) :=
  t.insert k ((t.get? k).getD [] ++ [x])

/-- Leave a snapshot for a block. -/
def leaveFor (c : ContextId) (b : BlockId) (x : Snapshot) : Step Unit :=
  modify fun s => { s with incoming := addTo s.incoming (c, b) x }

/-- The meet of several snapshots. -/
def meet (xs : List Snapshot) : Step (Option Snapshot) := do
  let now ← tick
  Snapshot.meetAll now xs

/-- Pick up what waits for a block. -/
def pickUp (c : ContextId) (b : BlockId) : Step (Option Snapshot) := do
  let waiting := ((← get).incoming.get? (c, b)).getD []
  modify fun s => { s with incoming := s.incoming.erase (c, b) }
  meet waiting

/-- Pick up what came over the back edge of an iteration. -/
def pickUpBackEdge (c : ContextId) : Step (Option Snapshot) := do
  let waiting := ((← get).backEdges.get? c).getD []
  modify fun s => { s with backEdges := s.backEdges.erase c }
  meet waiting

/-- Pick up the returns of a function context. -/
def pickUpReturns (c : ContextId) : Step (Option Snapshot) := do
  let waiting := ((← get).returns.get? c).getD []
  modify fun s => { s with returns := s.returns.erase c }
  meet waiting

/-- Take what was dropped at the back edge of a loop in its second pass. -/
def takeClosing (c : ContextId) (header : BlockId) : Step (List Snapshot) := do
  let dropped := ((← get).closing.get? (c, header)).getD []
  modify fun s => { s with closing := s.closing.erase (c, header) }
  return dropped

/-! ## References to objects -/

/-- Give up the values of `inst` that name an object without a surviving reference. Says whether
there was one. -/
def silence (w : Setting) (inst : InstId) (values : List SpecValue) : Step Bool := do
  let missing := (← get).references.missing
  let objects := (values.filterMap SpecValue.object?).filter fun o =>
    w.program.needsReference o && missing.contains o
  if objects.isEmpty then return false
  modify fun s =>
    { s with references := objects.foldl (fun r o => r.silence inst o) s.references }
  note fun f => { f with silenced := f.silenced.insert inst }
  return true

/-- The object that a result names, when the result is one value. -/
def namedObject? : ReadValue → Option ObjectId
  | .known v => v.object?
  | _ => none

/-- A value that is safe to use becomes the surviving reference of the object it names, if that
object has none. -/
def promote (w : Setting) (inst : InstId) (result : ReadValue) : Step Unit := do
  match namedObject? result with
  | none => return
  | some object =>
    if w.program.needsReference object && (← get).references.missing.contains object then
      modify fun s => { s with references := s.references.promote object inst }
      note fun f =>
        if f.promotions.contains (object, inst) then f
        else { f with promotions := f.promotions ++ [(object, inst)] }

/-! ## Instructions -/

/-- The need of a read on this visit. An answer `never` is final, and otherwise the strongest
answer of all visits counts. -/
def needNow (w : Setting) (inst : Instr) (x : Snapshot) (before : Option Need) : Need :=
  if inst.threadLocal ∨ before = some .never then .never
  else (before.getD .never).max (w.program.need w.settings x inst.op)

/-- Visit an instruction that reads memory: decide its need, record it, and apply its effect. -/
def visitRead (w : Setting) (scope : Scope) (certain : Bool) (inst : Instr) (x : Snapshot) :
    Step Snapshot := do
  let need := needNow w inst x ((← get).findings.needs.get? inst.id)
  let recorded ←
    if need = .must then do
      note fun f => { f with tentative := f.tentative.insert scope.context }
      if ← silence w inst.id inst.op.readValues then pure Need.never else pure need
    else do
      match inst.op with
      | .load _ _ _ result =>
        if !scope.suppressed && certain then promote w inst.id result
      | _ => pure ()
      pure need
  note fun f => { f with needs := f.needs.insert inst.id recorded }
  let after := w.program.transfer w.settings (← tick) inst.op (some need) scope.suppressed x
  modify fun s => { s with visits := ⟨scope.context, inst, x, after⟩ :: s.visits }
  return after

/-- Visit an instruction other than an inlined call. -/
def visitInstr (w : Setting) (scope : Scope) (certain : Bool) (inst : Instr) (x : Snapshot) :
    Step Snapshot := do
  if inst.op.readsMemory then visitRead w scope certain inst x
  else if inst.threadLocal then return x
  else do
    match inst.op with
    | .call site => if !scope.suppressed && certain then promote w inst.id site.result
    | _ => pure ()
    return w.program.transfer w.settings (← tick) inst.op none scope.suppressed x

/-! ## Edges -/

/-- Where a snapshot goes that leaves a block. -/
inductive Destination
  | block (c : ContextId) (b : BlockId)
  /-- The iteration after this one. -/
  | nextIteration (c : ContextId)
  /-- The header of a loop in its second pass: the snapshot is dropped. -/
  | closing (c : ContextId) (header : BlockId)
deriving DecidableEq

/-- A loop that is being walked drops an edge into its context: in the first pass each edge out
of the loop, in the second pass the back edge. -/
def ActiveLoop.drops (a : ActiveLoop) (source target : BlockId) : Bool :=
  match a.pass with
  | .first => !a.members.contains target
  | .second => source = a.latch && target = a.header

/-- The edge is the back edge of an iteration. -/
def isBackEdge (c : Context) (source target : BlockId) : Bool :=
  match c.kind with
  | .iteration _ _ header latch => source = latch && target = header
  | .function .. => false

/-- Where an edge leads, or nothing when it leaves a loop in its first pass. -/
def route (w : Setting) (scope : Scope) (source target : BlockId) :
    Except Fault (Option Destination) := do
  if isBackEdge (← w.program.context scope.context) source target then
    return some (.nextIteration scope.context)
  match w.layout.edgeOwner? w.program scope.context target with
  | none => throw (.danglingEdge scope.context source target)
  | some owner =>
    let dropping := scope.loops.filter fun a => a.context = owner && a.drops source target
    if dropping.any fun a => a.pass = .second then return some (.closing owner target)
    else if dropping.isEmpty then return some (.block owner target)
    else return none

/-- Leave a snapshot at a destination. -/
def leaveAt (x : Snapshot) : Destination → Step Unit
  | .block c b => leaveFor c b x
  | .nextIteration c => modify fun s => { s with backEdges := addTo s.backEdges c x }
  | .closing c header => modify fun s => { s with closing := addTo s.closing (c, header) x }

/-- A return is dropped during the first pass over a loop of the same function. -/
def inFirstPassOf (w : Setting) (scope : Scope) (root : ContextId) : Bool :=
  scope.loops.any fun a => a.pass = .first && w.layout.functionRoot a.context = root

/-- Leave the snapshot at the end of a block for what comes next. -/
def finishBlock (w : Setting) (scope : Scope) (block : Block) (x : Snapshot) : Step Unit := do
  match block.terminator with
  | .ret =>
    let root := w.layout.functionRoot scope.context
    unless inFirstPassOf w scope root do
      let (_, x) ← x.popFrame (← tick)
      modify fun s => { s with returns := addTo s.returns root x }
  | .unreachable => return
  | .branch =>
    let destinations ← block.liveSuccs.filterMapM fun target =>
      (route w scope block.id target : Except Fault _)
    destinations.forM (leaveAt x)

/-! ## Functions, calls and blocks

`inner` walks the regions of a context in a scope; the walks below are given it, and are tied
together in `walkContext`. -/

/-- Walk a function context from an entry snapshot: the meet of its returns, if it returns. -/
def walkFunction (w : Setting) (inner : Scope → Step Unit) (c : ContextId)
    (loops : List ActiveLoop) (suppressed : Bool) (x : Snapshot) : Step (Option Snapshot) := do
  let context ← w.program.context c
  note fun f => { f with walked := f.walked.insert c }
  leaveFor c context.entry (x.pushFrame (← tick) c)
  inner ⟨c, loops, suppressed⟩
  pickUpReturns c

/-- The path conditions that hold on entry to a block. -/
def conditionsAt (w : Setting) (c : ContextId) (b : BlockId) :
    Except Fault (List PathCondition) := do
  match (← w.program.context (w.layout.functionRoot c)).function? with
  | none => return []
  | some function =>
    return w.program.pathConditions.filter fun cond =>
      cond.function = function && cond.block = b &&
        cond.stackDepth.all (· = w.layout.callDepth c)

/-- Apply a path condition. A checker function is walked as if it were called, with its checks
emitted; after one that never returns nothing is trusted. -/
def applyCondition (w : Setting) (inner : Scope → Step Unit) (scope : Scope)
    (x : Snapshot) (cond : PathCondition) : Step Snapshot := do
  match cond.fact with
  | .bytes ptr offset len =>
    return w.program.vouchUnless scope.suppressed (← tick) ptr offset len x
  | .checker c =>
    match ← walkFunction w inner c scope.loops false x with
    | some x => return x
    | none => return x.clobberAll (← tick)

/-- Walk an inlined call: what is trusted after it, if it returns. A callee is walked for the call
that came to it first; at any other call nothing is trusted afterwards. The same holds after a
callee that is not emitted and has reads that need a check. -/
def walkCall (w : Setting) (inner : Scope → Step Unit) (scope : Scope) (certain : Bool)
    (inst : InstId) (site : CallSite) (callee : ContextId) (x : Snapshot) :
    Step (Option Snapshot) := do
  if ((← get).firstCalls.get? callee).any (· ≠ inst) then
    note fun f => { f with sharedCalls := f.sharedCalls ++ [(callee, inst)] }
    return some (x.clobberAll (← tick))
  modify fun s => { s with firstCalls := s.firstCalls.insert callee inst }
  let emitted := (← w.program.context callee).materialized
  match ← walkFunction w inner callee scope.loops (scope.suppressed || !emitted) x with
  | none => return none
  | some x =>
    let findings := (← get).findings
    let lost ← if emitted then pure false else w.program.isTentative findings callee
    if lost then
      discard (silence w inst site.result.values)
      return some (x.clobberAll (← tick))
    if !scope.suppressed && certain then promote w inst site.result
    return some x

/-- Walk the instructions of a block: what is trusted after them, unless a callee never
returns. -/
def walkInstrs (w : Setting) (inner : Scope → Step Unit) (scope : Scope) (certain : Bool) :
    List Instr → Snapshot → Step (Option Snapshot)
  | [], x => return some x
  | inst :: rest, x => do
    let after ←
      match inst.op with
      | .call site =>
        match site.callee with
        | some callee => walkCall w inner scope certain inst.id site callee x
        | none => some <$> visitInstr w scope certain inst x
      | _ => some <$> visitInstr w scope certain inst x
    match after with
    | some x => walkInstrs w inner scope certain rest x
    | none => return none

/-- Walk a block, if anything waits for it. -/
def walkBlock (w : Setting) (inner : Scope → Step Unit) (scope : Scope) (b : BlockId) :
    Step Unit := do
  let block ← w.program.block scope.context b
  match ← pickUp scope.context b with
  | none => return
  | some x =>
    let x ← (← conditionsAt w scope.context b).foldlM (applyCondition w inner scope) x
    match ← walkInstrs w inner scope block.certain block.insts x with
    | none => return
    | some x => finishBlock w scope block x

/-! ## Loops -/

/-- Walk the iterations of a terminated peel, each with what the one before left over its back
edge. -/
def walkIterations (w : Setting) (inner : Scope → Step Unit) (scope : Scope) :
    List ContextId → Option Snapshot → Step Unit
  | [], _ => return
  | _ :: _, none => return
  | c :: cs, some x => do
    let context ← w.program.context c
    note fun f => { f with walked := f.walked.insert c }
    leaveFor c context.entry x
    inner { scope with
      context := c
      suppressed := scope.suppressed || !context.materialized }
    walkIterations w inner scope cs (← pickUpBackEdge c)

/-- The headers of the terminated peels among some loops. -/
def peelHeaders (loops : List Loop) : List BlockId :=
  (loops.filter fun l => l.terminatedPeel?.isSome).map Loop.header

/-- The surroundings of a pass over a loop. -/
def Scope.over (scope : Scope) (info : Loop) (body : List Region) (pass : Pass) : Scope :=
  { scope with loops :=
      { context := scope.context
        members := info.blocks.union (.ofList (peelHeaders (Region.loopsAll body)))
        header := info.header
        latch := info.latch
        pass := pass } :: scope.loops }

mutual

/-- Walk a region. -/
def walkRegion (w : Setting) (inner : Scope → Step Unit) (scope : Scope) : Region → Step Unit
  | .block b => walkBlock w inner scope b
  | .loop info body => do
    let entering ← pickUp scope.context info.header
    match info.terminatedPeel?, entering with
    | some peel, entering => walkIterations w inner scope peel.iterations entering
    | none, none => return
    | none, some x =>
      let latch ← w.program.block scope.context info.latch
      if !latch.hasLiveEdgeTo info.header then
        leaveFor scope.context info.header x
        walkRegions w inner scope body
      else
        leaveFor scope.context info.header x
        walkRegions w inner (scope.over info body .first) body
        match ← meet (x :: (← pickUp scope.context info.header).toList) with
        | none => return
        | some second =>
          leaveFor scope.context info.header second
          walkRegions w inner (scope.over info body .second) body
          let closing ← takeClosing scope.context info.header
          note fun f => { f with
            loopEntries := f.loopEntries ++ [⟨scope.context, info.id, x, second, closing⟩] }

/-- Walk a list of regions in order. -/
def walkRegions (w : Setting) (inner : Scope → Step Unit) (scope : Scope) :
    List Region → Step Unit
  | [] => return
  | r :: rs => do
    walkRegion w inner scope r
    walkRegions w inner scope rs

end

/-! ## The whole walk -/

/-- Walk the regions of a context, entering contexts no deeper than `depth`. -/
def walkContext (w : Setting) : Nat → Scope → Step Unit
  | 0, _ => throw .endless
  | depth + 1, scope => do
    walkRegions w (walkContext w depth) scope (← w.program.context scope.context).regions

/-- Walk a program from its root, entering contexts no deeper than `depth`: what is trusted when
the root returns, if it does. -/
def runTo (w : Setting) (depth : Nat) (x : Snapshot) : Step (Option Snapshot) := do
  let root ← w.program.context w.program.root
  walkFunction w (walkContext w depth) root.id [] (!root.materialized) x

/-- Walk a program to the first depth that is enough, from `depth` on. There is no answer if none
is: contexts enter each other without end. -/
def Setting.deepen (w : Setting) (x : Snapshot) (s : State) (depth : Nat) :
    Option (Except Fault (Option Snapshot × State)) :=
  match runTo w depth x s with
  | .error .endless => w |>.deepen x s (depth + 1)
  | answer => some answer
partial_fixpoint

/-- Walk a program from its root, as deep as need be: what is trusted when the root returns, if it
does. -/
def run (w : Setting) (x : Snapshot) : Step (Option Snapshot) := fun s =>
  (w.deepen x s (w.program.contexts.size + 1)).getD (.error .endless)

end Walk

end ByteTrust
