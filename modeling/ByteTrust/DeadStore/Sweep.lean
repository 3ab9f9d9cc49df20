import ByteTrust.DeadStore.Search
import ByteTrust.Settings

/-!
# The sweep for dead stores

Copies are tried first, from the last one to the first, so that a copy that is dead no longer
counts as a reader of the writes before it. Then stores, fills and file reads are tried, and then
allocations.
-/

namespace ByteTrust.DeadStore

/-! ## Copies, last to first -/

/-- What is met on the way back through a context. -/
inductive Event
  | copy (inst : InstId)
  | entered (c : ContextId)
  | fault (f : Fault)

/-- The copies and calls of a block, last to first. -/
def blockEvents (b : Block) : List Event :=
  b.insts.reverse.filterMap fun inst =>
    match inst.op with
    | .memcpy .. => if inst.reached then some (.copy inst.id) else none
    | op => op.callee?.map .entered

mutual

/-- The events of a region, last to first. -/
def events (c : Context) : Region → List Event
  | .block id =>
    match c.block id with
    | .ok b => blockEvents b
    | .error f => [.fault f]
  | .loop info body =>
    match info.terminatedPeel? with
    | some peel => peel.iterations.reverse.map .entered
    | none => eventsAll c body

/-- The events of a list of regions, last to first. -/
def eventsAll (c : Context) : List Region → List Event
  | [] => []
  | r :: rs => eventsAll c rs ++ events c r

end

/-- The contexts passed through so far, and the copies found, latest first. -/
structure Found where
  seen : IdentSet .context := ∅
  copies : List InstId := []

/-- Collect the copies of a context that is emitted and of all that it enters, going no deeper
than `fuel` contexts. -/
def collectCopies (p : Program) : Nat → Found → ContextId → Except Fault Found
  | 0, _, _ => .error .endless
  | fuel + 1, found, c =>
    if found.seen.contains c then .ok found
    else do
      let found := { found with seen := found.seen.insert c }
      let context ← p.context c
      if context.materialized then
        (eventsAll context context.regions).foldlM (fun found event =>
          match event with
          | .copy inst => .ok { found with copies := inst :: found.copies }
          | .entered child => collectCopies p fuel found child
          | .fault f => .error f) found
      else return found

/-! ## Other writes -/

/-- The reached instructions that satisfy `wanted`, in contexts that are emitted, parents
first. -/
def collect (p : Program) (l : Layout) (wanted : Operation → Bool) :
    Except Fault (List InstId) := do
  let found ← l.order.mapM fun c => do
    let context ← p.context c
    if context.materialized then
      return (context.instructions.filter fun i =>
        i.2.2.reached && wanted i.2.2.op).map fun i => i.2.2.id
    else return []
  return found.flatten

/-- A store, a fill or a file read. -/
def isPlainWrite : Operation → Bool
  | .store .. | .memset .. | .readFile .. => true
  | _ => false

/-- An allocation. -/
def isAlloc : Operation → Bool
  | .alloc _ => true
  | _ => false

/-! ## Verdicts -/

/-- Decide about one write, given the verdicts so far. -/
def judge (p : Program) (l : Layout) (checked : IdentSet .inst)
    (verdicts : IdentMap .inst Verdict) (inst : InstId) :
    Except Fault (IdentMap .inst Verdict) := do
  let place ← l.place inst
  let instr ← p.instruction place
  let dead ←
    match Write.ofInstr? p instr with
    | some w => isDead ⟨p, l, verdicts, checked⟩ w place
    | none => pure false
  return verdicts.insert inst (if dead then .dead else .live)

/-- The verdicts on all writes that the settings ask for. `checked` lists the instructions that
are checked at run time. -/
def sweep (p : Program) (l : Layout) (settings : DeadStoreSettings) (checked : IdentSet .inst) :
    Except Fault (IdentMap .inst Verdict) := do
  if !settings.enabled then return ∅
  let copies ←
    if settings.copies then (·.copies.reverse) <$> collectCopies p p.climbBound {} p.root
    else pure []
  let verdicts ← copies.foldlM (judge p l checked) ∅
  let verdicts ← (← collect p l isPlainWrite).foldlM (judge p l checked) verdicts
  if settings.allocations then (← collect p l isAlloc).foldlM (judge p l checked) verdicts
  else return verdicts

end ByteTrust.DeadStore
