import ByteTrust.Interference.Walk

/-!
# Which values are checked at run time

After a walk, `needsCheck` says of an instruction whether its value needs a run-time check, and
`checkCounts` adds these up over the contexts below the root.
-/

namespace ByteTrust

/-- The checks needed because of other threads. -/
structure CheckCount where
  /-- In the context itself. -/
  here : Nat
  /-- With all contexts that it calls or iterates. -/
  total : Nat
deriving DecidableEq, Repr

namespace Walk

variable (w : Setting) (f : Findings)

/-- The value of an inlined call is checked when its callee is tentative and not emitted. -/
def callNeedsCheck (site : CallSite) : Except Fault Bool := do
  match site.callee with
  | none => return false
  | some callee =>
    if (← w.program.context callee).materialized then return false
    else if ← w.program.isTentative f callee then return !site.result.isWhollyUnknown
    else return false

/-- The peel attempt of `c` whose iterations, which are not emitted, hold the block `pred`. -/
def hiddenPeel? (c : ContextId) (pred : BlockId) : Except Fault (Option PeelAttempt) := do
  match w.layout.owner? (w.layout.functionRoot c) pred with
  | none => return none
  | some owner =>
    if owner = c then return none
    let context ← w.program.context owner
    match context.kind with
    | .function .. => return none
    | .iteration loop _ _ _ =>
      if context.parent ≠ some c then return none
      return (w.layout.peel? c loop).filter fun peel => peel.terminated && !peel.materialized

/-- A merged value is checked when it comes out of a tentative peel that is not emitted. -/
def phiNeedsCheck (c : ContextId) (value : ReadValue) : List BlockId → Except Fault Bool
  | [] => return false
  | pred :: preds => do
    match ← hiddenPeel? w c pred with
    | none => phiNeedsCheck c value preds
    | some peel =>
      if ← w.program.anyTentative f peel.iterations then return !value.isWhollyUnknown
      else phiNeedsCheck c value preds

/-- Whether the value of an instruction, which stands at a place with its operation, is checked
because of other threads. -/
def interferes (inst : InstId) (place : Place) (op : Operation) : Except Fault Bool := do
  match op with
  | .load .. | .atomic .. | .memcpy .. => return f.needs.get? inst = some .must
  | .call site => callNeedsCheck w f site
  | .phi value =>
    phiNeedsCheck w f place.context value (← w.program.block place.context place.block).preds
  | _ => return false

/-- Whether the value of an instruction needs a run-time check. With `special`, checks of file
reads and of comparisons that were asked for before count too. -/
def needsCheck (inst : InstId) (special : Bool) : Except Fault Bool := do
  if w.settings.omitChecks then return false
  let place ← w.layout.place inst
  let instr ← w.program.instruction place
  if !instr.reached || !instr.op.producesValue then return false
  match instr.runtimeCheck with
  | .asExpected => return true
  | .fileRead | .comparison => if special then return true else interferes w f inst place instr.op
  | .none => interferes w f inst place instr.op

/-- The number of instructions of a list that need a check not asked for before. -/
def countHere : List Instr → Except Fault Nat
  | [] => return 0
  | inst :: rest => do
    let needed ← if inst.runtimeCheck = .none then needsCheck w f inst.id false else pure false
    return (if needed then 1 else 0) + (← countHere rest)

/-- The counts found so far, and the contexts whose count is under way. -/
structure Tally where
  counts : IdentMap .context CheckCount := ∅
  active : IdentSet .context := ∅

/-- Count the checks of a context with all below it: their number, and all counts so far. A
context that is counted already is not counted again, and one under way counts as zero. -/
def tally : Nat → Tally → ContextId → Except Fault (Nat × Tally)
  | 0, _, _ => .error .endless
  | fuel + 1, t, c =>
    match t.counts.get? c with
    | some count => .ok (count.total, t)
    | none =>
      if t.active.contains c then .ok (0, t)
      else do
        let context ← w.program.context c
        let here ← countHere w f (context.instructions.map fun i => i.2.2)
        let children ← w.program.children c
        let (total, t) ← children.foldlM
          (fun (acc : Nat × Tally) child => do
            let (n, t) ← tally fuel acc.2 child
            return (acc.1 + n, t))
          (here, { t with active := t.active.insert c })
        return (total, { t with counts := t.counts.insert c ⟨here, total⟩ })

/-- The checks of every context below the root. -/
def checkCounts : Except Fault (IdentMap .context CheckCount) := do
  let (_, t) ← tally w f w.program.climbBound {} w.program.root
  return t.counts

/-- The instructions of a list that need a check, added to a set. -/
def addChecked (checked : IdentSet .inst) : List Instr → Except Fault (IdentSet .inst)
  | [] => return checked
  | inst :: rest => do
    if ← needsCheck w f inst.id true then addChecked (checked.insert inst.id) rest
    else addChecked checked rest

/-- All instructions whose value needs a run-time check, those asked for before included. -/
def runtimeChecks : Except Fault (IdentSet .inst) :=
  w.layout.order.foldlM (fun checked c => do
    addChecked w f checked ((← w.program.context c).instructions.map fun i => i.2.2)) ∅

end Walk

end ByteTrust
