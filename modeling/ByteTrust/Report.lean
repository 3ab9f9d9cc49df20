import ByteTrust.DeadStore.Sweep
import ByteTrust.Interference.Checks

/-!
# The report of an analysis

`analyze` runs everything: the walk decides which reads need a check, the checks are collected and
counted, and the writes are swept, knowing which loads are read again by their checks. The summary
of a report is a few lines for a person to read.
-/

namespace ByteTrust

/-- What an analysis found. -/
structure Report where
  needs : IdentMap .inst Need
  /-- Values that are checked at run time, checks asked for before included. -/
  runtimeChecks : IdentSet .inst
  checkCounts : IdentMap .context CheckCount
  /-- Contexts with a read that needs a check. -/
  tentative : IdentSet .context
  /-- Instructions whose value was given up. -/
  silenced : IdentSet .inst
  promotions : List (ObjectId × InstId)
  deadStores : IdentMap .inst DeadStore.Verdict
  /-- Calls of a callee that was walked from another call before. -/
  sharedCalls : List InstId
deriving DecidableEq

namespace Report

/-- The write is never read. -/
def isDead (r : Report) (inst : InstId) : Bool := r.deadStores.get? inst = some .dead

/-- The number of writes that are never read. -/
def deadCount (r : Report) : Nat := (r.deadStores.values.filter (· = .dead)).length

/-- The checks needed because of other threads, in a context and all below it. -/
def totalChecks (r : Report) (c : ContextId) : Nat :=
  ((r.checkCounts.get? c).map CheckCount.total).getD 0

end Report

/-- Analyze a program, given the surviving references: the report, and the references
afterwards. -/
def analyze (p : Program) (settings : Settings) (references : References) :
    Except Fault (Report × References) := do
  let layout ← Layout.ofProgram p
  let setting : Walk.Setting := ⟨p, layout, settings⟩
  let (_, state) ← Walk.run setting (.trusting 0) { clock := 1, references := references }
  let f := state.findings
  let checked ← Walk.runtimeChecks setting f
  let counts ← Walk.checkCounts setting f
  let verdicts ← DeadStore.sweep p layout settings.deadStores checked
  return ({
    needs := f.needs
    runtimeChecks := checked
    checkCounts := counts
    tentative := f.tentative
    silenced := f.silenced
    promotions := f.promotions
    deadStores := verdicts
    sharedCalls := f.sharedCalls.map Prod.snd }, state.references)

/-! ## Summary -/

/-- The word for a verdict. -/
def DeadStore.Verdict.word : DeadStore.Verdict → String
  | .dead => "dead"
  | .live => "live"

/-- The lines of the summary of a report on a program with the given root. -/
def Report.summaryLines (r : Report) (root : ContextId) : List String :=
  let must := (r.needs.values.filter (· = .must)).length
  ["Interference",
    "  reads classified:   " ++ Nat.repr r.needs.size,
    "  must check:         " ++ Nat.repr must,
    "  runtime checks:     " ++ Nat.repr r.runtimeChecks.size,
    "  required at root:   " ++ Nat.repr (r.totalChecks root)] ++
  r.runtimeChecks.toList.map (fun i => "    check " ++ i.render) ++
  r.silenced.toList.map (fun i => "    neutralized " ++ i.render) ++
  ["Dead stores"] ++
  r.deadStores.entries.map (fun e => "    " ++ e.2.word ++ " " ++ e.1.render) ++
  ["  eliminated:         " ++ Nat.repr r.deadCount]

/-- The summary, each line with its line break. -/
def Report.summary (r : Report) (root : ContextId) : String :=
  String.join ((r.summaryLines root).map (· ++ "\n"))

end ByteTrust
