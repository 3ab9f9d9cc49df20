import ByteTrust.Proofs.DeadStore.Emitted
import ByteTrust.Proofs.DeadStore.Silenced

/-!
# Readers that a search overlooks

Two kinds of readers are not on the paths of a search. A function that checks a path condition runs
on entry to a block, as the walk has it; a search does not look at path conditions at all, and takes
such a function for a reader only where instructions call it (`checker_load_observed`). And a
search comes back from a function to the callers that the function lists. When a function lists some
of its calls and not others, what is loaded after the others is overlooked; when it lists all of
them, or none, nothing is (`load_after_any_call_observed`).
-/

namespace ByteTrust

open Relation (ReflTransGen)

namespace DeadStore

/-- `w` is the write of the instruction `i`, and a search for its readers begins at the cursor. -/
def Begins (q : Setting) (i : InstId) (w : Write) (k : Cursor) : Prop :=
  ∃ place inst, q.layout.place i = .ok place ∧ q.program.instruction place = .ok inst ∧
    Write.ofInstr? q.program inst = some w ∧
    k = ⟨{ place with index := place.index + 1 }, [], w.fresh⟩

/-- The cursor is before a load of bytes of the write, whose value is not known. -/
inductive LoadsUnknown (q : Setting) (w : Write) (k : Cursor) : Prop
  | intro {c : Context} {block : Block} {inst : Instr} {ptr : PointerValue} {size : Nat}
      {ordering : AccessOrdering} {result : ReadValue} (hk : Stands q k c block)
      (hinst : block.insts[k.place.index]? = some inst)
      (hop : inst.op = .load ptr size ordering result) (hunknown : result.isFullyKnown = false)
      (halias : w.mayAlias ptr (some size) = true)

variable {p : Program} {l : Layout} {settings : DeadStoreSettings}
  {checked checked' : IdentSet .inst} {verdicts v v' : IdentMap .inst Verdict} {i : InstId}
  {w : Write} {k k' : Cursor}

theorem LoadsUnknown.observes (h : LoadsUnknown ⟨p, l, v, checked⟩ w k) :
    Observes ⟨p, l, v', checked'⟩ w k := by
  obtain ⟨hk, hinst, hop, hunknown, halias⟩ := h
  refine .read ⟨hk.found, hk.holds⟩ hinst (.load hop halias ?_)
  rintro ⟨hknown, -⟩
  cases hunknown.symm.trans hknown

/-- A write is not called dead when its readers are met whatever the verdicts on copies are. -/
theorem ne_dead_of_observes (hsweep : sweep p l settings checked = .ok verdicts)
    (hbegins : Begins ⟨p, l, v, checked'⟩ i w k)
    (hobs : ∀ v, ∃ k', ReflTransGen (Moves ⟨p, l, v, checked⟩ w) k k' ∧
      Observes ⟨p, l, v, checked⟩ w k') : verdicts.get? i ≠ some .dead := by
  intro hdead
  obtain ⟨place, inst, hplace, hinst, hwrite, rfl⟩ := hbegins
  obtain ⟨v, place', inst', w', hplace', hinst', hwrite', hsearch⟩ :=
    sweep_foundDead hsweep i hdead
  cases hplace.symm.trans hplace'
  cases hinst.symm.trans hinst'
  cases hwrite.symm.trans hwrite'
  exact not_leaks_of_isDead hsearch (hobs v)

/-! ## Path conditions -/

theorem collectCopies_conditions (conds : List PathCondition) (fuel : Nat) (found : Found)
    (c : ContextId) : collectCopies { p with pathConditions := conds } fuel found c =
      collectCopies p fuel found c := by
  induction fuel generalizing found c with
  | zero => rfl
  | succ fuel ih =>
    simp only [collectCopies, ih]
    rfl

/-- The sweep does not depend on path conditions. -/
theorem sweep_conditions (p : Program) (l : Layout) (settings : DeadStoreSettings)
    (checked : IdentSet .inst) (conds : List PathCondition) :
    sweep { p with pathConditions := conds } l settings checked = sweep p l settings checked := by
  have hjudge : judge { p with pathConditions := conds } l checked = judge p l checked := by
    funext v i
    have hverdict : verdictOf ⟨{ p with pathConditions := conds }, l, v, checked⟩ i =
        verdictOf ⟨p, l, v, checked⟩ i := by
      refine verdictOf_congr ?_ ?_ (fun _ _ => rfl) i <;> rfl
    rw [judge_eq, judge_eq, hverdict]
  unfold sweep
  rw [hjudge]
  simp only [collectCopies_conditions]
  rfl

/-- A step of a path that does not return from the function where the path began. -/
def Inner (q : Setting) (w : Write) (k k' : Cursor) : Prop :=
  Passes q w k k' ∧ (k.stack = [] → ∀ c block, ¬ Leaves q w k c block .ret)

/-- The cursor in a function that was entered from elsewhere. -/
def Cursor.over (k : Cursor) (stack : List Place) : Cursor := { k with stack := k.stack ++ stack }

/-- Within a function, a path goes the same way wherever it was entered from. -/
theorem Inner.over {q : Setting} (h : Inner q w k k') (stack : List Place) :
    Passes q w (k.over stack) (k'.over stack) := by
  obtain ⟨hpass, hstays⟩ := h
  have hstands {c block} (hk : Stands q k c block) : Stands q (k.over stack) c block :=
    ⟨hk.found, hk.holds⟩
  have hleaves {c block t} (hk : Leaves q w k c block t) : Leaves q w (k.over stack) c block t :=
    ⟨hstands hk.stands, hk.finished, hk.terminator, hk.outlives⟩
  cases hpass with
  | read hk hinst hread hfree henter hwrite =>
    exact .read (hstands hk) hinst hread hfree henter hwrite
  | unread hmove =>
    refine .unread ?_
    cases hmove with
    | past hk hinst hread hfree henter hwrite =>
      exact .past (hstands hk) hinst hread hfree henter hwrite
    | enter hk hinst hcall hcallee => exact .enter (hstands hk) hinst hcall hcallee
    | resume hk hstack =>
      exact .resume (hleaves hk) (by rw [Cursor.over, hstack, List.cons_append])
    | toCaller hk hstack => exact absurd hk (hstays hstack _ _)
    | branch hk htarget hedge howner => exact .branch (hleaves hk) htarget hedge howner
    | again hk htarget hkind hparent hnext hd =>
      exact .again (hleaves hk) htarget hkind hparent hnext hd

/-- On entry to the block where the cursor is, the function `f` runs to check a path condition. -/
def RunsChecker (w : Walk.Setting) (k : Cursor) (f : ContextId) : Prop :=
  k.place.index = 0 ∧ ∃ conds, Walk.conditionsAt w k.place.context k.place.block = .ok conds ∧
    ∃ cond ∈ conds, cond.fact = .checker f

/-- Wherever a function runs to check a condition, the block begins with a call of it that may
reference the object of the write. -/
def CallsCheckers (w : Walk.Setting) (write : Write) : Prop :=
  ∀ k f block, RunsChecker w k f → w.program.block k.place.context k.place.block = .ok block →
    ∃ inst, block.insts[0]? = some inst ∧ Enters write inst f

end DeadStore

open DeadStore

/-- Verdicts do not depend on path conditions. Where functions that check conditions are called as
well, a write is not called dead when a path leads from it to a block on entry to which such a
function runs, and on, within that function, to a load of bytes of the write whose value is not
known. -/
theorem checker_load_observed {w : Walk.Setting} (hl : Layout.ofProgram w.program = .ok w.layout)
    {r r' : References} {report : Report}
    (h : analyze w.program w.settings r = .ok (report, r')) :
    (∀ conds, sweep { w.program with pathConditions := conds } w.layout w.settings.deadStores
      report.runtimeChecks = .ok report.deadStores) ∧
    let q : DeadStore.Setting := ⟨w.program, w.layout, report.deadStores, report.runtimeChecks⟩
    ∀ i write start k block f c k', CallsCheckers w write → Begins q i write start →
      ReflTransGen (Passes q write) start k →
      w.program.block k.place.context k.place.block = .ok block → RunsChecker w k f →
      w.program.context f = .ok c →
      ReflTransGen (Inner q write) ⟨⟨f, c.entry, 0⟩, [], k.bits⟩ k' → LoadsUnknown q write k' →
      report.deadStores.get? i ≠ some .dead := by
  have hsweep := sweep_of_analyze hl h
  refine ⟨fun conds => (sweep_conditions ..).trans hsweep, ?_⟩
  intro q i write start k block f c k' hcalls hbegins hpath hblock hruns hf hinner hload
  -- the call at the start of the block enters the function
  obtain ⟨inst, hinst, henters⟩ := hcalls k f block hruns hblock
  obtain ⟨d, hd, hb⟩ := Program.block_eq_ok.1 hblock
  have henter : Passes q write k ⟨⟨f, c.entry, 0⟩, (k.next k.bits).place :: k.stack, k.bits⟩ :=
    .unread (.enter ⟨hd, hb⟩ (hruns.1 ▸ hinst) henters (Program.context_eq_ok.1 hf))
  have hwithin := hinner.lift (Cursor.over · ((k.next k.bits).place :: k.stack))
    fun _ _ hstep => hstep.over _
  have hload' : LoadsUnknown q write (k'.over ((k.next k.bits).place :: k.stack)) := by
    obtain ⟨hk, hinst, hop, hunknown, halias⟩ := hload
    exact ⟨⟨hk.found, hk.holds⟩, hinst, hop, hunknown, halias⟩
  refine ne_dead_of_observes hsweep hbegins fun v => ?_
  exact exists_observes_of_passes
    (((hpath.tail henter).trans hwithin).lift id fun _ _ hstep => hstep.congr) hload'.observes

/-! ### A store, and a function that checks it -/

section Guarded

open Walk

/-- The main function stores and goes on to a second block, on entry to which the other function
runs and loads what was stored. The second block may also call that function. -/
def guarded (calls : Bool) : Program where
  objects := .ofList [(⟨0⟩, ⟨⟨0⟩, .heap, some 8, none⟩)]
  contexts := .ofList [(⟨0⟩,
    { id := ⟨0⟩
      kind := .function ⟨0⟩ "f" []
      blocks := .ofList [(⟨0⟩, { id := ⟨0⟩, insts := [storeAll 0], succs := [⟨⟨1⟩, true⟩] }),
        (⟨1⟩, { id := ⟨1⟩, insts := (if calls then [callOf 1 ⟨1⟩] else []) ++ [freeAll 2]
                preds := [⟨0⟩], terminator := .ret })]
      regions := [.block ⟨0⟩, .block ⟨1⟩]
      entry := ⟨0⟩ }), calledBlock 1 [⟨1⟩] true [loadAll 3 .unknown]]
  root := ⟨0⟩
  pathConditions := [{ function := ⟨0⟩, block := ⟨1⟩, fact := .checker ⟨1⟩ }]

/-- The walk through this program. -/
def guardedSetting (calls : Bool) : Walk.Setting where
  program := guarded calls
  layout := (Layout.ofProgram (guarded calls)).toOption.getD {}
  settings := {}

theorem mem_conditionsAt {w : Walk.Setting} {c : ContextId} {b : BlockId}
    {conds : List PathCondition} {cond : PathCondition} (h : conditionsAt w c b = .ok conds)
    (hcond : cond ∈ conds) : cond.block = b ∧ cond ∈ w.program.pathConditions := by
  refine ⟨?_, conditionsAt_subset h hcond⟩
  obtain ⟨d, -, h⟩ := bind_eq_ok.1 h
  split at h
  · cases h
    cases hcond
  · cases h
    have hholds := (List.mem_filter.1 hcond).2
    simp only [Bool.and_eq_true, decide_eq_true_eq] at hholds
    exact hholds.1.2

/-- After the store. -/
def afterStore : Cursor := ⟨⟨⟨0⟩, ⟨0⟩, 1⟩, [], storedWrite.fresh⟩

/-- At the start of the second block. -/
def atSecond : Cursor := ⟨⟨⟨0⟩, ⟨1⟩, 0⟩, [], storedWrite.fresh⟩

/-- At the start of the function that checks. -/
def atChecker : Cursor := ⟨⟨⟨1⟩, ⟨0⟩, 0⟩, [], storedWrite.fresh⟩

theorem guarded_begins (calls : Bool) (v : IdentMap .inst Verdict) (checked : IdentSet .inst) :
    Begins ⟨guarded calls, (guardedSetting calls).layout, v, checked⟩ ⟨0⟩ storedWrite
      afterStore := by
  have hplace : (guardedSetting calls).layout.place ⟨0⟩ = .ok ⟨⟨0⟩, ⟨0⟩, 0⟩ := by
    cases calls <;> rfl
  have hinst : (guarded calls).instruction ⟨⟨0⟩, ⟨0⟩, 0⟩ = .ok (storeAll 0) := rfl
  have hwrite : Write.ofInstr? (guarded calls) (storeAll 0) = some storedWrite := rfl
  exact ⟨_, _, hplace, hinst, hwrite, rfl⟩

theorem guarded_passes (calls : Bool) (v : IdentMap .inst Verdict) (checked : IdentSet .inst) :
    Passes ⟨guarded calls, (guardedSetting calls).layout, v, checked⟩ storedWrite afterStore
      atSecond := by
  have howner : (guardedSetting calls).layout.owner?
      ((guardedSetting calls).layout.functionRoot ⟨0⟩) ⟨1⟩ = some ⟨0⟩ := by
    cases calls <;> rfl
  refine .unread (.branch ⟨⟨rfl, rfl⟩, Nat.le_refl _, rfl, fun h => absurd rfl h⟩ (.head _) ?_
    howner)
  rintro loop index ⟨⟩

theorem guarded_runsChecker (calls : Bool) : RunsChecker (guardedSetting calls) atSecond ⟨1⟩ := by
  have hconds : conditionsAt (guardedSetting calls) ⟨0⟩ ⟨1⟩ =
      .ok (guarded calls).pathConditions := by
    cases calls <;> rfl
  exact ⟨rfl, _, hconds, _, .head _, rfl⟩

theorem guarded_loads (calls : Bool) (v : IdentMap .inst Verdict) (checked : IdentSet .inst) :
    LoadsUnknown ⟨guarded calls, (guardedSetting calls).layout, v, checked⟩ storedWrite
      atChecker := by
  have hop : (loadAll 3 .unknown).op = .load (.single ⟨0⟩ 0) 8 .plain .unknown := rfl
  exact .intro ⟨rfl, rfl⟩ (rfl : _ = some (loadAll 3 .unknown)) hop rfl (by decide)

/-- The function that checks is called as well: its load keeps the store alive. -/
theorem checker_load_observed_called :
    let w := guardedSetting true
    CallsCheckers w storedWrite ∧
      Yields (analyze w.program w.settings {}) fun r => r.1.deadStores.get? ⟨0⟩ ≠ some .dead := by
  intro w
  have hcalls : CallsCheckers w storedWrite := by
    rintro k f block ⟨-, conds, hconds, cond, hcond, hfact⟩ hblock
    obtain ⟨c, hc, hb⟩ := Program.block_eq_ok.1 hblock
    obtain ⟨hat, hmem⟩ := mem_conditionsAt hconds hcond
    obtain rfl := List.mem_singleton.1 hmem
    cases hfact
    have hall : ∀ e ∈ w.program.contexts.entries, ∀ block ∈ (e.2.blocks.get? ⟨1⟩).toList,
        block.insts[0]? = some (callOf 1 ⟨1⟩) := by
      decide +kernel
    rw [← hat] at hb
    have hfirst := hall _ (Table.mem_entries.2 hc) block (Option.mem_toList.2 hb)
    exact ⟨_, hfirst, _, rfl, rfl, rfl⟩
  have hl : Layout.ofProgram w.program = .ok w.layout := rfl
  have hyields : Yields (analyze w.program w.settings {}) fun _ => True :=
    analyze_of_sweepWithin (P := fun _ _ => True) 4 8 hl (by decide +kernel)
  obtain ⟨⟨report, r⟩, h, -⟩ := hyields
  refine ⟨hcalls, (report, r), h, ?_⟩
  have hpath := ReflTransGen.single
    (guarded_passes true report.deadStores report.runtimeChecks)
  have hblock : w.program.block ⟨0⟩ ⟨1⟩ = .ok _ := rfl
  have hcontext : w.program.context ⟨1⟩ =
      .ok (calledBlock 1 [⟨1⟩] true [loadAll 3 .unknown]).2 := rfl
  exact (checker_load_observed hl h).2 ⟨0⟩ storedWrite afterStore atSecond _ ⟨1⟩ _ atChecker hcalls
    (guarded_begins ..) hpath hblock (guarded_runsChecker _) hcontext .refl (guarded_loads ..)

/-- The function that checks is not called: the store that it loads is called dead. -/
theorem checker_load_overlooked :
    let w := guardedSetting false
    w.program.link = .ok w.program ∧ Yields (analyze w.program w.settings {}) fun r =>
      let q : DeadStore.Setting := ⟨w.program, w.layout, r.1.deadStores, r.1.runtimeChecks⟩
      Begins q ⟨0⟩ storedWrite afterStore ∧ Passes q storedWrite afterStore atSecond ∧
        RunsChecker w atSecond ⟨1⟩ ∧ LoadsUnknown q storedWrite atChecker ∧
        r.1.deadStores.get? ⟨0⟩ = some .dead := by
  intro w
  have hl : Layout.ofProgram w.program = .ok w.layout := rfl
  have hdead : Yields (analyze w.program w.settings {}) fun r =>
      r.1.deadStores.get? ⟨0⟩ = some .dead :=
    analyze_of_sweepWithin (P := fun _ v => v.get? ⟨0⟩ = some .dead) 4 8 hl
      (by decide +kernel)
  obtain ⟨r, hr, hdead⟩ := hdead
  have hlink : (guarded false).link = .ok (guarded false) :=
    Program.link_iff.2 ⟨by decide +kernel, (guardedSetting false).layout, rfl, rfl,
      by decide +kernel⟩
  exact ⟨hlink, r, hr, guarded_begins .., guarded_passes .., guarded_runsChecker _,
    guarded_loads .., hdead⟩

end Guarded

/-! ## Calls that a function does not list -/

/-- Every function lists all calls of it, or none. -/
def Program.ListsCalls (p : Program) : Prop :=
  ∀ f d, p.contexts.get? f = some d → d.callers ≠ [] → ∀ k inst, p.Holds k inst →
    inst.op.callee? = some f → inst.id ∈ d.callers

namespace DeadStore

/-- How a path goes on when a function may return to any call of it, listed or not. -/
inductive Roams (q : Setting) (w : Write) (k : Cursor) : Cursor → Prop
  | passes {k'} (h : Passes q w k k') : Roams q w k k'
  | toCall {c block d f inst place} (hk : Leaves q w k c block .ret) (hstack : k.stack = [])
      (hroot : q.program.contexts.get? (k.function q) = some d) (hinst : q.program.Holds f inst)
      (hcallee : inst.op.callee? = some (k.function q))
      (hplace : q.layout.places.get? inst.id = some place) :
      Roams q w k ⟨{ place with index := place.index + 1 }, [], k.bits⟩

variable {q : Setting} {w : Write} {k k' : Cursor}

theorem Roams.congr {p : Program} {l : Layout} {v v' : IdentMap .inst Verdict}
    {checked checked' : IdentSet .inst} (h : Roams ⟨p, l, v, checked⟩ w k k') :
    Roams ⟨p, l, v', checked'⟩ w k k' := by
  cases h with
  | passes h => exact .passes h.congr
  | toCall hk hstack hroot hinst hcallee hplace =>
    exact .toCall ⟨⟨hk.stands.found, hk.stands.holds⟩, hk.finished, hk.terminator, hk.outlives⟩
      hstack hroot hinst hcallee hplace

/-- Where functions list all their calls or none, the first reader on such a path is met by a path
of the search. -/
theorem exists_observes_of_roams (hlists : q.program.ListsCalls)
    (hpath : ReflTransGen (Roams q w) k k') (hobs : Observes q w k') :
    ∃ k₁, ReflTransGen (Moves q w) k k₁ ∧ Observes q w k₁ := by
  induction hpath using ReflTransGen.head_induction_on with
  | refl => exact ⟨k', .refl, hobs⟩
  | head hstep _ ih =>
    obtain ⟨k₁, hmoves, hk₁⟩ := ih
    cases hstep with
    | passes h =>
      cases h with
      | unread hmove => exact ⟨k₁, .head hmove hmoves, hk₁⟩
      | read hk hinst hread => exact ⟨_, .refl, .read hk hinst hread⟩
    | @toCall c block d f inst place hk hstack hroot hinst hcallee hplace =>
      -- a function that lists no call lets the write out of sight
      by_cases hnone : d.callers = []
      · exact ⟨_, .refl, .escape hk hstack hroot hnone⟩
      · exact ⟨k₁, .head (.toCaller hk hstack hroot (hlists _ d hroot hnone f inst hinst hcallee)
          hplace) hmoves, hk₁⟩

end DeadStore

/-- Where functions list all their calls or none, a write is not called dead when a path leads from
it to a load of its bytes whose value is not known, and the path may return from a function to any
call of it. -/
theorem load_after_any_call_observed {w : Walk.Setting} (hlists : w.program.ListsCalls)
    (hl : Layout.ofProgram w.program = .ok w.layout) {r r' : References} {report : Report}
    (h : analyze w.program w.settings r = .ok (report, r')) :
    let q : DeadStore.Setting := ⟨w.program, w.layout, report.deadStores, report.runtimeChecks⟩
    ∀ i write start k, Begins q i write start → ReflTransGen (Roams q write) start k →
      LoadsUnknown q write k → report.deadStores.get? i ≠ some .dead := by
  have hsweep := sweep_of_analyze hl h
  intro q i write start k hbegins hpath hload
  refine ne_dead_of_observes hsweep hbegins fun v => ?_
  exact exists_observes_of_roams hlists (hpath.lift id fun _ _ hstep => hstep.congr) hload.observes

/-! ### A function called twice -/

section Twice

open Walk

/-- The main function calls the other one, which stores, and stores over it. It calls again, and
loads what was stored. -/
def calledTwice (callers : List InstId) : Program :=
  { straight [] with
    contexts := .ofList [
      oneBlock 0 [callOf 1 ⟨1⟩, storeAll 2, callOf 3 ⟨1⟩, loadAll 4 .unknown, freeAll 5],
      calledBlock 1 callers true [storeAll 0]] }

/-- The walk through this program. -/
def calledTwiceSetting (callers : List InstId) : Walk.Setting where
  program := calledTwice callers
  layout := (Layout.ofProgram (calledTwice callers)).toOption.getD {}
  settings := {}

/-- After the store of the function. -/
def afterCallee : Cursor := ⟨⟨⟨1⟩, ⟨0⟩, 1⟩, [], storedWrite.fresh⟩

/-- Before the load. -/
def beforeLoad : Cursor := ⟨⟨⟨0⟩, ⟨0⟩, 3⟩, [], storedWrite.fresh⟩

theorem calledTwice_begins (callers : List InstId) (v : IdentMap .inst Verdict)
    (checked : IdentSet .inst) :
    Begins ⟨calledTwice callers, (calledTwiceSetting callers).layout, v, checked⟩ ⟨0⟩ storedWrite
      afterCallee := by
  have hplace : (calledTwiceSetting callers).layout.place ⟨0⟩ = .ok ⟨⟨1⟩, ⟨0⟩, 0⟩ := rfl
  have hinst : (calledTwice callers).instruction ⟨⟨1⟩, ⟨0⟩, 0⟩ = .ok (storeAll 0) := rfl
  have hwrite : Write.ofInstr? (calledTwice callers) (storeAll 0) = some storedWrite := rfl
  exact ⟨_, _, hplace, hinst, hwrite, rfl⟩

/-- From the function back to the second call. -/
theorem calledTwice_roams (callers : List InstId) (v : IdentMap .inst Verdict)
    (checked : IdentSet .inst) :
    Roams ⟨calledTwice callers, (calledTwiceSetting callers).layout, v, checked⟩ storedWrite
      afterCallee beforeLoad := by
  have hinst : (calledTwice callers).Holds ⟨0⟩ (callOf 3 ⟨1⟩) :=
    ⟨⟨0⟩, _, rfl, .tail _ (.tail _ (.head _))⟩
  have hplace : (calledTwiceSetting callers).layout.places.get? ⟨3⟩ = some ⟨⟨0⟩, ⟨0⟩, 2⟩ := rfl
  have hleaves : Leaves ⟨calledTwice callers, (calledTwiceSetting callers).layout, v, checked⟩
      storedWrite afterCallee (calledBlock 1 callers true [storeAll 0]).2
      { id := ⟨0⟩, insts := [storeAll 0], terminator := .ret } .ret :=
    ⟨⟨rfl, rfl⟩, Nat.le_refl _, rfl, fun _ h => by cases h⟩
  exact Roams.toCall hleaves rfl rfl hinst rfl hplace

theorem calledTwice_loads (callers : List InstId) (v : IdentMap .inst Verdict)
    (checked : IdentSet .inst) :
    LoadsUnknown ⟨calledTwice callers, (calledTwiceSetting callers).layout, v, checked⟩ storedWrite
      beforeLoad := by
  have hop : (loadAll 4 .unknown).op = .load (.single ⟨0⟩ 0) 8 .plain .unknown := rfl
  exact .intro ⟨rfl, rfl⟩ (rfl : _ = some (loadAll 4 .unknown)) hop rfl (by decide)

/-- The function lists both calls, and the load after the second one keeps its store alive. -/
theorem load_after_any_call_observed_twice :
    let w := calledTwiceSetting [⟨1⟩, ⟨3⟩]
    w.program.ListsCalls ∧
      Yields (analyze w.program w.settings {}) fun r => r.1.deadStores.get? ⟨0⟩ ≠ some .dead := by
  intro w
  have hlists : w.program.ListsCalls := by
    rintro f d hd - k inst ⟨b, block, hblock, hmem⟩ hcallee
    obtain ⟨c, hc, hb⟩ := Program.block_eq_ok.1 hblock
    have hall : ∀ e ∈ w.program.contexts.entries, ∀ block ∈ e.2.blocks.values,
        ∀ inst ∈ block.insts, ∀ f ∈ inst.op.callee?.toList,
          ∀ d ∈ (w.program.contexts.get? f).toList.map Context.callers, inst.id ∈ d := by
      decide +kernel
    exact hall _ (Table.mem_entries.2 hc) block (Table.mem_values_of_get? hb) inst hmem f
      (Option.mem_toList.2 hcallee) _ (List.mem_map_of_mem (Option.mem_toList.2 hd))
  have hl : Layout.ofProgram w.program = .ok w.layout := rfl
  have hyields : Yields (analyze w.program w.settings {}) fun _ => True :=
    analyze_of_sweepWithin (P := fun _ _ => True) 4 8 hl (by decide +kernel)
  obtain ⟨⟨report, r⟩, h, -⟩ := hyields
  refine ⟨hlists, (report, r), h, ?_⟩
  exact load_after_any_call_observed hlists hl h ⟨0⟩ storedWrite afterCallee beforeLoad
    (calledTwice_begins ..) (.single (calledTwice_roams ..)) (calledTwice_loads ..)

/-- The function lists the first call only: its store is called dead, and loaded after the second
call. -/
theorem load_after_unlisted_call :
    let w := calledTwiceSetting [⟨1⟩]
    w.program.link = .ok w.program ∧ Yields (analyze w.program w.settings {}) fun r =>
      let q : DeadStore.Setting := ⟨w.program, w.layout, r.1.deadStores, r.1.runtimeChecks⟩
      Begins q ⟨0⟩ storedWrite afterCallee ∧ Roams q storedWrite afterCallee beforeLoad ∧
        LoadsUnknown q storedWrite beforeLoad ∧ r.1.deadStores.get? ⟨0⟩ = some .dead := by
  intro w
  have hl : Layout.ofProgram w.program = .ok w.layout := rfl
  have hdead : Yields (analyze w.program w.settings {}) fun r =>
      r.1.deadStores.get? ⟨0⟩ = some .dead :=
    analyze_of_sweepWithin (P := fun _ v => v.get? ⟨0⟩ = some .dead) 4 8 hl
      (by decide +kernel)
  obtain ⟨r, hr, hdead⟩ := hdead
  have hlink : (calledTwice [⟨1⟩]).link = .ok (calledTwice [⟨1⟩]) :=
    Program.link_iff.2 ⟨by decide +kernel, (calledTwiceSetting [⟨1⟩]).layout, rfl, rfl,
      by decide +kernel⟩
  exact ⟨hlink, r, hr, calledTwice_begins .., calledTwice_roams .., calledTwice_loads .., hdead⟩

end Twice

end ByteTrust
