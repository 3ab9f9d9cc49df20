import ByteTrust.Proofs.DeadStore.Verdicts
import ByteTrust.Proofs.Interference.Shared

/-!
# Contexts that are not emitted, and the sweep

A walk suppresses its checks in every context that is not emitted and in all that it enters from
there: the flag is handed down through calls and iterations. The sweep has two ways with it. Copies
are looked for along emitted contexts only, from the root down; any other write is tried when the
context that holds it is emitted, whatever stands around that context. The two agree with the walk
where nothing emitted is entered from what is not (`Program.Inherits`), and not otherwise
(`verdicts_of_emitted`).
-/

namespace ByteTrust

open Relation (ReflTransGen)

/-! ## What is walked, and how -/

/-- The context may be walked, with its checks suppressed or not. -/
inductive Program.Entered (p : Program) : ContextId → Bool → Prop
  | root {c : Context} (hc : p.context p.root = .ok c) : p.Entered c.id (!c.materialized)
  | checker {cond : PathCondition} {k : ContextId} (hcond : cond ∈ p.pathConditions)
      (hfact : cond.fact = .checker k) : p.Entered k false
  | call {k callee : ContextId} {suppressed : Bool} {inst : Instr} {c : Context}
      (h : p.Entered k suppressed) (hinst : p.Holds k inst)
      (hcallee : inst.op.callee? = some callee) (hc : p.context callee = .ok c) :
      p.Entered callee (suppressed || !c.materialized)
  | iteration {k next : ContextId} {suppressed : Bool} {d c : Context} {info : Loop}
      {peel : PeelAttempt} (h : p.Entered k suppressed) (hd : p.context k = .ok d)
      (hinfo : info ∈ d.loops) (hpeel : info.terminatedPeel? = some peel)
      (hnext : next ∈ peel.iterations) (hc : p.context next = .ok c) :
      p.Entered next (suppressed || !c.materialized)

/-- What a context that is not emitted enters is not emitted either. -/
structure Program.Inherits (p : Program) : Prop where
  call : ∀ k d callee c inst, p.context k = .ok d → d.materialized = false → p.Holds k inst →
    inst.op.callee? = some callee → p.context callee = .ok c → c.materialized = false
  iteration : ∀ k d next c info peel, p.context k = .ok d → d.materialized = false →
    info ∈ d.loops → info.terminatedPeel? = some peel → next ∈ peel.iterations →
    p.context next = .ok c → c.materialized = false

theorem Program.Holds.context {p : Program} {k : ContextId} {inst : Instr} (h : p.Holds k inst) :
    ∃ c, p.context k = .ok c := by
  obtain ⟨b, block, hblock, -⟩ := h
  obtain ⟨c, hc, -⟩ := bind_eq_ok.1 hblock
  exact ⟨c, hc⟩

/-- Then checks are suppressed only in contexts that are not emitted themselves. -/
theorem Program.Inherits.hidden {p : Program} (h : p.Inherits) (hown : p.OwnNames) {k : ContextId}
    {suppressed : Bool} (hk : p.Entered k suppressed) (hsuppressed : suppressed = true)
    {c : Context} (hc : p.context k = .ok c) : c.materialized = false := by
  induction hk generalizing c with
  | root hroot =>
    rw [hown _ _ (Program.context_eq_ok.1 hroot)] at hc
    cases hroot.symm.trans hc
    simpa using hsuppressed
  | checker => cases hsuppressed
  | call _ hinst hcallee hc' ih =>
    cases hc'.symm.trans hc
    rcases Bool.or_eq_true_iff.1 hsuppressed with habove | hself
    · obtain ⟨d, hd⟩ := hinst.context
      exact h.call _ d _ _ _ hd (ih habove hd) hinst hcallee hc
    · simpa using hself
  | iteration _ hd hinfo hpeel hnext hc' ih =>
    cases hc'.symm.trans hc
    rcases Bool.or_eq_true_iff.1 hsuppressed with habove | hself
    · exact h.iteration _ _ _ _ _ _ hd (ih habove hd) hinfo hpeel hnext hc
    · simpa using hself

namespace Walk

variable {w : Setting} {x : Snapshot} {s : State} {g g' : Stage} {k : ContextId} {suppressed : Bool}

/-- A run walks the regions of a context, with its checks suppressed or not. -/
def WalksContext (w : Setting) (x : Snapshot) (s : State) (k : ContextId)
    (suppressed : Bool) : Prop :=
  ∃ depth loops rs s', Comes w x s ⟨depth, .regions ⟨k, loops, suppressed⟩ rs, s'⟩

/-- The loops are among those of the context. -/
def LoopsOf (p : Program) (k : ContextId) (loops : List Loop) : Prop :=
  ∀ info ∈ loops, ∃ c, p.context k = .ok c ∧ info ∈ c.loops

/-- A task is done in contexts that may be walked so. -/
def Task.Entered (p : Program) : Task → Prop
  | .regions scope rs =>
    p.Entered scope.context scope.suppressed ∧ LoopsOf p scope.context (Region.loopsAll rs)
  | .region scope r => p.Entered scope.context scope.suppressed ∧ LoopsOf p scope.context r.loops
  | .iterations scope ks _ => p.Entered scope.context scope.suppressed ∧ ∃ c info peel,
    p.context scope.context = .ok c ∧ info ∈ c.loops ∧ info.terminatedPeel? = some peel ∧
      ks ⊆ peel.iterations
  | .function k _ suppressed _ => p.Entered k suppressed
  | .conditions .. | .instrs .. => True

theorem mem_loopsAll_of_mem {info : Loop} {rs rest : List Region} {r : Region}
    (h : info ∈ r.loops) : info ∈ Region.loopsAll (rs ++ r :: rest) := by
  induction rs with
  | nil => exact List.mem_append_left _ h
  | cons r' rs ih => exact List.mem_append_right _ ih

/-- From a stage to the next, contexts are entered from those at hand. -/
theorem Part.entered (h : Part w g g') (hg : g.task.Entered w.program) :
    g'.task.Entered w.program := by
  cases h with
  | region hrs => exact ⟨hg.1, fun info hinfo => hg.2 info (mem_loopsAll_of_mem hinfo)⟩
  | checker hconds _ hfact =>
    refine .checker (conditionsAt_subset hconds ?_) hfact
    exact List.mem_append_right _ List.mem_cons_self
  | call harrive hcallee _ hc =>
    obtain ⟨-, ⟨hblock, -, -⟩, hinsts, -⟩ := harrive
    refine .call hg.1 ⟨_, _, hblock, ?_⟩ hcallee hc
    exact hinsts ▸ List.mem_append_right _ List.mem_cons_self
  | peel hpeel hpick =>
    obtain ⟨c, hc, hinfo⟩ := hg.2 _ List.mem_cons_self
    exact ⟨hg.1, c, _, _, hc, hinfo, hpeel, List.Subset.refl _⟩
  | once _ | firstPass _ | secondPass _ _ _ _ =>
    exact ⟨hg.1, fun info hinfo => hg.2 info (List.mem_cons_of_mem _ hinfo)⟩
  | iteration hc =>
    obtain ⟨hscope, d, info, peel, hd, hinfo, hpeel, hks⟩ := hg
    exact ⟨.iteration hscope hd hinfo hpeel (hks List.mem_cons_self) hc,
      fun info hinfo => ⟨_, hc, hinfo⟩⟩
  | nextIteration hc hbody hpick =>
    obtain ⟨hscope, d, info, peel, hd, hinfo, hpeel, hks⟩ := hg
    exact ⟨hscope, d, info, peel, hd, hinfo, hpeel, fun k hk => hks (List.mem_cons_of_mem _ hk)⟩
  | body hc => exact ⟨hg, fun info hinfo => ⟨_, hc, hinfo⟩⟩

/-- Whatever a run walks may be walked so. -/
theorem WalksContext.entered (h : WalksContext w x s k suppressed) :
    w.program.Entered k suppressed := by
  obtain ⟨depth, loops, rs, s', n, c, hc, hparts⟩ := h
  suffices ∀ g, ReflTransGen (Part w) (.root n c x s) g → g.task.Entered w.program from
    (this _ hparts).1
  intro g hg
  induction hg with
  | refl => exact .root hc
  | tail _ hpart ih => exact hpart.entered ih

end Walk

/-! ## What is tried -/

namespace DeadStore

variable {p : Program} {l : Layout} {settings : DeadStoreSettings} {checked : IdentSet .inst}
  {verdicts : IdentMap .inst Verdict} {i : InstId} {k : ContextId} {c : Context}
  {inst : Instr}

/-- What has a verdict was tried as a copy or as another write. -/
theorem tried_of_sweep (h : sweep p l settings checked = .ok verdicts)
    (hi : verdicts.get? i ≠ none) :
    (∃ first, triedCopies p settings = .ok first ∧ i ∈ first) ∨
      ∃ ids, tried p l settings = .ok ids ∧ i ∈ ids := by
  obtain ⟨first, copies, ids, hfirst, hcopies, hids, hfold⟩ := sweep_eq_ok.1 h
  by_cases hcopy : copies.get? i = none
  · exact .inr ⟨ids, hids, mem_of_foldlM_judge hfold (hcopy ▸ hi)⟩
  · exact .inl ⟨first, hfirst, mem_of_foldlM_judge hcopies hcopy⟩

/-- A write other than a copy has a verdict when its own context is emitted, and no verdict
otherwise. -/
theorem sweep_tried (hapart : p.NamesApart) (h : sweep p l settings checked = .ok verdicts)
    (hk : k ∈ l.order) (hc : p.context k = .ok c) (hinst : p.Holds k inst)
    (htried : isTried settings inst.op = true) :
    verdicts.get? inst.id ≠ none ↔ c.materialized = true ∧ inst.reached = true := by
  obtain ⟨first, copies, ids, hfirst, hcopies, hids, hfold⟩ := sweep_eq_ok.1 h
  have hnot : ∀ i ∈ ids, ¬ p.Copies i := fun i => not_copies_of_mem_tried hapart hids
  have hcopy : ¬ p.Copies inst.id := not_copies_of_isTried hapart hinst htried
  have hmem : inst.id ∈ ids ↔ c.materialized = true ∧ inst.reached = true := by
    rw [mem_tried hids]
    constructor
    · rintro ⟨k', -, c', inst', hc', hemitted, hinst', hid, hreached, -⟩
      obtain ⟨rfl, rfl⟩ := hapart _ _ _ _ hinst' hinst hid
      cases hc.symm.trans hc'
      exact ⟨hemitted, hreached⟩
    · exact fun ⟨hemitted, hreached⟩ => ⟨k, hk, c, inst, hc, hemitted, hinst, rfl, hreached, htried⟩
  rw [← hmem]
  constructor
  · intro hne
    refine mem_of_foldlM_judge hfold ?_
    rwa [get?_copies hfirst hcopies hcopy]
  · intro hi
    obtain ⟨x, -, hx⟩ := ((foldlM_judge_eq_ok hnot).1 hfold inst.id).1 hi
    simp [hx]

/-- A copy has a verdict only where emitted contexts lead to it from the root. -/
theorem sweep_copy (hapart : p.NamesApart) (h : sweep p l settings checked = .ok verdicts)
    (hinst : p.Holds k inst) (hcopy : p.Copies inst.id) (hverdict : verdicts.get? inst.id ≠ none) :
    ReflTransGen (Emits p) p.root k ∧ ∃ c, p.context k = .ok c ∧ c.materialized = true := by
  rcases tried_of_sweep h hverdict with ⟨first, hfirst, hi⟩ | ⟨ids, hids, hi⟩
  · obtain ⟨k', hpath, hemits⟩ := mem_triedCopies hfirst hi
    obtain ⟨inst', hinst', hid, -⟩ := hemits.holds
    obtain ⟨rfl, -⟩ := hapart _ _ _ _ hinst' hinst hid
    obtain ⟨c, hc, hemitted, -⟩ := hemits
    exact ⟨hpath, c, hc, hemitted⟩
  · exact absurd hcopy (not_copies_of_mem_tried hapart hids hi)

/-- Nothing in a context that is not emitted has a verdict. -/
theorem sweep_hidden (hapart : p.NamesApart) (h : sweep p l settings checked = .ok verdicts)
    (hc : p.context k = .ok c) (hhidden : c.materialized = false) (hinst : p.Holds k inst) :
    verdicts.get? inst.id = none := by
  by_contra hne
  have hemitted : ∃ c, p.context k = .ok c ∧ c.materialized = true := by
    rcases tried_of_sweep h hne with ⟨first, hfirst, hi⟩ | ⟨ids, hids, hi⟩
    · obtain ⟨k', -, hemits⟩ := mem_triedCopies hfirst hi
      exact (sweep_copy hapart h hinst hemits.copies hne).2
    · obtain ⟨k', -, c', inst', hc', hemitted, hinst', hid, -⟩ := (mem_tried hids).1 hi
      obtain ⟨rfl, -⟩ := hapart _ _ _ _ hinst' hinst hid
      exact ⟨c', hc', hemitted⟩
  obtain ⟨c', hc', hemitted⟩ := hemitted
  cases hc.symm.trans hc'
  cases hhidden.symm.trans hemitted

end DeadStore

open DeadStore

/-- A write other than a copy has a verdict exactly when it is reached and its own context is
emitted, a copy only where emitted contexts lead to it from the root. So nothing has a verdict in
a context that is not emitted, and, where nothing emitted is entered from such a context, nothing
in any context that is walked with its checks suppressed. -/
theorem verdicts_of_emitted {w : Walk.Setting} {p₀ : Program} (hlink : p₀.link = .ok w.program)
    (hown : w.program.OwnNames) (hl : Layout.ofProgram w.program = .ok w.layout)
    {r r' : References} {report : Report} (h : analyze w.program w.settings r = .ok (report, r'))
    {k : ContextId} {c : Context} {inst : Instr} (hc : w.program.context k = .ok c)
    (hinst : w.program.Holds k inst) :
    (isTried w.settings.deadStores inst.op = true →
      (report.deadStores.get? inst.id ≠ none ↔ c.materialized = true ∧ inst.reached = true)) ∧
    (w.program.Copies inst.id → report.deadStores.get? inst.id ≠ none →
      ReflTransGen (Emits w.program) w.program.root k ∧ c.materialized = true) ∧
    (c.materialized = false → report.deadStores.get? inst.id = none) ∧
    (w.program.Inherits →
      Walk.WalksContext w (.trusting 0) { clock := 1, references := r } k true →
        report.deadStores.get? inst.id = none) := by
  have hapart := Program.namesApart_of_link hlink
  have horder : k ∈ w.layout.order := hown.mem_order hl hc
  have hsweep := sweep_of_analyze hl h
  have hhidden (hflag : c.materialized = false) : report.deadStores.get? inst.id = none :=
    sweep_hidden hapart hsweep hc hflag hinst
  refine ⟨fun htried => sweep_tried hapart hsweep horder hc hinst htried, fun hcopy hne => ?_,
    hhidden, fun hinherits hwalk => hhidden (hinherits.hidden hown hwalk.entered rfl hc)⟩
  obtain ⟨hpath, c', hc', hemitted⟩ := sweep_copy hapart hsweep hinst hcopy hne
  cases hc.symm.trans hc'
  exact ⟨hpath, hemitted⟩

/-! ## A function that is emitted, called from one that is not -/

section Chained

open Walk

/-- A function of one block, with its callers. -/
def calledBlock (n : Nat) (callers : List InstId) (emitted : Bool) (insts : List Instr) :
    ContextId × Context :=
  (⟨n⟩, { (oneBlock n insts).2 with kind := .function ⟨n⟩ "f" callers, materialized := emitted })

/-- A store of the eight bytes of the first object. -/
def storeAll (id : Nat) : Instr := ⟨⟨id⟩, .store (.single ⟨0⟩ 0) 8, false, .none, true⟩

/-- The end of the first object. -/
def freeAll (id : Nat) : Instr := ⟨⟨id⟩, .free (.single ⟨0⟩ 0), false, .none, true⟩

/-- The main function calls a function that is not emitted, stores, and ends the object. The
function stores too, and calls another one to store. -/
def chained (emitted : Bool) : Program :=
  { straight [] with
    contexts := .ofList [oneBlock 0 [callOf 0 ⟨1⟩, storeAll 1, freeAll 2],
      calledBlock 1 [⟨0⟩] false [storeAll 3, callOf 4 ⟨2⟩],
      calledBlock 2 [⟨4⟩] emitted [storeAll 5]] }

/-- The walk through this program. -/
def chainedSetting (emitted : Bool) : Walk.Setting where
  program := chained emitted
  layout := (Layout.ofProgram (chained emitted)).toOption.getD {}
  settings := {}

theorem chained_callee {emitted : Bool} {k callee : ContextId} {inst : Instr}
    (hinst : (chained emitted).Holds k inst) (hcallee : inst.op.callee? = some callee) :
    k = ⟨0⟩ ∧ callee = ⟨1⟩ ∨ k = ⟨1⟩ ∧ callee = ⟨2⟩ := by
  obtain ⟨b, block, hblock, hmem⟩ := hinst
  obtain ⟨c, hc, hb⟩ := Program.block_eq_ok.1 hblock
  have hall : ∀ e ∈ (chained emitted).contexts.entries, ∀ block ∈ e.2.blocks.values,
      ∀ inst ∈ block.insts, ∀ callee ∈ inst.op.callee?.toList,
        e.1 = ⟨0⟩ ∧ callee = ⟨1⟩ ∨ e.1 = ⟨1⟩ ∧ callee = ⟨2⟩ := by
    cases emitted <;> decide +kernel
  exact hall _ (Table.mem_entries.2 hc) block (Table.mem_values_of_get? hb) inst hmem callee
    (Option.mem_toList.2 hcallee)

theorem chained_loops {emitted : Bool} {k : ContextId} {c : Context}
    (hc : (chained emitted).context k = .ok c) : c.loops = [] := by
  have hall : ∀ e ∈ (chained emitted).contexts.entries, e.2.loops = [] := by
    cases emitted <;> decide +kernel
  exact hall _ (Table.mem_entries.2 (Program.context_eq_ok.1 hc))

/-- All but the main function is walked with its checks suppressed. -/
theorem chained_entered {emitted suppressed : Bool} {k : ContextId}
    (h : (chained emitted).Entered k suppressed) : k = ⟨0⟩ ∨ suppressed = true := by
  induction h with
  | root hc =>
    cases hc
    exact .inl rfl
  | checker hcond => cases hcond
  | call _ hinst hcallee hc ih =>
    right
    obtain ⟨rfl, rfl⟩ | ⟨rfl, rfl⟩ := chained_callee hinst hcallee
    · cases hc
      exact Bool.or_true _
    · rw [ih.resolve_left (by decide), Bool.true_or]
  | iteration _ hd hinfo =>
    rw [chained_loops hd] at hinfo
    cases hinfo

theorem chained_inherits : (chained false).Inherits where
  call k d callee c inst hd hhidden hinst hcallee hc := by
    obtain ⟨rfl, rfl⟩ | ⟨rfl, rfl⟩ := chained_callee hinst hcallee
    · cases hd
      cases hhidden
    · cases hc
      rfl
  iteration k d next c info peel hd _ hinfo := by
    rw [chained_loops hd] at hinfo
    cases hinfo

/-- The walk comes to the function that is not emitted. -/
theorem chained_walks (emitted : Bool) :
    WalksContext (chainedSetting emitted) (.trusting 0) { clock := 1 } ⟨1⟩ true := by
  have hpick : Yields (pickUp ⟨0⟩ ⟨0⟩ atMain) fun r =>
      r.1.isSome = true ∧ r.2.firstCalls.get? ⟨1⟩ = none := by
    decide +kernel
  obtain ⟨⟨entering, s₁⟩, hpick, hsome, hfirst⟩ := hpick
  obtain ⟨x, rfl⟩ := Option.isSome_iff_exists.1 hsome
  have hconds : conditionsAt (chainedSetting emitted) ⟨0⟩ ⟨0⟩ = .ok [] := by
    cases emitted <;> rfl
  have harrive : Arrives (chainedSetting emitted) 3 ⟨⟨0⟩, [], false⟩ ⟨0⟩ atMain (callOf 0 ⟨1⟩) x
      s₁ :=
    ⟨hconds, ⟨rfl, hpick, rfl⟩, (List.nil_append _).symm, rfl⟩
  have hown : ∀ i, s₁.firstCalls.get? ⟨1⟩ = some i → i = (callOf 0 ⟨1⟩).id := by
    intro i hi
    cases hfirst.symm.trans hi
  have hnone (s : Walk.State) : walkRegions (chainedSetting emitted)
      (walkContext (chainedSetting emitted) 3) ⟨⟨0⟩, [], false⟩ [] s = .ok ((), s) := rfl
  exact ⟨_, _, _, _, 4, _, rfl, .head (.body rfl) (.head (.region (hnone _))
    (.head (.call harrive rfl hown rfl) (.single (.body rfl))))⟩

theorem chained_link (emitted : Bool) : (chained emitted).link = .ok (chained emitted) := by
  refine Program.link_iff.2 ⟨?_, (chainedSetting emitted).layout, ?_, ?_, ?_⟩
  · cases emitted <;> decide +kernel
  · cases emitted <;> rfl
  · cases emitted <;> rfl
  · cases emitted <;> decide +kernel

/-- The stores of functions that are not emitted have no verdict, and the one of the main function
has. -/
theorem verdicts_of_emitted_chained :
    let w := chainedSetting false
    w.program.Inherits ∧ WalksContext w (.trusting 0) { clock := 1 } ⟨1⟩ true ∧
      Yields (analyze w.program w.settings {}) fun r => r.1.deadStores.get? ⟨3⟩ = none ∧
        r.1.deadStores.get? ⟨5⟩ = none ∧ r.1.deadStores.get? ⟨1⟩ ≠ none := by
  intro w
  have hlink : (chained false).link = .ok w.program := chained_link false
  have hl : Layout.ofProgram w.program = .ok w.layout := rfl
  have hown : w.program.OwnNames := Program.ownNames_iff.2 (by decide +kernel)
  have hyields : Yields (analyze w.program w.settings {}) fun _ => True :=
    analyze_of_sweepWithin (P := fun _ _ => True) 4 8 hl (by decide +kernel)
  obtain ⟨⟨report, r⟩, h, -⟩ := hyields
  have hmain : w.program.Holds ⟨0⟩ (storeAll 1) := ⟨⟨0⟩, _, rfl, .tail _ (.head _)⟩
  have hf : w.program.Holds ⟨1⟩ (storeAll 3) := ⟨⟨0⟩, _, rfl, .head _⟩
  have hg : w.program.Holds ⟨2⟩ (storeAll 5) := ⟨⟨0⟩, _, rfl, .head _⟩
  have hwalk : WalksContext w (.trusting 0) { clock := 1 } ⟨1⟩ true := chained_walks false
  refine ⟨chained_inherits, hwalk, (report, r), h, ?_, ?_, ?_⟩
  · exact (verdicts_of_emitted hlink hown hl h rfl hf).2.2.2 chained_inherits hwalk
  · exact (verdicts_of_emitted hlink hown hl h rfl hg).2.2.1 rfl
  · exact ((verdicts_of_emitted hlink hown hl h rfl hmain).1 rfl).2 ⟨rfl, rfl⟩

/-- The last function is emitted, and every walk of it has its checks suppressed; still its store is
called dead. -/
theorem suppressed_store_swept :
    let w := chainedSetting true
    w.program.link = .ok w.program ∧
      (Yields (run w (.trusting 0) { clock := 1 }) fun r => ⟨2⟩ ∈ r.2.findings.walked) ∧
      (∀ suppressed, WalksContext w (.trusting 0) { clock := 1 } ⟨2⟩ suppressed →
        suppressed = true) ∧
      w.program.Holds ⟨2⟩ (storeAll 5) ∧
      Yields (analyze w.program w.settings {}) fun r => r.1.deadStores.get? ⟨5⟩ = some .dead := by
  intro w
  have hl : Layout.ofProgram w.program = .ok w.layout := rfl
  have hwalked : Yields (run w (.trusting 0) { clock := 1 })
      fun r => ⟨2⟩ ∈ r.2.findings.walked :=
    yields_run 4 (by decide +kernel)
  have hinst : w.program.Holds ⟨2⟩ (storeAll 5) := ⟨⟨0⟩, _, rfl, .head _⟩
  refine ⟨chained_link true, hwalked, fun suppressed hwalk => ?_, hinst, ?_⟩
  · exact (chained_entered hwalk.entered).resolve_left (by decide)
  · exact analyze_of_sweepWithin (P := fun _ v => v.get? ⟨5⟩ = some .dead) 4 8 hl
      (by decide +kernel)

end Chained

end ByteTrust
