import ByteTrust.Proofs.Interference.Promotions
import ByteTrust.Report

/-!
# A single thread

Where there is never a second thread no read needs a check, although the walk goes on taking trust
away as it does with several threads. What a walk finds is *calm* from its first step to its last:
every need is `never`, no context is tentative and no value is given up (`Findings.Calm.turn`). On
calm findings the search for tentative contexts fails everywhere, so calls and merged values are
not checked because of other threads either, and what is left of the checks are those that were
asked for before (`Findings.Calm.needsCheck_iff`).
-/

namespace ByteTrust

/-- Nothing was found that needs a check. -/
structure Findings.Calm (f : Findings) : Prop where
  needs : ∀ i n, f.needs.get? i = some n → n = .never
  tentative : f.tentative = ∅
  silenced : f.silenced = ∅

variable {f : Findings}

/-! ## No context is tentative -/

namespace Program

variable {p : Program}

/-- A search without a goal finds nothing. -/
theorem reaches_empty_ne_true {fuel : Nat} {seen : IdentSet .context} {stack : List ContextId} :
    p.reaches ∅ fuel seen stack ≠ .ok true := by
  induction fuel generalizing seen stack with
  | zero => cases stack <;> simp [reaches]
  | succ fuel ih =>
    cases stack with
    | nil => simp [reaches]
    | cons k stack =>
      have hgoal : ¬ (∅ : IdentSet .context).contains k = true := IdentSet.not_mem_empty k
      rw [reaches, if_neg hgoal]
      split
      · exact ih
      · intro h
        obtain ⟨children, -, h⟩ := bind_eq_ok.1 h
        exact ih h

end Program

namespace Findings.Calm

variable (h : f.Calm)

include h

theorem isTentative_ne_true (p : Program) (k : ContextId) : p.isTentative f k ≠ .ok true := by
  rw [Program.isTentative, h.tentative]
  exact Program.reaches_empty_ne_true

theorem anyTentative_ne_true (p : Program) (ks : List ContextId) :
    p.anyTentative f ks ≠ .ok true := by
  induction ks with
  | nil => simp [Program.anyTentative]
  | cons k ks ih =>
    rw [Program.anyTentative]
    intro hany
    obtain ⟨found, hfound, hany⟩ := bind_eq_ok.1 hany
    cases found with
    | true => exact h.isTentative_ne_true p k hfound
    | false => exact ih hany

/-- The search for a tentative context ends without one. -/
theorem isTentative_eq_false {p : Program} (hp : p.Grounded) {k : ContextId} {c : Context}
    (hc : p.contexts.get? k = some c) : p.isTentative f k = .ok false := by
  obtain ⟨found, hfound⟩ := hp.isTentative_eq_ok hc f
  cases found with
  | true => exact absurd hfound (h.isTentative_ne_true p k)
  | false => exact hfound

end Findings.Calm

/-! ## The walk stays calm -/

section Turns

variable {w : Walk.Setting} {s s' : Walk.State}

namespace Walk

theorem need_of_single (hsingle : w.settings.singleThreaded = true) (x : Snapshot)
    (op : Operation) : w.program.need w.settings x op = .never := by
  unfold Program.need
  exact if_pos hsingle

theorem calm_fresh (clock : Stamp) (r : References) :
    ({ clock := clock, references := r } : State).findings.Calm where
  needs _ _ h := by cases h
  tentative := rfl
  silenced := rfl

theorem needNow_of_single (hsingle : w.settings.singleThreaded = true) (inst : Instr) (x : Snapshot)
    {before : Option Need} (hbefore : ∀ n, before = some n → n = .never) :
    needNow w inst x before = .never := by
  unfold needNow
  split
  · rfl
  · next hfirst =>
    have hnone : before = none := by
      cases hb : before with
      | none => rfl
      | some n => exact absurd (.inr (hbefore n hb ▸ hb)) hfirst
    rw [hnone, need_of_single hsingle]
    rfl

end Walk

open Walk

theorem Findings.Calm.turn (hsingle : w.settings.singleThreaded = true) (h : s.findings.Calm)
    (hturn : Turn w s s') : s'.findings.Calm := by
  cases hturn with
  | quiet hbook =>
    have hneeds : s'.findings.needs = s.findings.needs := congrArg Book.needs hbook
    have htentative : s'.findings.tentative = s.findings.tentative := congrArg Book.tentative hbook
    have hsilenced : s'.findings.silenced = s.findings.silenced := congrArg Book.silenced hbook
    exact ⟨hneeds ▸ h.needs, htentative.trans h.tentative, hsilenced.trans h.silenced⟩
  | @read _ _ inst x _ _ _ hvisit =>
    obtain ⟨-, recorded, hneeds, hout⟩ := visitRead_book hvisit
    rw [needNow_of_single hsingle inst x (h.needs inst.id)] at hout
    cases hout with
    | unchecked _ htentative hsilenced =>
      refine ⟨fun i n hi => ?_, htentative.trans h.tentative, hsilenced.trans h.silenced⟩
      rw [hneeds, IdentMap.get?_insert] at hi
      split at hi
      · exact (Option.some.inj hi).symm
      · exact h.needs i n hi
    | checked hmust => cases hmust
    | silenced hmust => cases hmust
  | promote _ _ _ hpromote =>
    obtain ⟨hneeds, htentative, -, hsilenced⟩ := promote_book hpromote
    exact ⟨hneeds ▸ h.needs, htentative.trans h.tentative, hsilenced.trans h.silenced⟩
  | silence _ _ hlost =>
    -- the value of a call is given up only where its callee is tentative
    obtain ⟨callee, -, -, -, -, htentative⟩ := hlost
    exact absurd htentative (h.isTentative_ne_true _ callee)

end Turns

/-! ## What is checked -/

/-- All counts are zero. -/
def Walk.Tally.AllZero (t : Walk.Tally) : Prop :=
  ∀ k n, t.counts.get? k = some n → n = ⟨0, 0⟩

namespace Findings.Calm

open Walk

variable {w : Walk.Setting} {inst : Instr} {place : Place}

section Checks

variable (h : f.Calm)

include h

theorem phiNeedsCheck_ne_true (k : ContextId) (value : ReadValue) (preds : List BlockId) :
    phiNeedsCheck w f k value preds ≠ .ok true := by
  induction preds with
  | nil => simp [phiNeedsCheck]
  | cons pred preds ih =>
    rw [phiNeedsCheck]
    intro hcheck
    obtain ⟨peel, -, hcheck⟩ := bind_eq_ok.1 hcheck
    cases peel with
    | none => exact ih hcheck
    | some peel =>
      obtain ⟨found, hfound, hcheck⟩ := bind_eq_ok.1 hcheck
      cases found with
      | true => exact h.anyTentative_ne_true _ _ hfound
      | false => exact ih hcheck

theorem callNeedsCheck_ne_true (site : CallSite) : callNeedsCheck w f site ≠ .ok true := by
  unfold callNeedsCheck
  intro hcheck
  split at hcheck
  · cases hcheck
  · obtain ⟨c, -, hcheck⟩ := bind_eq_ok.1 hcheck
    split at hcheck
    · cases hcheck
    · obtain ⟨found, hfound, hcheck⟩ := bind_eq_ok.1 hcheck
      cases found with
      | true => exact h.isTentative_ne_true _ _ hfound
      | false => cases hcheck

/-- No value is checked because of other threads. -/
theorem interferes_ne_true (i : InstId) (place : Place) (op : Operation) :
    interferes w f i place op ≠ .ok true := by
  have hneed : f.needs.get? i ≠ some .must := fun hi => by cases h.needs i _ hi
  cases op with
  | load | atomic | memcpy => simp [interferes, hneed]
  | call site => exact h.callNeedsCheck_ne_true site
  | phi value =>
    intro hcheck
    obtain ⟨block, -, hcheck⟩ := bind_eq_ok.1 hcheck
    exact h.phiNeedsCheck_ne_true _ value _ hcheck
  | _ => simp [interferes]

/-- A value is checked when it is needed and a check was asked for before. -/
theorem needsCheck_iff (hplace : w.layout.place inst.id = .ok place)
    (hfound : w.program.instruction place = .ok inst) (special : Bool) :
    needsCheck w f inst.id special = .ok true ↔
      w.settings.omitChecks = false ∧ inst.reached = true ∧ inst.op.producesValue = true ∧
        (inst.runtimeCheck = .asExpected ∨ special = true ∧ inst.runtimeCheck ≠ .none) := by
  have hinterferes := h.interferes_ne_true (w := w) inst.id place inst.op
  simp only [needsCheck, hplace, hfound, ok_bind]
  cases w.settings.omitChecks <;> cases inst.reached <;> cases inst.op.producesValue <;>
    cases inst.runtimeCheck <;> cases special <;> simp [hinterferes]

end Checks

/-! ## How many are checked -/

section Counts

variable (h : f.Calm) (hlinked : w.program.Linked w.layout)

include h hlinked

theorem countHere_eq_zero {insts : List Instr} (hinsts : ∀ inst ∈ insts, inst ∈ w.program.instrs)
    {n : Nat} (hcount : countHere w f insts = .ok n) : n = 0 := by
  induction insts generalizing n with
  | nil =>
    cases hcount
    rfl
  | cons inst rest ih =>
    obtain ⟨hinst, hrest⟩ := List.forall_mem_cons.1 hinsts
    refine ih hrest ?_
    rw [countHere] at hcount
    split at hcount
    · next hnone =>
      obtain ⟨needed, hneeded, hcount⟩ := bind_eq_ok.1 hcount
      cases needed with
      | true =>
        obtain ⟨place, hplace, hfound⟩ := hlinked.instruction_found hinst
        obtain ⟨-, -, -, hasked⟩ := (h.needsCheck_iff hplace hfound false).1 hneeded
        simp [hnone] at hasked
      | false => simpa [bind_eq_ok] using hcount
    · simpa [bind_eq_ok] using hcount

theorem tally_eq_zero {fuel : Nat} {t t' : Tally} {k : ContextId} {n : Nat}
    (hzero : t.AllZero) (htally : tally w f fuel t k = .ok (n, t')) : n = 0 ∧ t'.AllZero := by
  induction fuel generalizing t t' k n with
  | zero => cases htally
  | succ fuel ih =>
    rw [tally] at htally
    split at htally
    · next count hcount =>
      cases htally
      exact ⟨by rw [hzero k count hcount], hzero⟩
    split at htally
    · cases htally
      exact ⟨rfl, hzero⟩
    obtain ⟨c, hc, htally⟩ := bind_eq_ok.1 htally
    obtain ⟨here, hhere, htally⟩ := bind_eq_ok.1 htally
    obtain ⟨children, -, htally⟩ := bind_eq_ok.1 htally
    obtain ⟨⟨total, t₁⟩, hchildren, htally⟩ := bind_eq_ok.1 htally
    obtain rfl : here = 0 := by
      refine h.countHere_eq_zero hlinked (fun inst hinst => ?_) hhere
      exact ((Program.mem_map_instructions hc).1 hinst).mem_instrs
    -- the children one after the other
    obtain ⟨rfl, hzero₁⟩ : total = 0 ∧ t₁.AllZero := by
      refine foldlM_induction hchildren (fun _ acc => acc.1 = 0 ∧ acc.2.AllZero) ⟨rfl, hzero⟩ ?_
      rintro - ⟨m, t⟩ child ⟨m', t'⟩ - hstep ⟨rfl, ht⟩
      obtain ⟨⟨n, t₂⟩, hchild, hstep⟩ := bind_eq_ok.1 hstep
      obtain ⟨rfl, ht₂⟩ := ih ht hchild
      cases hstep
      exact ⟨rfl, ht₂⟩
    cases htally
    refine ⟨rfl, fun k' n' hk' => ?_⟩
    rw [IdentMap.get?_insert] at hk'
    split at hk'
    · exact (Option.some.inj hk').symm
    · exact hzero₁ k' n' hk'

theorem checkCounts_eq_zero {counts : IdentMap .context CheckCount}
    (hcounts : checkCounts w f = .ok counts) :
    ∀ k n, counts.get? k = some n → n = ⟨0, 0⟩ := by
  obtain ⟨⟨total, t⟩, htally, hcounts⟩ := bind_eq_ok.1 hcounts
  cases hcounts
  have hempty : Tally.AllZero {} := fun k n hk => by cases hk
  exact (h.tally_eq_zero hlinked hempty htally).2

end Counts

end Findings.Calm

open Walk

/-- Where there is a single thread, whatever references survive: every need is `never`, no context
is tentative and no value is given up, nothing is counted as checked because of other threads, and
unless checks are omitted, what is checked are the values for which a check was asked before. -/
theorem single_thread_unchecked {p₀ p : Program} (hlink : p₀.link = .ok p) (hown : p.OwnNames)
    {settings : Settings} (hsingle : settings.singleThreaded = true) {r r' : References}
    {report : Report} (h : analyze p settings r = .ok (report, r')) :
    (∀ i n, report.needs.get? i = some n → n = .never) ∧
    report.tentative = ∅ ∧ report.silenced = ∅ ∧
    (∃ l out s, Layout.ofProgram p = .ok l ∧
      Walk.run ⟨p, l, settings⟩ (.trusting 0) { clock := 1, references := r } = .ok (out, s) ∧
      ∀ k c, p.contexts.get? k = some c → p.isTentative s.findings k = .ok false) ∧
    (∀ k n, report.checkCounts.get? k = some n → n = ⟨0, 0⟩) ∧
    ∀ i, i ∈ report.runtimeChecks ↔ settings.omitChecks = false ∧ ∃ inst ∈ p.instrs,
      inst.id = i ∧ inst.reached = true ∧ inst.op.producesValue = true ∧
        inst.runtimeCheck ≠ .none := by
  obtain ⟨l, hl, h⟩ := bind_eq_ok.1 h
  obtain ⟨⟨out, s⟩, hrun, h⟩ := bind_eq_ok.1 h
  obtain ⟨checked, hchecked, h⟩ := bind_eq_ok.1 h
  obtain ⟨counts, hcounts, h⟩ := bind_eq_ok.1 h
  obtain ⟨verdicts, -, h⟩ := bind_eq_ok.1 h
  cases h
  have hlinked := Program.linked_of_link hlink hl hown
  have hcalm : s.findings.Calm :=
    run_induction (P := fun s => s.findings.Calm) hrun (calm_fresh 1 r)
      fun s s' hturn hs => hs.turn hsingle hturn
  refine ⟨hcalm.needs, hcalm.tentative, hcalm.silenced, ⟨l, out, s, hl, hrun, fun k c hc =>
    hcalm.isTentative_eq_false hlinked.grounded hc⟩, hcalm.checkCounts_eq_zero hlinked hcounts,
    fun i => ?_⟩
  have hneeds {inst : Instr} (hinst : inst ∈ p.instrs) :
      needsCheck ⟨p, l, settings⟩ s.findings inst.id true = .ok true ↔
        settings.omitChecks = false ∧ inst.reached = true ∧ inst.op.producesValue = true ∧
          inst.runtimeCheck ≠ .none := by
    obtain ⟨place, hplace, hfound⟩ := hlinked.instruction_found hinst
    rw [hcalm.needsCheck_iff (w := ⟨p, l, settings⟩) hplace hfound]
    cases inst.runtimeCheck <;> simp
  rw [mem_runtimeChecks_iff hchecked]
  constructor
  · rintro ⟨⟨k, -, inst, hinst, rfl⟩, hneed⟩
    obtain ⟨homit, hasked⟩ := (hneeds hinst.mem_instrs).1 hneed
    exact ⟨homit, inst, hinst.mem_instrs, rfl, hasked⟩
  · rintro ⟨homit, inst, hinst, rfl, hasked⟩
    obtain ⟨k, hholds⟩ := Program.holds_of_mem_instrs hown hinst
    obtain ⟨b, block, hblock, -⟩ := id hholds
    obtain ⟨c, hc, -⟩ := bind_eq_ok.1 hblock
    exact ⟨⟨k, hown.mem_order hl hc, inst, hholds, rfl⟩, (hneeds hinst).2 ⟨homit, hasked⟩⟩

/-- A fence, a call of a function that is not emitted, and a load with a check that was asked for
before. The function loads a reference to the second object. -/
def fencedCall : Program :=
  { straight [] with
    contexts := .ofList
      [oneBlock 0 [fenceAt 0, callOf 1 ⟨1⟩, { loadReference 2 with runtimeCheck := .comparison }],
        (⟨1⟩, { (oneBlock 1 [loadReference 3]).2 with materialized := false })] }

/-- The second object has no surviving reference. With a single thread the load in the function
has no need, and its value is neither given up nor checked; the other load is checked. -/
theorem single_thread_unchecked_fenced :
    let p := (linkedSetting fencedCall).program
    Yields (analyze p { singleThreaded := true } (.without [⟨1⟩])) fun r =>
      r.1.needs.get? ⟨3⟩ = some .never ∧ r.1.tentative = ∅ ∧ r.1.silenced = ∅ ∧
        r.1.checkCounts.get? ⟨0⟩ = some ⟨0, 0⟩ ∧ ⟨2⟩ ∈ r.1.runtimeChecks ∧
        ⟨3⟩ ∉ r.1.runtimeChecks := by
  intro p
  obtain ⟨hlink, hlayout⟩ := linkedSetting_spec (p := fencedCall) (by decide +kernel)
  have hown : p.OwnNames := Program.ownNames_iff.2 (by decide +kernel)
  have hwalk : Yields (Layout.ofProgram p) fun l =>
      Yields (Walk.run ⟨p, l, { singleThreaded := true }⟩ (.trusting 0)
        { clock := 1, references := .without [⟨1⟩] }) fun out =>
      Yields (runtimeChecks ⟨p, l, { singleThreaded := true }⟩ out.2.findings) fun checked =>
      Yields (checkCounts ⟨p, l, { singleThreaded := true }⟩ out.2.findings) fun counts =>
      Yields (DeadStore.sweep p l {} checked) fun _ =>
        (out.2.findings.needs.get? ⟨3⟩).isSome = true ∧ (counts.get? ⟨0⟩).isSome = true := by
    refine ⟨_, hlayout, yields_run 3 ?_⟩
    decide +kernel
  obtain ⟨l, hl, out, hrun, checked, hchecked, counts, hcounts, verdicts, hsweep, hneed, hcount⟩ :=
    hwalk
  have h : analyze p { singleThreaded := true } (.without [⟨1⟩]) = .ok (_, out.2.references) :=
    bind_eq_ok.2 ⟨l, hl, bind_eq_ok.2 ⟨out, hrun, bind_eq_ok.2 ⟨checked, hchecked,
      bind_eq_ok.2 ⟨counts, hcounts, bind_eq_ok.2 ⟨verdicts, hsweep, rfl⟩⟩⟩⟩⟩
  obtain ⟨n, hn⟩ := Option.isSome_iff_exists.1 hneed
  obtain ⟨count, hcount⟩ := Option.isSome_iff_exists.1 hcount
  obtain ⟨hneeds, htentative, hsilenced, -, hcounts, hchecks⟩ :=
    single_thread_unchecked hlink hown rfl h
  refine ⟨_, h, hneeds _ n hn ▸ hn, htentative, hsilenced, hcounts _ count hcount ▸ hcount,
    (hchecks ⟨2⟩).2 ⟨rfl, ?_⟩, fun hmem => ?_⟩
  · decide +kernel
  · have hnone : ∀ inst ∈ p.instrs, inst.id = ⟨3⟩ → inst.runtimeCheck = .none := by
      decide +kernel
    obtain ⟨-, inst, hinst, hid, -, -, hasked⟩ := (hchecks ⟨3⟩).1 hmem
    exact hasked (hnone inst hinst hid)

end ByteTrust
