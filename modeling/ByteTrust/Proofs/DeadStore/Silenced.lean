import ByteTrust.Proofs.DeadStore.Answers
import ByteTrust.Proofs.Interference.Promotions
import ByteTrust.Report

/-!
# Loads whose value is given up

A load whose value is given up has to read memory again, so a write that it may read is not dead.
The search for dead stores goes by something else: a load counts as replaced when its speculated
value is fully known, its context is emitted and it is not checked. Giving up a value does not make
it unknown to the search, and the load is not checked on this account: a load that is silenced is
recorded with `never`. So

* a silenced load that does not count as replaced is seen by every search (`silenced_load_observed`),
* a silenced load with a known value in an emitted context is checked only if a check was asked for
  before, and without one the store that it reads can be called dead (`silenced_load_overlooked`).
-/

namespace ByteTrust

open Relation

namespace DeadStore

/-! ## Paths past readers -/

/-- How a path goes on, as long as the write is not overwritten altogether and its object is alive,
whatever reads it on the way. -/
inductive Passes (q : Setting) (w : Write) (k : Cursor) : Cursor → Prop
  | unread {k'} (h : Moves q w k k') : Passes q w k k'
  | read {c block inst bits} (hk : Stands q k c block)
      (hinst : block.insts[k.place.index]? = some inst) (hread : Reads q w c inst)
      (hfree : ¬ Frees w inst) (henter : ∀ f, ¬ Enters w inst f)
      (hwrite : overwrittenBy w inst.op k.bits = (bits, false)) : Passes q w k (k.next bits)

variable {q : Setting} {w : Write} {k k' : Cursor} {p : Program} {l : Layout}

/-- Past an instruction that is no call to enter. -/
theorem passes_past {c : Context} {block : Block} {inst : Instr} {bits : Overwritten}
    (hk : Stands q k c block) (hinst : block.insts[k.place.index]? = some inst)
    (hfree : ¬ Frees w inst) (henter : ∀ f, ¬ Enters w inst f)
    (hwrite : overwrittenBy w inst.op k.bits = (bits, false)) : Passes q w k (k.next bits) := by
  by_cases hread : Reads q w c inst
  · exact .read hk hinst hread hfree henter hwrite
  · exact .unread (.past hk hinst hread hfree henter hwrite)

/-- Where a path goes on does not depend on what counts as a reader. -/
theorem Passes.congr {verdicts verdicts' : IdentMap .inst Verdict} {checked checked' : IdentSet .inst}
    (h : Passes ⟨p, l, verdicts, checked⟩ w k k') : Passes ⟨p, l, verdicts', checked'⟩ w k k' := by
  have hstands {k c block} (hk : Stands ⟨p, l, verdicts, checked⟩ k c block) :
      Stands ⟨p, l, verdicts', checked'⟩ k c block := ⟨hk.found, hk.holds⟩
  have hleaves {k c block t} (hk : Leaves ⟨p, l, verdicts, checked⟩ w k c block t) :
      Leaves ⟨p, l, verdicts', checked'⟩ w k c block t :=
    ⟨hstands hk.stands, hk.finished, hk.terminator, hk.outlives⟩
  cases h with
  | read hk hinst _ hfree henter hwrite => exact passes_past (hstands hk) hinst hfree henter hwrite
  | unread hmove =>
    cases hmove with
    | past hk hinst _ hfree henter hwrite =>
      exact passes_past (hstands hk) hinst hfree henter hwrite
    | enter hk hinst hcall hcallee => exact .unread (.enter (hstands hk) hinst hcall hcallee)
    | resume hk hstack => exact .unread (.resume (hleaves hk) hstack)
    | toCaller hk hstack hroot hi hplace =>
      exact .unread (.toCaller (hleaves hk) hstack hroot hi hplace)
    | branch hk htarget hedge howner => exact .unread (.branch (hleaves hk) htarget hedge howner)
    | again hk htarget hkind hparent hnext hd =>
      exact .unread (.again (hleaves hk) htarget hkind hparent hnext hd)

/-- The first reader on a path past readers is met by a path of the search. -/
theorem exists_observes_of_passes (hpath : ReflTransGen (Passes q w) k k')
    (hobs : Observes q w k') : ∃ k₁, ReflTransGen (Moves q w) k k₁ ∧ Observes q w k₁ := by
  induction hpath using ReflTransGen.head_induction_on with
  | refl => exact ⟨k', .refl, hobs⟩
  | head hstep _ ih =>
    cases hstep with
    | unread hmove =>
      obtain ⟨k₁, hpath, hk₁⟩ := ih
      exact ⟨k₁, .head hmove hpath, hk₁⟩
    | read hk hinst hread => exact ⟨_, .refl, .read hk hinst hread⟩

/-! ## Verdicts of a sweep -/

/-- A search at some time of the sweep has called the write of `i` dead. -/
def FoundDead (p : Program) (l : Layout) (checked : IdentSet .inst) (i : InstId) : Prop :=
  ∃ verdicts place inst w, l.place i = .ok place ∧ p.instruction place = .ok inst ∧
    Write.ofInstr? p inst = some w ∧ isDead ⟨p, l, verdicts, checked⟩ w place = .ok true

theorem judge_foundDead {checked : IdentSet .inst} {verdicts verdicts' : IdentMap .inst Verdict}
    {i j : InstId} (h : judge p l checked verdicts i = .ok verdicts')
    (hj : verdicts'.get? j = some .dead) :
    verdicts.get? j = some .dead ∨ FoundDead p l checked j := by
  rw [judge, bind_eq_ok] at h
  obtain ⟨place, hplace, h⟩ := h
  obtain ⟨inst, hinst, h⟩ := bind_eq_ok.1 h
  -- the verdict on `i` is new, all others are as before
  have hcases {dead : Bool} (hv : verdicts' = verdicts.insert i (if dead then .dead else .live)) :
      verdicts.get? j = some .dead ∨ j = i ∧ dead = true := by
    rw [hv, IdentMap.get?_insert] at hj
    split at hj
    · next hji =>
      cases dead with
      | false => cases hj
      | true => exact .inr ⟨hji, rfl⟩
    · exact .inl hj
  dsimp only at h
  split at h
  · next w hw =>
    obtain ⟨dead, hdead, h⟩ := bind_eq_ok.1 h
    refine (hcases (Except.ok.inj h).symm).imp_right ?_
    rintro ⟨rfl, rfl⟩
    exact ⟨verdicts, place, inst, w, hplace, hinst, hw, hdead⟩
  · exact .inl ((hcases (Except.ok.inj h).symm).resolve_right fun hdead => by cases hdead.2)

theorem foldlM_judge_foundDead {checked : IdentSet .inst}
    {verdicts verdicts' : IdentMap .inst Verdict} {is : List InstId}
    (h : is.foldlM (judge p l checked) verdicts = .ok verdicts')
    (hbefore : ∀ j, verdicts.get? j = some .dead → FoundDead p l checked j) :
    ∀ j, verdicts'.get? j = some .dead → FoundDead p l checked j :=
  foldlM_induction h (fun _ v => ∀ j, v.get? j = some .dead → FoundDead p l checked j) hbefore
    fun _ _ _ _ _ hjudge ih j hj => (judge_foundDead hjudge hj).elim (ih j) id

/-- A write that the sweep calls dead was found so by a search. -/
theorem sweep_foundDead {settings : DeadStoreSettings} {checked : IdentSet .inst}
    {verdicts : IdentMap .inst Verdict} (h : sweep p l settings checked = .ok verdicts) :
    ∀ j, verdicts.get? j = some .dead → FoundDead p l checked j := by
  have hempty : ∀ j, (∅ : IdentMap .inst Verdict).get? j = some .dead → FoundDead p l checked j :=
    fun j hj => by cases hj
  unfold sweep at h
  split at h
  · cases h
    exact hempty
  dsimp only at h
  split at h
  all_goals
    obtain ⟨copies, -, h⟩ := bind_eq_ok.1 h
    obtain ⟨v₁, hcopies, h⟩ := bind_eq_ok.1 h
    obtain ⟨writes, -, h⟩ := bind_eq_ok.1 h
    obtain ⟨v₂, hwrites, h⟩ := bind_eq_ok.1 h
    have hv₂ := foldlM_judge_foundDead hwrites (foldlM_judge_foundDead hcopies hempty)
    split at h
    · obtain ⟨allocs, -, hallocs⟩ := bind_eq_ok.1 h
      exact foldlM_judge_foundDead hallocs hv₂
    · cases h
      exact hv₂

end DeadStore

/-! ## Checks of silenced loads -/

namespace Walk

variable {w : Setting} {f : Findings} {s : State} {checked : IdentSet .inst}

/-- What is checked needs a check. -/
theorem mem_runtimeChecks (h : runtimeChecks w f = .ok checked) {i : InstId} (hi : i ∈ checked) :
    needsCheck w f i true = .ok true :=
  ((mem_runtimeChecks_iff h).1 hi).2

/-- A silenced load is checked only if a check was asked for before. -/
theorem Accounted.asked_of_needsCheck (hapart : w.program.NamesApart) (h : Accounted w s)
    {place : Place} {load : Instr} (hplace : w.layout.place load.id = .ok place)
    (hload : w.program.instruction place = .ok load) {ptr : PointerValue} {size : Nat}
    {ordering : AccessOrdering} {result : ReadValue} (hop : load.op = .load ptr size ordering result)
    (hsilenced : load.id ∈ s.findings.silenced)
    (hcheck : needsCheck w s.findings load.id true = .ok true) : load.runtimeCheck ≠ .none := by
  intro hnone
  have hholds : w.program.Holds place.context load := Program.holds_of_instruction hload
  have hread : load.op.readsMemory = true := by
    rw [hop]
    rfl
  have hnever := h.never_of_silenced hapart hholds hread hsilenced
  rw [needsCheck_of_none hplace hload hnone, interferes_of_never hread hnever, ite_self] at hcheck
  cases hcheck

end Walk

open DeadStore in
/-- A silenced load is checked only if a check was asked for before. If it does not count as
replaced, then no write is dead that may be read by it: there is no dead write with a path to the
load on which it is not overwritten altogether and its object is alive. -/
theorem silenced_load_observed {p₀ p : Program} (hlink : p₀.link = .ok p) {l : Layout}
    (hl : Layout.ofProgram p = .ok l) {settings : Settings} {r r' : References} {report : Report}
    (h : analyze p settings r = .ok (report, r')) {place : Place} {load : Instr} {c : Context}
    (hplace : l.place load.id = .ok place) (hload : p.instruction place = .ok load)
    (hc : p.context place.context = .ok c) {ptr : PointerValue} {size : Nat}
    {ordering : AccessOrdering} {result : ReadValue} (hop : load.op = .load ptr size ordering result)
    (hsilenced : load.id ∈ report.silenced) :
    (load.id ∈ report.runtimeChecks → load.runtimeCheck ≠ .none) ∧
    (¬ (result.isFullyKnown = true ∧ c.materialized = true ∧ load.id ∉ report.runtimeChecks) →
      ∀ i source write w k, l.place i = .ok source → p.instruction source = .ok write →
        Write.ofInstr? p write = some w → w.mayAlias ptr (some size) = true →
        ReflTransGen (Passes ⟨p, l, report.deadStores, report.runtimeChecks⟩ w)
          ⟨{ source with index := source.index + 1 }, [], w.fresh⟩ k → k.place = place →
        report.deadStores.get? i ≠ some .dead) := by
  rw [analyze, hl, ok_bind, bind_eq_ok] at h
  obtain ⟨⟨out, s⟩, hrun, h⟩ := h
  obtain ⟨checked, hchecked, h⟩ := bind_eq_ok.1 h
  obtain ⟨counts, -, h⟩ := bind_eq_ok.1 h
  obtain ⟨verdicts, hsweep, h⟩ := bind_eq_ok.1 h
  cases h
  constructor
  · intro hmem
    have hapart := Program.namesApart_of_link hlink
    have hacc : Walk.Accounted ⟨p, l, settings⟩ s :=
      Walk.run_induction hrun (Walk.accounted_fresh 1 r) fun s s' hturn hs => hs.turn hapart hturn
    exact hacc.asked_of_needsCheck hapart hplace hload hop hsilenced
      (Walk.mem_runtimeChecks hchecked hmem)
  · intro hkept i source write w k hsource hwrite hw halias hpath hk hdead
    obtain ⟨v, source', write', w', hsource', hwrite', hw', hsearch⟩ :=
      sweep_foundDead hsweep i hdead
    cases hsource.symm.trans hsource'
    cases hwrite.symm.trans hwrite'
    cases hw.symm.trans hw'
    -- the load is a reader at the end of the path, whatever the verdicts were at that time
    obtain ⟨block, hblock, hget⟩ := bind_eq_ok.1 hload
    obtain ⟨c', hc', hb⟩ := Program.block_eq_ok.1 hblock
    cases (Program.context_eq_ok.1 hc).symm.trans hc'
    have hinst : block.insts[k.place.index]? = some load := by
      rw [hk]
      split at hget
      · next hsome => exact hsome.trans (congrArg some (Except.ok.inj hget))
      · cases hget
    have hobs : Observes ⟨p, l, v, checked⟩ w k :=
      .read ⟨hk ▸ hc', hk ▸ hb⟩ hinst (.load hop halias hkept)
    have hpath' : ReflTransGen (Passes ⟨p, l, v, checked⟩ w)
        ⟨{ source with index := source.index + 1 }, [], w.fresh⟩ k :=
      hpath.lift id fun _ _ hstep => hstep.congr
    exact not_leaks_of_isDead hsearch (exists_observes_of_passes hpath' hobs)

/-! ## A store that is read once -/

section Stored

open DeadStore Walk

/-- A store to the first object, a fence, a load of what was stored, and the end of the object. -/
def storedThenLoaded (result : ReadValue) : Program :=
  straight [⟨⟨0⟩, .store (.single ⟨0⟩ 0) 8, false, .none, true⟩, fenceAt 1, loadAll 2 result,
    ⟨⟨3⟩, .free (.single ⟨0⟩ 0), false, .none, true⟩]

/-- Where everything stands in this program. -/
def storedLayout (result : ReadValue) : Layout :=
  (Layout.ofProgram (storedThenLoaded result)).toOption.getD {}

/-- What is stored. -/
def storedWrite : Write := ⟨⟨0⟩, ⟨⟨0⟩, 0⟩, some 8, .heap⟩

/-- Only the store is tried. -/
theorem sweep_stored {result : ReadValue} {checked : IdentSet .inst} {dead : Bool}
    (h : isDead ⟨storedThenLoaded result, storedLayout result, ∅, checked⟩ storedWrite
      ⟨⟨0⟩, ⟨0⟩, 0⟩ = .ok dead) :
    sweep (storedThenLoaded result) (storedLayout result) {} checked =
      .ok (IdentMap.insert ∅ ⟨0⟩ (if dead then .dead else .live)) := by
  have hcopies : collectCopies (storedThenLoaded result) (storedThenLoaded result).climbBound {}
      (storedThenLoaded result).root = .ok ⟨_, []⟩ := rfl
  have hwrites : collect (storedThenLoaded result) (storedLayout result) isPlainWrite =
      .ok [⟨0⟩] := rfl
  have hallocs : collect (storedThenLoaded result) (storedLayout result) isAlloc = .ok [] := rfl
  have hjudge : judge (storedThenLoaded result) (storedLayout result) checked ∅ ⟨0⟩ =
      .ok (IdentMap.insert ∅ ⟨0⟩ (if dead then .dead else .live)) := by
    refine bind_eq_ok.2 ⟨_, rfl, bind_eq_ok.2 ⟨_, rfl, ?_⟩⟩
    exact bind_eq_ok.2 ⟨dead, h, rfl⟩
  refine bind_eq_ok.2 ⟨[], by rw [hcopies]; rfl, bind_eq_ok.2 ⟨∅, rfl, ?_⟩⟩
  refine bind_eq_ok.2 ⟨_, hwrites, bind_eq_ok.2 ⟨_, ?_, bind_eq_ok.2 ⟨_, hallocs, rfl⟩⟩⟩
  rw [List.foldlM_cons, hjudge, ok_bind]
  rfl

/-- The path from the store to the load. -/
theorem passes_stored (result : ReadValue) (verdicts : IdentMap .inst Verdict)
    (checked : IdentSet .inst) :
    ReflTransGen (Passes ⟨storedThenLoaded result, storedLayout result, verdicts, checked⟩
      storedWrite) ⟨⟨⟨0⟩, ⟨0⟩, 1⟩, [], some ∅⟩ ⟨⟨⟨0⟩, ⟨0⟩, 2⟩, [], some ∅⟩ := by
  have hop : (fenceAt 1).op = .fence := rfl
  refine .single (passes_past ⟨rfl, rfl⟩ (rfl : _ = some (fenceAt 1)) ?_ ?_ rfl)
  · exact not_frees hop (by simp)
  · rintro f ⟨site, hcall, -⟩
    cases hop.symm.trans hcall

/-- The walk through this program. -/
def storedSetting (result : ReadValue) : Walk.Setting :=
  ⟨storedThenLoaded result, storedLayout result, {}⟩

/-- The walk silences the load and nothing is checked. -/
def Silences (result : ReadValue) : Prop :=
  Yields (run (storedSetting result) (.trusting 0) { clock := 1, references := .without [⟨1⟩] })
    fun r => Yields (runtimeChecks (storedSetting result) r.2.findings) fun checked =>
      Yields (checkCounts (storedSetting result) r.2.findings) fun _ =>
        ⟨2⟩ ∈ r.2.findings.silenced ∧ checked = ∅

theorem analyze_stored {result : ReadValue} {dead : Bool} (hsilences : Silences result)
    (hdead : isDead ⟨storedThenLoaded result, storedLayout result, ∅, ∅⟩ storedWrite
      ⟨⟨0⟩, ⟨0⟩, 0⟩ = .ok dead) :
    Yields (analyze (storedThenLoaded result) {} (.without [⟨1⟩])) fun r =>
      ⟨2⟩ ∈ r.1.silenced ∧ r.1.runtimeChecks = ∅ ∧
        r.1.deadStores.get? ⟨0⟩ = some (if dead then .dead else .live) := by
  obtain ⟨⟨out, s⟩, hrun, checked, hchecked, counts, hcounts, hsilenced, rfl⟩ := hsilences
  have h : analyze (storedThenLoaded result) {} (.without [⟨1⟩]) = .ok (_, s.references) :=
    bind_eq_ok.2 ⟨_, rfl, bind_eq_ok.2 ⟨_, hrun, bind_eq_ok.2 ⟨_, hchecked, bind_eq_ok.2 ⟨_, hcounts,
      bind_eq_ok.2 ⟨_, sweep_stored hdead, rfl⟩⟩⟩⟩⟩
  exact ⟨_, h, hsilenced, rfl, IdentMap.get?_insert ..⟩

/-- The load is silenced, and half of its value is not known: it keeps the store alive. -/
theorem silenced_load_observed_half :
    let result : ReadValue := .pieces [⟨0, 4, some (.pointer ⟨⟨1⟩, 0⟩)⟩, ⟨4, 8, none⟩]
    Yields (analyze (storedThenLoaded result) {} (.without [⟨1⟩])) fun r =>
      ⟨2⟩ ∈ r.1.silenced ∧ ⟨2⟩ ∉ r.1.runtimeChecks ∧ r.1.deadStores.get? ⟨0⟩ ≠ some .dead := by
  intro result
  have hdead : isDead ⟨storedThenLoaded result, storedLayout result, ∅, ∅⟩ storedWrite
      ⟨⟨0⟩, ⟨0⟩, 0⟩ = .ok false := by
    rw [isDead, State.run]
    rfl
  have hsilences : Silences result := by
    unfold Silences
    exact yields_run 3 (by decide +kernel)
  obtain ⟨⟨report, r⟩, h, hsilenced, hchecked, -⟩ := analyze_stored hsilences hdead
  refine ⟨_, h, hsilenced, hchecked ▸ IdentSet.not_mem_empty _, ?_⟩
  have hlink : (storedThenLoaded result).link = .ok (storedThenLoaded result) := rfl
  have hload : (storedThenLoaded result).instruction ⟨⟨0⟩, ⟨0⟩, 2⟩ = .ok (loadAll 2 result) := rfl
  refine (silenced_load_observed hlink rfl h rfl hload rfl rfl hsilenced).2 ?_ ⟨0⟩ _ _
    storedWrite _ rfl rfl rfl (by decide)
      (passes_stored result report.deadStores report.runtimeChecks) rfl
  rintro ⟨hknown, -⟩
  cases hknown

/-- The load is silenced, its value is known and no check was asked for: the store that it reads is
called dead. -/
theorem silenced_load_overlooked :
    let result : ReadValue := .known (.pointer ⟨⟨1⟩, 0⟩)
    Yields (analyze (storedThenLoaded result) {} (.without [⟨1⟩])) fun r =>
      ⟨2⟩ ∈ r.1.silenced ∧ r.1.deadStores.get? ⟨0⟩ = some .dead ∧
        storedWrite.mayAlias (.single ⟨0⟩ 0) (some 8) = true ∧
        ReflTransGen (Passes ⟨storedThenLoaded result, storedLayout result, r.1.deadStores,
          r.1.runtimeChecks⟩ storedWrite) ⟨⟨⟨0⟩, ⟨0⟩, 1⟩, [], some ∅⟩
          ⟨⟨⟨0⟩, ⟨0⟩, 2⟩, [], some ∅⟩ := by
  intro result
  have hdead : isDead ⟨storedThenLoaded result, storedLayout result, ∅, ∅⟩ storedWrite
      ⟨⟨0⟩, ⟨0⟩, 0⟩ = .ok true := by
    rw [isDead, State.run]
    show (State.run _ _ ⟨[], ∅⟩).getD _ = _
    rw [State.run]
    rfl
  have hsilences : Silences result := by
    unfold Silences
    exact yields_run 3 (by decide +kernel)
  obtain ⟨⟨report, r⟩, h, hsilenced, -, hverdict⟩ := analyze_stored hsilences hdead
  exact ⟨_, h, hsilenced, hverdict, by decide, passes_stored result _ _⟩

end Stored

end ByteTrust
