import ByteTrust.Proofs.DeadStore.Exact

/-!
# Searches that answer

On a program that is linked and has no recursion every search ends with the right answer. Here
nothing is assumed of the program: the search may run into a fault or never end. But if it says that
a write is dead, then no path from the write leads to where it may be read (`not_leaks_of_isDead`),
for a fault on the way, or a path that is left out, would have kept it from saying so. And if it
says that a write is not dead, there is such a path (`leaks_of_isDead`), provided that every
iteration has a context around it.
-/

namespace ByteTrust.DeadStore

open Relation

variable {q : Setting} {w : Write} {k k' : Cursor} {c : Context} {block : Block}
  {bits : Overwritten} {s : State} {n : Nat}

/-! ## Out of a block -/

theorem successor_of_leads {target : BlockId} {a b : Option (ContextId × BlockId)}
    (hk : Stands q k c block) (h : successor q k.place.context k.place.block target = .ok a)
    (hleads : Leads q k c target b) : a = b := by
  rw [successor, Program.context_eq_ok.2 hk.found, ok_bind] at h
  dsimp only at h
  cases hleads with
  | edge hedge howner =>
    have howner' : q.layout.owner? (q.layout.functionRoot k.place.context) target = _ := howner
    simp only [howner'] at h
    split at h
    · next loop index header latch parent hkind _ =>
      have hback : ¬ (k.place.block = latch ∧ target = header) := by
        rintro ⟨rfl, rfl⟩
        exact hedge loop index hkind
      rw [if_neg hback] at h
      exact (Except.ok.inj h).symm
    · exact (Except.ok.inj h).symm
  | again hkind hparent hnext hd =>
    simp only [hkind, hparent, true_and, if_true, hnext, Program.context_eq_ok.2 hd, ok_bind] at h
    exact (Except.ok.inj h).symm
  | beyond hkind hparent hnext =>
    simp only [hkind, hparent, true_and, if_true, hnext] at h
    exact (Except.ok.inj h).symm

/-- The paths from `k` go on at the cursors, among others, and nothing is read at `k`. -/
structure Continues (q : Setting) (w : Write) (k : Cursor) (cursors : List Cursor) : Prop where
  moves : ∀ k', Moves q w k k' → k' ∈ cursors
  quiet : ¬ Observes q w k
  bits : ∀ k' ∈ cursors, k'.bits = k.bits

theorem branchTo_of_leads {targets : List BlockId} {cursors : List Cursor} (hk : Stands q k c block)
    (h : branchTo q k bits targets = .ok (some cursors)) :
    (∀ target ∈ targets, ∀ b, Leads q k c target b →
      ∃ next, b = some next ∧ ⟨⟨next.1, next.2, 0⟩, k.stack, bits⟩ ∈ cursors) ∧
    ∀ k' ∈ cursors, k'.bits = bits := by
  induction targets generalizing cursors with
  | nil =>
    cases h
    simp
  | cons target targets ih =>
    rw [branchTo, bind_eq_ok] at h
    obtain ⟨next, hnext, h⟩ := h
    cases next with
    | none => cases h
    | some next =>
      obtain ⟨rest, hrest, h⟩ := bind_eq_ok.1 h
      obtain ⟨cursors', rfl, rfl⟩ := Option.map_eq_some_iff.1 (Except.ok.inj h)
      obtain ⟨hleads, hbits⟩ := ih hrest
      refine ⟨List.forall_mem_cons.2 ⟨fun b hb => ?_, fun target' htarget' b hb => ?_⟩,
        List.forall_mem_cons.2 ⟨rfl, hbits⟩⟩
      · exact ⟨next, (successor_of_leads hk hnext hb).symm, List.mem_cons_self⟩
      · obtain ⟨next', hb, hmem⟩ := hleads target' htarget' b hb
        exact ⟨next', hb, List.mem_cons_of_mem _ hmem⟩

theorem branchTo_continues {cursors : List Cursor} (hk : Leaves q w k c block .branch)
    (h : branchTo q k k.bits block.liveSuccs = .ok (some cursors)) :
    Continues q w k cursors := by
  obtain ⟨hleads, hbits⟩ := branchTo_of_leads hk.stands h
  refine ⟨fun k' hmove => ?_, fun hobs => ?_, hbits⟩
  · cases hmove with
    | past hk' hinst | enter hk' hinst => simp [hk.no_instr hk'] at hinst
    | resume hk' | toCaller hk' => cases (hk.unique hk').2.2
    | branch hk' htarget hedge howner =>
      obtain ⟨rfl, rfl, -⟩ := hk.unique hk'
      obtain ⟨next, hnext, hmem⟩ := hleads _ htarget _ (.edge hedge howner)
      cases hnext
      exact hmem
    | again hk' htarget hkind hparent hnext hd =>
      obtain ⟨rfl, rfl, -⟩ := hk.unique hk'
      obtain ⟨next, hnext, hmem⟩ := hleads _ htarget _ (.again hkind hparent hnext hd)
      cases hnext
      exact hmem
  · cases hobs with
    | read hk' hinst => simp [hk.no_instr hk'] at hinst
    | escape hk' => cases (hk.unique hk').2.2
    | beyond hk' htarget hkind hparent hnext =>
      obtain ⟨rfl, rfl, -⟩ := hk.unique hk'
      obtain ⟨next, hnext, -⟩ := hleads _ htarget _ (.beyond hkind hparent hnext)
      cases hnext

theorem returnFrom_continues {cursors : List Cursor} (hk : Leaves q w k c block .ret)
    (h : returnFrom q (k.function q) k.stack k.bits = .ok (some cursors)) :
    Continues q w k cursors := by
  unfold returnFrom at h
  cases hstack : k.stack with
  | cons place stack =>
    rw [hstack] at h
    cases h
    refine ⟨fun k' hmove => ?_, fun hobs => ?_, by simp⟩
    · cases hmove with
      | past hk' hinst | enter hk' hinst => simp [hk.no_instr hk'] at hinst
      | resume _ hstack' =>
        cases hstack.symm.trans hstack'
        exact List.mem_cons_self
      | toCaller _ hstack' => cases hstack.symm.trans hstack'
      | branch hk' | again hk' => cases (hk.unique hk').2.2
    · cases hobs with
      | read hk' hinst => simp [hk.no_instr hk'] at hinst
      | escape _ hstack' => cases hstack.symm.trans hstack'
      | beyond hk' => cases (hk.unique hk').2.2
  | nil =>
    rw [hstack] at h
    obtain ⟨d, hd, h⟩ := bind_eq_ok.1 h
    rw [Program.context_eq_ok] at hd
    split at h
    · cases h
    · next hcallers =>
      obtain ⟨places, hplaces, h⟩ := bind_eq_ok.1 h
      cases h
      refine ⟨fun k' hmove => ?_, fun hobs => ?_, by simp⟩
      · cases hmove with
        | past hk' hinst | enter hk' hinst => simp [hk.no_instr hk'] at hinst
        | resume _ hstack' => cases hstack.symm.trans hstack'
        | @toCaller _ _ d' i place hk' _ hroot hi hplace =>
          cases hd.symm.trans hroot
          refine List.mem_map.2 ⟨place, mem_of_mapM hplaces hi ?_, rfl⟩
          rw [Layout.place, hplace]
        | branch hk' | again hk' => cases (hk.unique hk').2.2
      · cases hobs with
        | read hk' hinst => simp [hk.no_instr hk'] at hinst
        | escape _ _ hroot hnone =>
          cases hd.symm.trans hroot
          exact hcallers hnone
        | beyond hk' => cases (hk.unique hk').2.2

theorem leave_continues {cursors : List Cursor} (hk : Stands q k c block)
    (hfinished : block.insts.length ≤ k.place.index)
    (h : leave q w k block k.bits = .ok (some cursors)) : Continues q w k cursors := by
  have hnil (hsprouts : Sprouts q w k []) : Continues q w k [] :=
    ⟨fun k' hmove => (hsprouts.moves k').1 hmove, hsprouts.quiet, by simp⟩
  unfold leave at h
  simp only [Bool.and_eq_true, Bool.or_eq_true, decide_eq_true_eq, List.isEmpty_iff] at h
  split at h
  · next hends =>
    obtain ⟨hexits, hkind⟩ := hends
    cases h
    exact hnil (sprouts_nil hk hfinished (fun _ => hkind)
      fun hterm => hexits.resolve_left (fun hne => hne hterm))
  · next hends =>
    cases hterm : block.terminator with
    | unreachable =>
      rw [hterm] at h
      cases h
      exact hnil (sprouts_nil hk hfinished (by simp [hterm]) (by simp [hterm]))
    | ret =>
      rw [hterm] at h
      refine returnFrom_continues ⟨hk, hfinished, hterm, fun _ hkind => hends ⟨.inl ?_, hkind⟩⟩ h
      simp [hterm]
    | branch =>
      rw [hterm] at h
      exact branchTo_continues ⟨hk, hfinished, hterm, fun hne => absurd rfl hne⟩ h

/-! ## One step -/

/-- What can be read from `k` can be read from where it is followed up, by a shorter path. -/
theorem Follows.leaks_continues {k₁ : Cursor} {cursors : List Cursor} (h : Follows q w k k₁)
    (hcontinues : Continues q w k₁ cursors) (hleak : Leaks q w n k) :
    ∃ m < n, ∃ k' ∈ cursors, Leaks q w m k' := by
  obtain ⟨m, hm, hleak⟩ := h.leaks hleak
  cases hleak with
  | here hobs => exact absurd hobs hcontinues.quiet
  | step hmove hleak => exact ⟨_, hm, _, hcontinues.moves _ hmove, hleak⟩

/-- Where a cursor comes to in its block, wherever in it or behind it the cursor stands. -/
theorem follow_finished (hk : Stands q k c block) (hfits : Fits w k.bits)
    (h : follow q w k.place.context k.place.index (block.insts.drop k.place.index) k.bits =
      .ok (.finished bits)) :
    ∃ index, block.insts.length ≤ index ∧ Fits w bits ∧ Follows q w k (k.goto index bits) := by
  by_cases hindex : k.place.index ≤ block.insts.length
  · obtain ⟨leg, hleg, hspec⟩ := follow_spec hk hindex hfits
    cases hleg.symm.trans h
    exact ⟨_, Nat.le_refl _, hspec⟩
  · have hlength : block.insts.length ≤ k.place.index := by omega
    rw [List.drop_eq_nil_iff.2 hlength] at h
    cases h
    exact ⟨_, hlength, hfits, .refl k⟩

theorem follow_legSpec {leg : Leg} (hk : Stands q k c block) (hfits : Fits w k.bits)
    (h : follow q w k.place.context k.place.index (block.insts.drop k.place.index) k.bits = .ok leg)
    (hleg : ∀ bits, leg ≠ .finished bits) : LegSpec q w k block leg := by
  by_cases hindex : k.place.index ≤ block.insts.length
  · obtain ⟨leg', hleg', hspec⟩ := follow_spec hk hindex hfits
    cases hleg'.symm.trans h
    exact hspec
  · have hlength : block.insts.length ≤ k.place.index := by omega
    rw [List.drop_eq_nil_iff.2 hlength] at h
    cases h
    exact absurd rfl (hleg _)

/-- A step that does not fail follows up the cursor, or ends the search. -/
theorem advance_cases {progress : Progress} (hfits : Fits w k.bits)
    (h : s.advance q w k = .ok progress) :
    progress = .done false ∨ ∃ cursors, progress = .more { s with work := cursors ++ s.work } ∧
      (∀ k' ∈ cursors, Fits w k'.bits) ∧
      ∀ {n}, Leaks q w n k → ∃ m < n, ∃ k' ∈ cursors, Leaks q w m k' := by
  rw [State.advance, bind_eq_ok] at h
  obtain ⟨block, hblock, h⟩ := h
  obtain ⟨c, hc, hb⟩ := Program.block_eq_ok.1 hblock
  have hk : Stands q k c block := ⟨hc, hb⟩
  obtain ⟨leg, hleg, h⟩ := bind_eq_ok.1 h
  cases leg with
  | stop =>
    cases h
    have hspec := follow_legSpec hk hfits hleg (by simp)
    exact .inr ⟨[], rfl, by simp, fun hleak => absurd hleak (hspec _)⟩
  | observed =>
    cases h
    exact .inl rfl
  | entering f index bits =>
    obtain ⟨i, inst, rfl, hinst, hcall, -, hbits, hfollows⟩ :=
      follow_legSpec hk hfits hleg (by simp)
    obtain ⟨d, hd, h⟩ := bind_eq_ok.1 h
    cases h
    have hsprouts :=
      (hk.goto i bits).sprouts_enter hinst hcall (Program.context_eq_ok.1 hd)
    have hcontinues : Continues q w (k.goto i bits)
        [⟨⟨f, d.entry, 0⟩, { k.place with index := i + 1 } :: k.stack, bits⟩] :=
      ⟨fun k' hmove => (hsprouts.moves k').1 hmove, hsprouts.quiet, by simp [Cursor.goto]⟩
    exact .inr ⟨_, rfl, by simpa using hbits,
      fun hleak => hfollows.leaks_continues hcontinues hleak⟩
  | finished bits =>
    obtain ⟨index, hlength, hbits, hfollows⟩ := follow_finished hk hfits hleg
    obtain ⟨out, hout, h⟩ := bind_eq_ok.1 h
    cases out with
    | none =>
      cases h
      exact .inl rfl
    | some cursors =>
      cases h
      rw [← leave_goto index bits bits] at hout
      have hcontinues := leave_continues (hk.goto index bits) hlength hout
      refine .inr ⟨cursors.reverse, rfl, fun k' hk' => ?_, fun hleak => ?_⟩
      · rw [hcontinues.bits k' (List.mem_reverse.1 hk')]
        exact hbits
      · obtain ⟨m, hm, k', hk', hleak⟩ := hfollows.leaks_continues hcontinues hleak
        exact ⟨m, hm, k', List.mem_reverse.2 hk', hleak⟩

/-! ## The whole search -/

variable {start : Cursor}

/-- A step that does not fail keeps all paths covered, and says that the write is dead only if it is
not read. -/
theorem Covers.step {progress : Progress} (h : Covers q w start s)
    (hstep : s.step q w = .ok progress) :
    match progress with
    | .more s' => Covers q w start s'
    | .done dead => dead = true → ¬ ∃ n, Leaks q w n start := by
  unfold State.step at hstep
  cases hwork : s.work with
  | nil =>
    rw [hwork] at hstep
    cases hstep
    exact fun _ => h.not_leaks hwork
  | cons k rest =>
    rw [hwork] at hstep
    have hk : Fits w k.bits := h.bits k (.inr (hwork ▸ List.mem_cons_self))
    simp only at hstep
    split at hstep
    · next hindex =>
      cases henter : State.enter? { s with work := rest } k with
      | none =>
        rw [henter] at hstep
        cases hstep
        obtain ⟨bits, hbits, hcovered⟩ := enter?_eq_none henter
        have hseen : s.Seen ⟨k.place, k.stack, bits⟩ := ⟨hindex, hbits⟩
        exact h.drop hwork hseen
          ⟨rfl, rfl, (h.bits _ (.inl hseen)).le_of_isCoveredBy hk hcovered⟩
      | some s₁ =>
        rw [henter] at hstep
        obtain ⟨-, rfl⟩ := enter?_eq_some henter
        obtain rfl | ⟨cursors, rfl, hbits, hleaks⟩ := advance_cases hk hstep
        · exact fun hdead => absurd hdead (by simp)
        · exact h.expand hwork rfl (fun k' hk' => (seen_insert hindex).1 hk') hbits hleaks
            fun k' hk' => (seen_insert hindex).2 (.inl hk')
    · obtain rfl | ⟨cursors, rfl, hbits, hleaks⟩ := advance_cases hk hstep
      · exact fun hdead => absurd hdead (by simp)
      · exact h.expand hwork rfl (fun _ hk' => .inl hk') hbits hleaks fun _ hk' => hk'

/-- A search that ends has the right to say that the write is dead. -/
theorem not_leaks_of_run (h : Covers q w start s) (hrun : s.run q w = some (.ok true)) :
    ¬ ∃ n, Leaks q w n start := by
  refine State.run.partial_correctness q w
    (fun s r => Covers q w start s → r = .ok true → ¬ ∃ n, Leaks q w n start) ?_ s _ hrun h rfl
  intro run ih s r hr hs hdead
  cases hstep : s.step q w with
  | error fault =>
    rw [hstep] at hr
    cases hr
    cases hdead
  | ok progress =>
    have hprogress := hs.step hstep
    rw [hstep] at hr
    cases progress with
    | more s' => exact ih s' r hr hprogress hdead
    | done dead =>
      cases hr
      exact hprogress (Except.ok.inj hdead)

/-- Where the search says that a write is dead, no path from just after it leads to where it may be
read. -/
theorem not_leaks_of_isDead {place : Place} (h : isDead q w place = .ok true) :
    ¬ ∃ k, ReflTransGen (Moves q w) ⟨{ place with index := place.index + 1 }, [], w.fresh⟩ k ∧
      Observes q w k := by
  rw [← exists_leaks_iff]
  unfold isDead at h
  cases hrun : State.run q w
      { work := [⟨{ place with index := place.index + 1 }, [], w.fresh⟩] } with
  | none =>
    simp [hrun] at h
  | some r =>
    simp only [hrun, Option.getD_some] at h
    exact not_leaks_of_run (covers_initial (fits_fresh w)) (h ▸ hrun)

/-! ## Searches that find a reader -/

/-- Every iteration has a context around it. -/
def Rooted (q : Setting) : Prop :=
  ∀ k c, q.program.contexts.get? k = some c → c.parent = none → c.isFunction = true

theorem leads_of_owner {target : BlockId} {a : Option (ContextId × BlockId)}
    (hedge : ∀ loop index, c.kind ≠ .iteration loop index target k.place.block)
    (h : (match q.layout.owner? (q.layout.functionRoot k.place.context) target with
      | some owner => return some (owner, target)
      | none => throw (.danglingEdge k.place.context k.place.block target) :
        Except Fault (Option (ContextId × BlockId))) = .ok a) : Leads q k c target a := by
  split at h
  · next owner howner =>
    cases h
    exact .edge hedge howner
  · cases h

theorem leads_of_successor {target : BlockId} {a : Option (ContextId × BlockId)} (hq : Rooted q)
    (hk : Stands q k c block) (h : successor q k.place.context k.place.block target = .ok a) :
    Leads q k c target a := by
  rw [successor, Program.context_eq_ok.2 hk.found, ok_bind] at h
  dsimp only at h
  split at h
  · next loop index header latch parent hkind hparent =>
    split at h
    · next hback =>
      obtain ⟨rfl, rfl⟩ := hback
      split at h
      · next following hnext =>
        obtain ⟨d, hd, h⟩ := bind_eq_ok.1 h
        cases h
        exact .again hkind hparent hnext (Program.context_eq_ok.1 hd)
      · next hnext =>
        cases h
        exact .beyond hkind hparent hnext
    · next hback =>
      refine leads_of_owner (fun loop' index' hkind' => hback ?_) h
      cases hkind.symm.trans hkind'
      exact ⟨rfl, rfl⟩
  · next hnot =>
    refine leads_of_owner (fun loop index hkind => ?_) h
    cases hparent : c.parent with
    | none =>
      have hfun := hq _ c hk.found hparent
      simp [Context.isFunction, hkind] at hfun
    | some parent => exact hnot _ _ _ _ _ hkind hparent

/-- The cursors are on paths from `k`; there are none when the write may be read at `k`. -/
def Emerges (q : Setting) (w : Write) (k : Cursor) : Option (List Cursor) → Prop
  | none => Observes q w k
  | some cursors => ∀ k' ∈ cursors, Moves q w k k'

theorem branchTo_emerges (hq : Rooted q) (hk : Leaves q w k c block .branch)
    {targets : List BlockId} (htargets : targets ⊆ block.liveSuccs) {out : Option (List Cursor)}
    (h : branchTo q k k.bits targets = .ok out) : Emerges q w k out := by
  induction targets generalizing out with
  | nil =>
    cases h
    exact fun k' hk' => absurd hk' List.not_mem_nil
  | cons target targets ih =>
    obtain ⟨htarget, htargets⟩ := List.cons_subset.1 htargets
    rw [branchTo, bind_eq_ok] at h
    obtain ⟨next, hnext, h⟩ := h
    have hleads := leads_of_successor hq hk.stands hnext
    cases next with
    | none =>
      cases h
      cases hleads with
      | beyond hkind hparent hnext => exact .beyond hk htarget hkind hparent hnext
    | some next =>
      obtain ⟨rest, hrest, h⟩ := bind_eq_ok.1 h
      have hmove : Moves q w k ⟨⟨next.1, next.2, 0⟩, k.stack, k.bits⟩ := by
        cases hleads with
        | edge hedge howner => exact .branch hk htarget hedge howner
        | again hkind hparent hafter hd => exact .again hk htarget hkind hparent hafter hd
      have hemerges := ih htargets hrest
      cases rest with
      | none =>
        cases h
        exact hemerges
      | some cursors =>
        cases h
        exact List.forall_mem_cons.2 ⟨hmove, hemerges⟩

theorem returnFrom_emerges (hk : Leaves q w k c block .ret) {out : Option (List Cursor)}
    (h : returnFrom q (k.function q) k.stack k.bits = .ok out) : Emerges q w k out := by
  unfold returnFrom at h
  cases hstack : k.stack with
  | cons place stack =>
    rw [hstack] at h
    cases h
    intro k' hk'
    rw [List.mem_singleton.1 hk']
    exact .resume hk hstack
  | nil =>
    rw [hstack] at h
    obtain ⟨d, hd, h⟩ := bind_eq_ok.1 h
    rw [Program.context_eq_ok] at hd
    split at h
    · next hcallers =>
      cases h
      exact .escape hk hstack hd hcallers
    · obtain ⟨places, hplaces, h⟩ := bind_eq_ok.1 h
      cases h
      intro k' hk'
      obtain ⟨place, hplace, rfl⟩ := List.mem_map.1 hk'
      obtain ⟨i, hi, hat⟩ := exists_of_mem_mapM hplaces hplace
      refine .toCaller hk hstack hd hi ?_
      rw [Layout.place] at hat
      split at hat
      · next hget =>
        cases hat
        exact hget
      · cases hat

theorem leave_emerges (hq : Rooted q) (hk : Stands q k c block)
    (hfinished : block.insts.length ≤ k.place.index) {out : Option (List Cursor)}
    (h : leave q w k block k.bits = .ok out) : Emerges q w k out := by
  have hnil : Emerges q w k (some []) := fun k' hk' => absurd hk' List.not_mem_nil
  unfold leave at h
  simp only [Bool.and_eq_true, Bool.or_eq_true, decide_eq_true_eq, List.isEmpty_iff] at h
  split at h
  · cases h
    exact hnil
  · next hends =>
    cases hterm : block.terminator with
    | unreachable =>
      rw [hterm] at h
      cases h
      exact hnil
    | ret =>
      rw [hterm] at h
      refine returnFrom_emerges ⟨hk, hfinished, hterm, fun _ hkind => hends ⟨.inl ?_, hkind⟩⟩ h
      simp [hterm]
    | branch =>
      rw [hterm] at h
      exact branchTo_emerges hq ⟨hk, hfinished, hterm, fun hne => absurd rfl hne⟩
        (List.Subset.refl _) h

theorem Moves.fits (h : Moves q w k k') (hfits : Fits w k.bits) : Fits w k'.bits := by
  cases h with
  | @past c block inst bits _ _ _ _ _ hwrite =>
    have hbits := hfits.overwrittenBy inst.op
    rwa [hwrite] at hbits
  | _ => exact hfits

/-- The step goes on along paths from `k`, or ends the search where a path leads to a reader. -/
theorem advance_emerges {progress : Progress} (hq : Rooted q) (hfits : Fits w k.bits)
    (h : s.advance q w k = .ok progress) :
    (progress = .done false ∧ ∃ n, Leaks q w n k) ∨
      ∃ cursors, progress = .more { s with work := cursors ++ s.work } ∧
        ∀ k' ∈ cursors, ReflTransGen (Moves q w) k k' := by
  rw [State.advance, bind_eq_ok] at h
  obtain ⟨block, hblock, h⟩ := h
  obtain ⟨c, hc, hb⟩ := Program.block_eq_ok.1 hblock
  have hk : Stands q k c block := ⟨hc, hb⟩
  obtain ⟨leg, hleg, h⟩ := bind_eq_ok.1 h
  cases leg with
  | stop =>
    cases h
    exact .inr ⟨[], rfl, by simp⟩
  | observed =>
    cases h
    exact .inl ⟨rfl, follow_legSpec hk hfits hleg (by simp)⟩
  | entering f index bits =>
    obtain ⟨i, inst, rfl, hinst, hcall, -, -, hfollows⟩ := follow_legSpec hk hfits hleg (by simp)
    obtain ⟨d, hd, h⟩ := bind_eq_ok.1 h
    cases h
    have hmove := Moves.enter (hk.goto i bits) hinst hcall (Program.context_eq_ok.1 hd)
    refine .inr ⟨[_], rfl, fun k' hk' => ?_⟩
    rw [List.mem_singleton.1 hk']
    exact hfollows.path.tail hmove
  | finished bits =>
    obtain ⟨index, hlength, -, hfollows⟩ := follow_finished hk hfits hleg
    obtain ⟨out, hout, h⟩ := bind_eq_ok.1 h
    rw [← leave_goto index bits bits] at hout
    have hemerges := leave_emerges hq (hk.goto index bits) hlength hout
    cases out with
    | none =>
      cases h
      exact .inl ⟨rfl, exists_leaks_iff.2 ⟨_, hfollows.path, hemerges⟩⟩
    | some cursors =>
      cases h
      refine .inr ⟨_, rfl, fun k' hk' => hfollows.path.tail (hemerges k' (List.mem_reverse.1 hk'))⟩

/-- The work that is left lies on paths from `start`. -/
def Emerging (q : Setting) (w : Write) (start : Cursor) (s : State) : Prop :=
  ∀ k ∈ s.work, ReflTransGen (Moves q w) start k

/-- What the search comes to lies on paths from `start`. -/
def EmergesFrom (q : Setting) (w : Write) (start : Cursor) : Progress → Prop
  | .more s => Emerging q w start s
  | .done dead => dead = false → ∃ n, Leaks q w n start

theorem Emerging.step {progress : Progress} (hq : Rooted q) (hstart : Fits w start.bits)
    (h : Emerging q w start s) (hstep : s.step q w = .ok progress) :
    EmergesFrom q w start progress := by
  unfold State.step at hstep
  cases hwork : s.work with
  | nil =>
    rw [hwork] at hstep
    cases hstep
    exact fun hlive => absurd hlive (by simp)
  | cons k rest =>
    rw [hwork] at hstep
    have hpath : ReflTransGen (Moves q w) start k := h k (hwork ▸ List.mem_cons_self)
    have hrest : ∀ k' ∈ rest, ReflTransGen (Moves q w) start k' := fun k' hk' =>
      h k' (hwork ▸ List.mem_cons_of_mem k hk')
    have hfits : Fits w k.bits := by
      clear hstep hwork
      induction hpath with
      | refl => exact hstart
      | tail _ hmove ih => exact hmove.fits ih
    -- a cursor that is followed up puts others on its paths, whatever is remembered of it
    have hadvance (explored) (progress : Progress)
        (h : State.advance q w { s with work := rest, explored := explored } k = .ok progress) :
        EmergesFrom q w start progress := by
      rcases advance_emerges hq hfits h with ⟨rfl, hleak⟩ | ⟨cursors, rfl, hcursors⟩
      · obtain ⟨k', hpath', hobs⟩ := exists_leaks_iff.1 hleak
        exact fun _ => exists_leaks_iff.2 ⟨k', hpath.trans hpath', hobs⟩
      · exact List.forall_mem_append.2 ⟨fun k' hk' => hpath.trans (hcursors k' hk'), hrest⟩
    simp only at hstep
    split at hstep
    · cases henter : State.enter? { s with work := rest } k with
      | none =>
        rw [henter] at hstep
        cases hstep
        exact hrest
      | some s₁ =>
        rw [henter] at hstep
        obtain ⟨-, rfl⟩ := enter?_eq_some henter
        exact hadvance _ progress hstep
    · exact hadvance _ progress hstep

/-- A search that ends has the right to say that the write is not dead. -/
theorem leaks_of_run (hq : Rooted q) (hstart : Fits w start.bits) (h : Emerging q w start s)
    (hrun : s.run q w = some (.ok false)) : ∃ n, Leaks q w n start := by
  refine State.run.partial_correctness q w
    (fun s r => Emerging q w start s → r = .ok false → ∃ n, Leaks q w n start) ?_ s _ hrun h rfl
  intro run ih s r hr hs hlive
  cases hstep : s.step q w with
  | error fault =>
    rw [hstep] at hr
    cases hr
    cases hlive
  | ok progress =>
    have hprogress := hs.step hq hstart hstep
    rw [hstep] at hr
    cases progress with
    | more s' => exact ih s' r hr hprogress hlive
    | done dead =>
      cases hr
      exact hprogress (Except.ok.inj hlive)

/-- Where the search says that a write is not dead, a path from just after it leads to where it may
be read. -/
theorem leaks_of_isDead {place : Place} (hq : Rooted q) (h : isDead q w place = .ok false) :
    ∃ k, ReflTransGen (Moves q w) ⟨{ place with index := place.index + 1 }, [], w.fresh⟩ k ∧
      Observes q w k := by
  rw [← exists_leaks_iff]
  unfold isDead at h
  cases hrun : State.run q w
      { work := [⟨{ place with index := place.index + 1 }, [], w.fresh⟩] } with
  | none =>
    simp [hrun] at h
  | some r =>
    simp only [hrun, Option.getD_some] at h
    refine leaks_of_run hq (fits_fresh w) (fun k hk => ?_) (h ▸ hrun)
    rw [List.mem_singleton.1 hk]

end ByteTrust.DeadStore
