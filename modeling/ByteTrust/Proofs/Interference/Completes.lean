import ByteTrust.Proofs.Interference.Needs
import ByteTrust.Proofs.Interference.Stacked

/-!
# Walks come to an end

No step of a walk fails in a linked program whose root is not called and that has no checker
functions (`run_completes`). All names that a step looks up exist. What is picked up always meets,
because frames are in balance (`Balanced`). And there is room for every context that is entered,
because no context is entered within itself (`Stacked.length_le`).
-/

namespace ByteTrust

namespace Walk

open Snapshot Region

variable {w : Setting} {scope : Scope} {base cs : List ContextId}
  {calls calls' : Table ContextId InstId} {s s' s₁ : State} {x y : Snapshot}
  {out : Option Snapshot} {H : List Snapshot} {c d : Context} {e k k' g : ContextId}
  {stack : List ContextId}

/-! ## Steps that succeed -/

/-- The step succeeds. -/
def Runs {α : Type} (m : Step α) (s : State) : Prop := ∃ a s', m s = .ok (a, s')

section

variable {α β : Type} {m : Step α} {a : α} {f : α → Step β}

theorem runs_pure (a : α) (s : State) : Runs (pure a) s := ⟨a, s, rfl⟩

theorem runs_bind (h : m s = .ok (a, s₁)) (h' : Runs (f a) s₁) : Runs (m >>= f) s := by
  obtain ⟨b, s', h'⟩ := h'
  exact ⟨b, s', step_bind_eq_ok.2 ⟨a, s₁, h, h'⟩⟩

theorem runs_lift_bind {v : Except Fault α} (h : v = .ok a) (h' : Runs (f a) s) :
    Runs ((liftM v : Step α) >>= f) s :=
  runs_bind (step_lift_eq_ok.2 ⟨h, rfl⟩) h'

theorem Runs.then (h : Runs m s) (h' : ∀ a s₁, Runs (f a) s₁) : Runs (m >>= f) s := by
  obtain ⟨a, s₁, h⟩ := h
  exact runs_bind h (h' a s₁)

end

theorem silence_runs (inst : InstId) (values : List SpecValue) (s : State) :
    Runs (silence w inst values) s := by
  refine runs_bind rfl ?_
  dsimp only
  split
  · exact runs_pure _ _
  · exact runs_bind rfl (runs_bind rfl (runs_pure _ _))

theorem promote_runs (inst : InstId) (result : ReadValue) (s : State) :
    Runs (promote w inst result) s := by
  unfold promote
  split
  · exact runs_pure _ _
  · refine runs_bind rfl ?_
    split
    · exact runs_bind rfl ⟨_, _, rfl⟩
    · exact runs_pure _ _

theorem visitRead_runs (certain : Bool) (inst : Instr) (x : Snapshot) (s : State) :
    Runs (visitRead w scope certain inst x) s := by
  refine runs_bind rfl ?_
  have hend (recorded need : Need) (s : State) : Runs (do
      note fun f => { f with needs := f.needs.insert inst.id recorded }
      let after := w.program.transfer w.settings (← tick) inst.op (some need) scope.suppressed x
      modify fun s => { s with visits := ⟨scope.context, inst, x, after⟩ :: s.visits }
      return after : Step Snapshot) s := ⟨_, _, rfl⟩
  dsimp only
  split
  · refine runs_bind rfl ((silence_runs _ _ _).then fun silent s₁ => ?_)
    cases silent <;> exact runs_bind rfl (hend _ _ _)
  · split
    · split
      · exact (promote_runs _ _ _).then fun _ _ => runs_bind rfl (hend _ _ _)
      · exact runs_bind rfl (runs_bind rfl (hend _ _ _))
    · exact runs_bind rfl (runs_bind rfl (hend _ _ _))

theorem visitInstr_runs (certain : Bool) (inst : Instr) (x : Snapshot) (s : State) :
    Runs (visitInstr w scope certain inst x) s := by
  unfold visitInstr
  split
  · exact visitRead_runs certain inst x s
  split
  · exact runs_pure _ _
  have hend (s : State) : Runs (do
      return w.program.transfer w.settings (← tick) inst.op none scope.suppressed x :
      Step Snapshot) s := ⟨_, _, rfl⟩
  split
  · split
    · exact (promote_runs _ _ _).then fun _ _ => hend _
    · exact runs_bind rfl (hend _)
  · exact runs_bind rfl (hend _)

/-- Snapshots with the same frames meet. -/
theorem meet_runs {xs : List Snapshot} (hH : Kept s H) (hxs : ∀ x ∈ xs, x ∈ H)
    (hfits : ∀ x ∈ xs, Fits cs x) : Runs (meet xs) s := by
  refine runs_bind rfl ?_
  cases xs with
  | nil => exact ⟨none, _, rfl⟩
  | cons x xs =>
    have howners : ∀ t ∈ xs, t.owners = x.owners := fun t ht =>
      (hfits t (List.mem_cons_of_mem x ht)).owners.trans (hfits x List.mem_cons_self).owners.symm
    obtain ⟨m, hm, -⟩ := (hH.history.coherent.1.mono hxs).meetAll_eq_ok howners s.clock
    exact ⟨some m, _, step_lift_eq_ok.2 ⟨hm, rfl⟩⟩

theorem filterMapM_lift_runs {α β : Type} {f : α → Except Fault (Option β)} {as : List α}
    (h : ∀ a ∈ as, ∃ o, f a = .ok o) (s : State) :
    ∃ bs, as.filterMapM (fun a => (liftM (f a) : Step (Option β))) s = .ok (bs, s) := by
  induction as with
  | nil => exact ⟨[], rfl⟩
  | cons a as ih =>
    obtain ⟨⟨o, ho⟩, has⟩ := List.forall_mem_cons.1 h
    obtain ⟨bs, hbs⟩ := ih has
    simp only [List.filterMapM_cons, step_bind_eq_ok, step_lift_eq_ok]
    cases o with
    | none => exact ⟨bs, none, s, ⟨ho, rfl⟩, hbs⟩
    | some b => exact ⟨b :: bs, some b, s, ⟨ho, rfl⟩, step_bind_eq_ok.2 ⟨bs, s, hbs, rfl⟩⟩

theorem forM_leaveAt_runs (ds : List Destination) (x : Snapshot) (s : State) :
    Runs (ds.forM (leaveAt x)) s := by
  induction ds generalizing s with
  | nil => exact runs_pure _ _
  | cons d ds ih => exact runs_bind (leaveAt_eq x d s) (ih _)

theorem route_eq_ok (hw : Regular w) (hc : w.program.contexts.get? scope.context = some c)
    {b t : BlockId} {block : Block} (hb : c.blocks.get? b = some block) (ht : t ∈ block.liveSuccs) :
    ∃ d, route w scope b t = .ok d := by
  obtain ⟨succ, hsucc, rfl⟩ := List.mem_map.1 ht
  obtain ⟨o, ho⟩ := hw.linked.edgeOwner_exists hc hb (List.mem_of_mem_filter hsucc)
  rw [route, Program.context_eq_ok.2 hc, ok_bind]
  split
  · exact ⟨_, rfl⟩
  rw [ho]
  dsimp only
  split
  · exact ⟨_, rfl⟩
  split
  · exact ⟨_, rfl⟩
  · exact ⟨none, rfl⟩

theorem finishBlock_runs (hw : Regular w) (hc : w.program.contexts.get? scope.context = some c)
    {b : BlockId} {block : Block} (hb : c.blocks.get? b = some block) {f : ContextId}
    (hx : x.owners = f :: cs) (s : State) : Runs (finishBlock w scope block x) s := by
  unfold finishBlock
  split
  · dsimp only
    split
    · exact runs_pure _ _
    · refine runs_bind rfl ?_
      obtain ⟨y, hy⟩ := exists_popFrame x s.clock hx
      exact runs_lift_bind hy ⟨_, _, rfl⟩
  · exact runs_pure _ _
  · have hroute : ∀ t ∈ block.liveSuccs, ∃ d, route w scope block.id t = .ok d := fun t ht => by
      rw [hw.linked.block_id hc hb]
      exact route_eq_ok hw hc hb ht
    obtain ⟨ds, hds⟩ := filterMapM_lift_runs hroute s
    exact runs_bind hds (forM_leaveAt_runs ds x s)

/-! ## Walks that succeed -/

/-- The walk stands in the context `k`, on a stack that leaves room for `n` more contexts. -/
structure Ready (w : Setting) (base : List ContextId) (n : Nat) (stack cs : List ContextId)
    (H : List Snapshot) (k : ContextId) (s : State) : Prop where
  stacked : Stacked w s.firstCalls (k :: stack)
  room : w.program.contexts.size < n + (stack.length + 1)
  frames : FramesOf w base s.firstCalls (w.layout.functionRoot k) cs
  balanced : Balanced w base s
  kept : Kept s H

variable {n : Nat} {inner : Scope → Step Unit} {H' : List Snapshot}

namespace Ready

theorem next (h : Ready w base n stack cs H k s) (hs : Balanced w base s')
    (hext : Extends s.firstCalls s'.firstCalls) (hH : Kept s' H') :
    Ready w base n stack cs H' k s' :=
  ⟨h.stacked.extend hext, h.room, h.frames.extend hext, hs, hH⟩

theorem leave (h : Ready w base n stack cs H k s) (hx : Fits cs x) (hxH : x ∈ H) (b : BlockId) :
    Ready w base n stack cs H k (s.leave x (.block k b)) :=
  h.next (h.balanced.leave (k := .block k b) h.frames hx) (extends_of_eq (firstCalls_leave _ _ _))
    (h.kept.leave hxH _)

/-- A context is entered, from a call or as an iteration. -/
theorem enter {cs' : List ContextId} (h : Ready w base (n + 1) stack cs H k s)
    (hext : Extends s.firstCalls calls) (he : EntersFrom w calls e k)
    (hframes : FramesOf w base calls (w.layout.functionRoot e) cs') :
    Ready w base n (k :: stack) cs' H e { s with firstCalls := calls } where
  stacked := .push (h.stacked.extend hext) he
  room := by
    have := h.room
    rw [List.length_cons]
    omega
  frames := hframes
  balanced := h.balanced.enter hext
  kept := h.kept.still (Nat.le_refl _) fun j => by cases j <;> rfl

/-- The walk is back from an iteration. -/
theorem exit (h : Ready w base n (k :: stack) cs H e s)
    (hroot : w.layout.functionRoot e = w.layout.functionRoot k) :
    Ready w base (n + 1) stack cs H k s where
  stacked := by
    cases h.stacked with
    | push hstack _ => exact hstack
  room := by
    have := h.room
    rw [List.length_cons] at this
    omega
  frames := hroot ▸ h.frames
  balanced := h.balanced
  kept := h.kept

/-- What waits in a bin of the function is picked up. -/
theorem pick (hw : Regular w) (h : Ready w base n stack cs H k s) {j : Bin}
    (hj : w.layout.functionRoot j.context = w.layout.functionRoot k) :
    ∃ out s' H', meet (s.bin j) (s.clear j) = .ok (out, s') ∧ H ⊆ H' ∧
      Ready w base n stack cs H' k s' ∧
      ∀ y ∈ out, y ∈ H' ∧ Fits (j.frames w.layout fun _ => cs) y := by
  have hframes : FramesOf w base s.firstCalls (w.layout.functionRoot j.context) cs :=
    hj.symm ▸ h.frames
  obtain ⟨out, s', hmeet⟩ := meet_runs (h.kept.clear j) (h.kept.mem j)
    (h.balanced.fits hw.linked hw.rootFree hframes)
  obtain ⟨hpick, H', hsub, hkept, hout⟩ := pick_spec hmeet h.kept
  obtain ⟨hbalanced, hcalls, hfits⟩ := h.balanced.pick hw.linked hw.rootFree hpick hframes
  exact ⟨out, s', H', hmeet, hsub, h.next hbalanced (extends_of_eq hcalls) hkept,
    fun y hy => ⟨hout y hy, hfits y hy⟩⟩

end Ready

/-- `inner` walks the regions of a context, and succeeds where the stack leaves room for `n` more
contexts. -/
structure Inner (w : Setting) (base : List ContextId) (n : Nat) (inner : Scope → Step Unit) :
    Prop where
  walk : IsWalk w inner
  runs : ∀ {scope stack cs H s}, Ready w base n stack cs H scope.context s → Runs (inner scope) s

namespace Inner

section

variable (hw : Regular w) (h : Inner w base n inner)

include hw h

theorem goes (scope : Scope) (hr : Ready w base n stack cs H scope.context s) :
    ∃ s' H', inner scope s = .ok ((), s') ∧ H ⊆ H' ∧
      Ready w base n stack cs H' scope.context s' := by
  obtain ⟨⟨⟩, s', hinner⟩ := h.runs hr
  obtain ⟨⟨c, hc, hwalk⟩, H', hsub, hkept, -⟩ := h.walk _ _ _ _ _ hinner hr.kept
  obtain ⟨hbalanced, hext⟩ := hwalk.balanced hw c cs (Program.context_eq_ok.1 hc)
    (fun _ hinfo => hinfo) hr.frames hr.balanced
  exact ⟨s', H', hinner, hsub, hr.next hbalanced hext hkept⟩

theorem function_runs {loops : List ActiveLoop} {suppressed : Bool}
    (hr : Ready w base n stack (g :: cs) H g s) (hx : Fits cs x) (hxH : x ∈ H) :
    Runs (walkFunction w inner g loops suppressed x) s := by
  obtain ⟨d, hd⟩ := hr.stacked.exists hw g List.mem_cons_self
  let s₁ : State := { s with
    clock := s.clock + 1
    findings := { s.findings with walked := s.findings.walked.insert g } }
  have hkept : Kept s₁ (x.pushFrame s.clock g :: H) :=
    hr.kept.make (.pushFrame (.held hxH) g) (Nat.lt_succ_self s.clock) fun j => by cases j <;> rfl
  have hready : Ready w base n stack (g :: cs) (x.pushFrame s.clock g :: H) g s₁ :=
    hr.next (hr.balanced.still ⟨fun j => by cases j <;> rfl, rfl, rfl, rfl, id⟩)
      (extends_of_eq rfl) hkept
  obtain ⟨s₂, H₂, hbody, -, hready₂⟩ := goes hw h ⟨g, loops, suppressed⟩
    (hready.leave (hx.pushFrame s.clock g) List.mem_cons_self d.entry)
  obtain ⟨out, s', -, hpick, -⟩ := hready₂.pick hw (j := .returns g) rfl
  refine runs_lift_bind (Program.context_eq_ok.2 hd) (runs_bind rfl (runs_bind rfl ?_))
  exact runs_bind rfl (runs_bind hbody ⟨out, s', hpick⟩)

theorem call_runs {certain : Bool} {inst : Instr} {site : CallSite} {b : BlockId} {block : Block}
    (hc : w.program.contexts.get? scope.context = some c) (hb : c.blocks.get? b = some block)
    (hinst : inst ∈ block.insts) (hcallee : inst.op.callee? = some g)
    (hr : Ready w base (n + 1) stack cs H scope.context s) (hx : Fits cs x) (hxH : x ∈ H) :
    Runs (walkCall w inner scope certain inst.id site g x) s := by
  refine runs_bind rfl ?_
  dsimp only
  split
  · exact ⟨_, _, rfl⟩
  next hsame =>
  have hown : ∀ i, s.firstCalls.get? g = some i → i = inst.id := fun i hi => by
    simpa [hi] using hsame
  have hcontains : w.program.Contains w.layout (w.layout.functionRoot scope.context) inst :=
    ⟨_, c, b, block, hc, rfl, hb, hinst⟩
  obtain ⟨d, hd, -⟩ := hw.linked.callee hc hb hinst hcallee
  obtain ⟨i, hi⟩ := List.mem_iff_getElem?.1 hinst
  have hframes := hr.frames.call hcontains hcallee hown
  have hready : Ready w base n (scope.context :: stack) (g :: cs) H g
      { s with firstCalls := s.firstCalls.insert g inst.id } :=
    hr.enter (extends_insert hown) (.inr ⟨b, i, inst, ⟨c, block, hc, hb, hi, hcallee⟩, by
      rw [Table.get?_insert, if_pos rfl]⟩)
      (by rwa [hw.linked.functionRoot_of_callee hcontains hcallee])
  obtain ⟨y, s₁, hfunction⟩ : Runs (walkFunction w inner g scope.loops
      (scope.suppressed || !d.materialized) x) _ := function_runs hw h hready hx hxH
  refine runs_bind rfl (runs_lift_bind (Program.context_eq_ok.2 hd) (runs_bind hfunction ?_))
  cases y with
  | none => exact runs_pure _ _
  | some y =>
    have hgo : Runs (if (!scope.suppressed && certain) = true then do
          promote w inst.id site.result
          pure (some y)
        else pure (some y) : Step (Option Snapshot)) s₁ := by
      split
      · exact (promote_runs _ _ _).then fun _ _ => runs_pure _ _
      · exact runs_pure _ _
    refine runs_bind rfl ?_
    split
    · exact runs_bind rfl hgo
    · obtain ⟨lost, hlost⟩ := hw.linked.grounded.isTentative_eq_ok hd s₁.findings
      refine runs_lift_bind hlost ?_
      cases lost with
      | false => exact hgo
      | true =>
        obtain ⟨_, s₂, hsilence⟩ := silence_runs (w := w) inst.id site.result.values s₁
        exact runs_bind (a := ()) (step_discard_eq_ok.2 ⟨_, hsilence⟩) ⟨_, _, rfl⟩

/-- Instructions of a block are walked, to what is trusted after them. -/
theorem instrs (certain : Bool) {insts : List Instr} {b : BlockId} {block : Block}
    (hc : w.program.contexts.get? scope.context = some c) (hb : c.blocks.get? b = some block)
    (hinsts : insts ⊆ block.insts) (hr : Ready w base (n + 1) stack cs H scope.context s)
    (hx : Fits cs x) (hxH : x ∈ H) :
    ∃ out s' H', walkInstrs w inner scope certain insts x s = .ok (out, s') ∧
      Ready w base (n + 1) stack cs H' scope.context s' ∧ ∀ y ∈ out, y ∈ H' ∧ Fits cs y := by
  have hcontains : ∀ inst ∈ insts,
      w.program.Contains w.layout (w.layout.functionRoot scope.context) inst := fun inst hinst =>
    ⟨_, c, b, block, hc, rfl, hb, hinsts hinst⟩
  suffices Runs (walkInstrs w inner scope certain insts x) s by
    obtain ⟨out, s', hwalks⟩ := this
    obtain ⟨hwalk, H', -, hkept, hout⟩ := h.walk.instrs hwalks hr.kept hxH
    obtain ⟨hbalanced, hext, hfits⟩ := hwalk.balanced hw cs hcontains hr.frames hx hr.balanced
    exact ⟨out, s', H', hwalks, hr.next hbalanced hext hkept, fun y hy => ⟨hout y hy, hfits y hy⟩⟩
  clear hcontains
  induction insts generalizing x s H with
  | nil => exact runs_pure _ _
  | cons inst insts ih =>
    obtain ⟨hinst, hinsts⟩ := List.cons_subset.1 hinsts
    cases hcallee : inst.op.callee? with
    | none =>
      obtain ⟨y, s₁, hvisit⟩ := visitInstr_runs (w := w) certain inst x s
      obtain ⟨hvisits, H₁, -, hkept, hy⟩ := visitInstr_spec hvisit hr.kept hxH
      obtain ⟨hbalanced, hcalls⟩ := hr.balanced.visit hvisits
      rw [walkInstrs_instr hcallee]
      exact runs_bind hvisit (ih hinsts (hr.next hbalanced (extends_of_eq hcalls) hkept)
        (hx.visit hvisits) (hy y rfl))
    | some g =>
      obtain ⟨site, heq⟩ :
          ∃ site, ∀ insts x, walkInstrs w inner scope certain (inst :: insts) x = _ :=
        walkInstrs_call hcallee
      obtain ⟨z, s₁, hcall⟩ : Runs (walkCall w inner scope certain inst.id site g x) s :=
        call_runs hw h hc hb hinst hcallee hr hx hxH
      obtain ⟨hheads, H₁, -, hkept, hz⟩ := h.walk.call hcallee hcall hr.kept hxH
      rw [heq]
      refine runs_bind hcall ?_
      cases z with
      | none => exact runs_pure _ _
      | some z =>
        have hone : Walks w (.instrs scope certain [inst] x) s (some z) s₁ :=
          hheads [] _ _ .noInstr
        obtain ⟨hbalanced, hext, hfits⟩ := hone.balanced hw cs
          (List.forall_mem_singleton.2 ⟨_, c, b, block, hc, rfl, hb, hinst⟩) hr.frames hx
          hr.balanced
        exact ih hinsts (hr.next hbalanced hext hkept) (hfits z rfl) (hz z rfl)

omit h in
theorem conditionsAt_eq_ok (hc : w.program.contexts.get? k = some c) (b : BlockId) :
    ∃ conds, conditionsAt w k b = .ok conds := by
  obtain ⟨d, hd, -⟩ := hw.linked.functionRoot_exists hc
  rw [conditionsAt, Program.context_eq_ok.2 hd, ok_bind]
  split <;> exact ⟨_, rfl⟩

omit hw h in
theorem conditions_runs {conds : List PathCondition}
    (hconds : ∀ cond ∈ conds, ∀ g, cond.fact ≠ .checker g) :
    Runs (conds.foldlM (applyCondition w inner scope) x) s := by
  induction conds generalizing x s with
  | nil => exact runs_pure _ _
  | cons cond conds ih =>
    obtain ⟨hcond, hconds⟩ := List.forall_mem_cons.1 hconds
    have hfirst : Runs (applyCondition w inner scope x cond) s := by
      unfold applyCondition
      cases hfact : cond.fact with
      | bytes ptr offset len => exact ⟨_, _, rfl⟩
      | checker g => exact (hcond g hfact).elim
    rw [List.foldlM_cons]
    exact hfirst.then fun _ _ => ih hconds

theorem block_runs {b : BlockId} {block : Block}
    (hc : w.program.contexts.get? scope.context = some c) (hb : c.blocks.get? b = some block)
    (hr : Ready w base (n + 1) stack cs H scope.context s) :
    Runs (walkBlock w inner scope b) s := by
  obtain ⟨x, s₁, H₁, hpick, -, hr₁, hx⟩ := hr.pick hw (j := .block scope.context b) rfl
  refine runs_lift_bind (Program.block_eq_ok.2 ⟨c, hc, hb⟩) (runs_bind hpick ?_)
  cases x with
  | none => exact runs_pure _ _
  | some x =>
    obtain ⟨hxH, hfits⟩ := hx x rfl
    obtain ⟨conds, hconds⟩ := conditionsAt_eq_ok hw hc b
    have hplain : ∀ cond ∈ conds, ∀ g, cond.fact ≠ .checker g := fun cond hcond =>
      hw.noChecker cond (conditionsAt_subset hconds hcond)
    obtain ⟨y, s₂, hcond⟩ : Runs (conds.foldlM (applyCondition w inner scope) x) s₁ :=
      conditions_runs hplain
    obtain ⟨hwalk, H₂, -, hkept₂, hy⟩ := h.walk.conditions hcond hr₁.kept hxH
    obtain ⟨hbalanced₂, hext₂, hfits₂⟩ := hwalk.balanced hw cs hplain hfits hr₁.balanced
    obtain ⟨z, s₃, H₃, hinsts, -, hz⟩ := instrs hw h block.certain hc hb
      (List.Subset.refl _) (hr₁.next hbalanced₂ hext₂ hkept₂) (hfits₂ y rfl) (hy y rfl)
    refine runs_lift_bind hconds (runs_bind hcond (runs_bind hinsts ?_))
    cases z with
    | none => exact runs_pure _ _
    | some z =>
      obtain ⟨cs', rfl⟩ := hr.frames.eq_cons
      exact finishBlock_runs hw hc hb (hz z rfl).2.owners s₃

theorem iterations_runs {ks : List ContextId} {x : Option Snapshot}
    (hks : ∀ it ∈ ks, w.program.Encloses it scope.context)
    (hr : Ready w base (n + 1) stack cs H scope.context s) (hx : ∀ y ∈ x, y ∈ H ∧ Fits cs y) :
    Runs (walkIterations w inner scope ks x) s := by
  induction ks generalizing x s H with
  | nil => cases x <;> exact runs_pure _ _
  | cons it ks ih =>
    obtain ⟨hit, hks⟩ := List.forall_mem_cons.1 hks
    cases x with
    | none => exact runs_pure _ _
    | some x =>
      obtain ⟨hxH, hfits⟩ := hx x rfl
      obtain ⟨d, hd, -⟩ := id hit
      have hroot := hw.linked.functionRoot_of_encloses hit
      let s₁ : State :=
        { s with findings := { s.findings with walked := s.findings.walked.insert it } }
      have hr₁ : Ready w base (n + 1) stack cs H scope.context s₁ :=
        hr.next (hr.balanced.still ⟨fun j => by cases j <;> rfl, rfl, rfl, rfl, id⟩)
          (extends_of_eq rfl) (hr.kept.still (Nat.le_refl _) fun j => by cases j <;> rfl)
      have hready : Ready w base n (scope.context :: stack) cs H it s₁ :=
        hr₁.enter (fun _ _ => id) (.inl hit) (hroot.symm ▸ hr₁.frames)
      obtain ⟨s₂, H₂, hbody, -, hready₂⟩ := goes hw h
        ⟨it, scope.loops, scope.suppressed || !d.materialized⟩ (hready.leave hfits hxH d.entry)
      obtain ⟨y, s₃, H₃, hpick, -, hready₃, hy⟩ := hready₂.pick hw (j := .back it) rfl
      refine runs_lift_bind (Program.context_eq_ok.2 hd) (runs_bind rfl (runs_bind rfl ?_))
      exact runs_bind hbody (runs_bind hpick (ih hks (hready₃.exit hroot) hy))

theorem after_regions {rs : List Region} {u : Unit}
    (hwalks : walkRegions w inner scope rs s = .ok (u, s'))
    (hc : w.program.contexts.get? scope.context = some c)
    (hloops : ∀ info ∈ loopsAll rs, info ∈ c.loops)
    (hr : Ready w base (n + 1) stack cs H scope.context s) :
    ∃ H', H ⊆ H' ∧ Ready w base (n + 1) stack cs H' scope.context s' := by
  obtain ⟨hwalk, H', hsub, hkept, -⟩ := h.walk.regions rs hwalks hr.kept
  obtain ⟨hbalanced, hext⟩ := hwalk.balanced hw c cs hc hloops hr.frames hr.balanced
  exact ⟨H', hsub, hr.next hbalanced hext hkept⟩

end

mutual

/-- A region of the context at hand is walked. -/
theorem region_runs (hw : Regular w) (h : Inner w base n inner) {stack cs : List ContextId}
    {c : Context} (r : Region) {scope : Scope} {rs : List Region} {later : List BlockId}
    {around : List Loop} {H : List Snapshot} {s : State}
    (hc : w.program.contexts.get? scope.context = some c) (hcut : Cut c (r :: rs) later around)
    (hr : Ready w base (n + 1) stack cs H scope.context s) :
    Runs (walkRegion w inner scope r) s := by
  match r with
  | .block b =>
    obtain ⟨block, hb⟩ := hw.linked.cut_block hc hcut
    rw [walkRegion]
    exact block_runs hw h hc hb hr
  | .loop info body =>
    have hinfo : info ∈ c.loops := Program.Linked.cut_mem_loops hcut
    obtain ⟨x, s₁, H₁, hpick, -, hr₁, hx⟩ := hr.pick hw (j := .block scope.context info.header) rfl
    rw [walkRegion]
    refine runs_bind hpick ?_
    cases hpeel : info.terminatedPeel? with
    | some peel =>
      refine iterations_runs hw h (fun it hit => ?_) hr₁ hx
      obtain ⟨i, hi⟩ := List.mem_iff_getElem?.1 hit
      exact hw.linked.iteration_encloses hc hinfo hpeel hi
    | none =>
      cases x with
      | none => exact runs_pure _ _
      | some first =>
        obtain ⟨hfirstH, hfirst⟩ := hx first rfl
        obtain ⟨-, latch, hlatch⟩ := hw.linked.latch_spec hc hinfo hpeel
        refine runs_lift_bind (Program.block_eq_ok.2 ⟨c, hc, hlatch⟩) ?_
        have hbody := hcut.body hpeel
        have hstart := hr₁.leave hfirst hfirstH info.header
        split
        · exact runs_bind rfl (regions_runs hw h body hc hbody hstart)
        · obtain ⟨⟨⟩, s₂, hpass⟩ :
              Runs (walkRegions w inner (scope.over info body .first) body) _ :=
            regions_runs hw h body hc hbody hstart
          obtain ⟨H₂, hsub₂, hr₂⟩ :=
            after_regions hw h hpass hc (Program.Linked.cut_loops hbody) hstart
          obtain ⟨y, s₃, H₃, hagain, hsub₃, hr₃, hy⟩ :=
            hr₂.pick hw (j := .block scope.context info.header) rfl
          have hmem : ∀ z ∈ first :: y.toList, z ∈ H₃ ∧ Fits cs z := by
            rw [List.forall_mem_cons]
            exact ⟨⟨hsub₃ (hsub₂ hfirstH), hfirst⟩, fun z hz => hy z (Option.mem_toList.1 hz)⟩
          obtain ⟨second, s₄, hmeet⟩ :=
            meet_runs hr₃.kept (fun z hz => (hmem z hz).1) fun z hz => (hmem z hz).2
          refine runs_bind rfl (runs_bind hpass (runs_bind hagain (runs_bind hmeet ?_)))
          cases second with
          | none => exact runs_pure _ _
          | some second =>
            obtain ⟨hstill, hpickUp, H₄, -, hkept₄, hsecond⟩ :=
              meet_spec hmeet hr₃.kept fun z hz => (hmem z hz).1
            have hr₄ := hr₃.next (hr₃.balanced.still hstill) (extends_of_eq hstill.firstCalls)
              hkept₄
            have hfits : Fits cs second := Fits.meet hpickUp fun z hz => (hmem z hz).2
            obtain ⟨⟨⟩, s₅, hlast⟩ :
                Runs (walkRegions w inner (scope.over info body .second) body) _ :=
              regions_runs hw h body hc hbody (hr₄.leave hfits (hsecond second rfl) info.header)
            exact runs_bind rfl (runs_bind hlast ⟨_, _, rfl⟩)

/-- The regions from a cut on are walked. -/
theorem regions_runs (hw : Regular w) (h : Inner w base n inner) {stack cs : List ContextId}
    {c : Context} (rs : List Region) {scope : Scope} {later : List BlockId}
    {around : List Loop} {H : List Snapshot} {s : State}
    (hc : w.program.contexts.get? scope.context = some c) (hcut : Cut c rs later around)
    (hr : Ready w base (n + 1) stack cs H scope.context s) :
    Runs (walkRegions w inner scope rs) s := by
  match rs with
  | [] =>
    rw [walkRegions]
    exact runs_pure _ _
  | r :: rs =>
    obtain ⟨⟨⟩, s₁, hregion⟩ := region_runs hw h r hc hcut hr
    obtain ⟨hwalk, H₁, -, hkept, -⟩ := h.walk.region r hregion hr.kept
    obtain ⟨hbalanced, hext⟩ := hwalk.balanced hw c cs hc
      (fun info hinfo => Program.Linked.cut_loops hcut info (List.mem_append_left _ hinfo))
      hr.frames hr.balanced
    rw [walkRegions]
    exact runs_bind hregion (regions_runs hw h rs hc hcut.next (hr.next hbalanced hext hkept))

end

end Inner

theorem inner_walkContext (hw : Regular w) (base : List ContextId) (depth : Nat) :
    Inner w base depth (walkContext w depth) := by
  induction depth with
  | zero =>
    refine ⟨isWalk_walkContext w 0, fun {scope stack cs H s} hr => ?_⟩
    -- the stack is as deep as it can be
    have hlen := hr.stacked.length_le hw
    have hroom := hr.room
    rw [List.length_cons] at hlen
    omega
  | succ depth ih =>
    refine ⟨isWalk_walkContext w (depth + 1), fun {scope stack cs H s} hr => ?_⟩
    obtain ⟨c, hc⟩ := hr.stacked.exists hw scope.context List.mem_cons_self
    exact runs_lift_bind (Program.context_eq_ok.2 hc) (ih.regions_runs hw c.regions hc .top hr)

/-- A run on a state where nothing waits succeeds, leaves the frames as it found them, and enters
no loop with more trust in the second pass than in the first. -/
theorem Regular.run_eq_ok (hw : Regular w) (hx : x ∈ H) (hH : Kept s H) (hbins : ∀ j, s.bin j = [])
    (hentries : s.findings.loopEntries = []) :
    ∃ out s', run w x s = .ok (out, s') ∧ (∀ y ∈ out, y.owners = x.owners) ∧
      ∀ e ∈ s'.findings.loopEntries, e.second.isBelow e.first = true := by
  obtain ⟨c, hc, hfun⟩ := hw.linked.root
  have hroot := hw.linked.functionRoot_of_isFunction hc hfun
  have hfits : Fits x.owners x := ⟨hH.canonical hx, rfl⟩
  have hbalanced : Balanced w x.owners s :=
    ⟨fun {j y} hy => by simp [hbins j] at hy, by simp [hentries]⟩
  -- no context is entered within itself
  obtain ⟨depth, hdepth⟩ : ∃ depth, w.program.contexts.size < depth := ⟨_, Nat.lt_succ_self _⟩
  have hready : Ready w x.owners depth [] (w.program.root :: x.owners) H w.program.root s :=
    ⟨.root, Nat.lt_succ_of_lt hdepth, hroot.symm ▸ .root, hbalanced, hH⟩
  have hinner := inner_walkContext hw x.owners depth
  obtain ⟨out, s', hfunction⟩ : Runs (walkFunction w (walkContext w depth)
      w.program.root [] (!c.materialized) x) s := hinner.function_runs hw hready hfits hx
  obtain ⟨hwalk, -⟩ := hinner.walk.function hfunction hH hx
  obtain ⟨hs', -, hout⟩ := hwalk.balanced hw x.owners hroot .root hfits hbalanced
  refine ⟨out, s', run_eq_ok_iff.2 ⟨depth, ?_⟩, fun y hy => (hout y hy).owners, hs'.entries⟩
  rw [runTo, Program.context_eq_ok.2 hc]
  have hid : c.id = w.program.root := hw.linked.own _ _ hc
  rw [← hid] at hfunction
  exact hfunction

theorem bin_fresh (now : Stamp) (references : References) (j : Bin) :
    State.bin { clock := now, references := references } j = [] := by
  cases j <;> rfl

theorem kept_fresh {now : Stamp} (hH : History now H) (references : References) :
    Kept { clock := now, references := references } H :=
  ⟨hH, fun j y hy => by simp [bin_fresh] at hy⟩

/-- A fresh walk through a linked program succeeds, whatever references are missing: the exit has
the frames of the entry, and no loop is entered with more trust in the second pass than in the
first. -/
theorem run_completes {p₀ : Program} (hlink : p₀.link = .ok w.program)
    (hlayout : Layout.ofProgram w.program = .ok w.layout) (hown : w.program.OwnNames)
    (hroot : w.program.RootFree)
    (hcond : ∀ cond ∈ w.program.pathConditions, ∀ g, cond.fact ≠ .checker g) {now : Stamp}
    (hH : History now H) (hx : x ∈ H) (references : References) :
    ∃ out s', run w x { clock := now, references := references } = .ok (out, s') ∧
      (∀ y ∈ out, y.owners = x.owners) ∧
      ∀ e ∈ s'.findings.loopEntries, e.second.isBelow e.first = true :=
  Regular.run_eq_ok ⟨Program.linked_of_link hlink hlayout hown, hroot, hcond⟩ hx
    (kept_fresh hH references) (bin_fresh now references) rfl

/-- A call of a context. -/
def callOf (id : Nat) (callee : ContextId) : Instr :=
  ⟨⟨id⟩, .call { callee := some callee }, false, .none, true⟩

/-- A function of one block. -/
def oneBlock (n : Nat) (insts : List Instr) : ContextId × Context :=
  (⟨n⟩,
    { id := ⟨n⟩
      kind := .function ⟨n⟩ "f" []
      blocks := .ofList [(⟨0⟩, { id := ⟨0⟩, insts := insts, terminator := .ret })]
      regions := [.block ⟨0⟩]
      entry := ⟨0⟩ })

/-- A program with a loop in its main function. -/
def looping (body : List Instr) (functions : List (ContextId × Context)) : Program where
  objects := .ofList [(⟨0⟩, ⟨⟨0⟩, .heap, some 8, none⟩), (⟨1⟩, ⟨⟨1⟩, .heap, some 8, none⟩)]
  contexts := .ofList ((⟨0⟩,
    { id := ⟨0⟩
      kind := .function ⟨0⟩ "main" []
      blocks := .ofList [
        (⟨0⟩, { id := ⟨0⟩, succs := [⟨⟨1⟩, true⟩] }),
        (⟨1⟩,
          { id := ⟨1⟩
            insts := body
            succs := [⟨⟨1⟩, true⟩, ⟨⟨2⟩, true⟩]
            preds := [⟨0⟩, ⟨1⟩] }),
        (⟨2⟩, { id := ⟨2⟩, preds := [⟨1⟩], terminator := .ret })]
      regions := [.block ⟨0⟩,
        .loop { id := ⟨0⟩, preheader := ⟨0⟩, header := ⟨1⟩, latch := ⟨1⟩, blocks := .ofList [⟨1⟩] }
          [.block ⟨1⟩],
        .block ⟨2⟩]
      entry := ⟨0⟩ }) :: functions)
  root := ⟨0⟩

/-- The walk through a program, once it is linked. -/
def linkedSetting (p : Program) : Setting :=
  let linked := p.link.toOption.getD p
  { program := linked, layout := (Layout.ofProgram linked).toOption.getD {}, settings := {} }

theorem linkedSetting_spec {p : Program}
    (h : Yields p.link fun q => Yields (Layout.ofProgram q) fun _ => True) :
    p.link = .ok (linkedSetting p).program ∧
      Layout.ofProgram (linkedSetting p).program = .ok (linkedSetting p).layout := by
  obtain ⟨q, hq, l, hl, -⟩ := h
  simp [linkedSetting, hq, hl, Except.toOption]

/-- The function called in the loop calls itself through another one, where the walk goes no
deeper. -/
theorem run_completes_circle :
    let p := looping [loadAll 0 (.known (.scalar 1)), callOf 1 ⟨1⟩]
      [oneBlock 1 [callOf 2 ⟨2⟩], oneBlock 2 [callOf 3 ⟨1⟩]]
    let w := linkedSetting p
    Yields (run w ((Snapshot.trusting 0).pushFrame 1 ⟨9⟩) { clock := 2 }) fun r =>
      (∀ y ∈ r.1, y.owners = [⟨9⟩]) ∧ r.2.findings.sharedCalls.length = 2 ∧
        ∃ e ∈ r.2.findings.loopEntries, e.second.isBelow e.first = true := by
  intro p w
  obtain ⟨hlink, hlayout⟩ := linkedSetting_spec (p := p) (by decide +kernel)
  have hown : w.program.OwnNames := fun k c hc =>
    (by decide +kernel : ∀ e ∈ w.program.contexts.entries, e.2.id = e.1) (k, c)
      (Table.mem_entries.2 hc)
  have hroot : w.program.RootFree := by
    unfold Program.RootFree
    decide +kernel
  have hcond : ∀ cond ∈ w.program.pathConditions, ∀ g, cond.fact ≠ .checker g := by
    rw [show w.program.pathConditions = [] by decide +kernel]
    nofun
  have hH : History 2 [(Snapshot.trusting 0).pushFrame 1 ⟨9⟩, .trusting 0] :=
    ((History.start 0).next .trusting).next (.pushFrame (.held List.mem_cons_self) ⟨9⟩)
  obtain ⟨out, s', hrun, howners, hentries⟩ := run_completes hlink hlayout hown hroot
    hcond hH List.mem_cons_self {}
  have hyields : Yields (run w ((Snapshot.trusting 0).pushFrame 1 ⟨9⟩) { clock := 2 }) fun r =>
      r.2.findings.sharedCalls.length = 2 ∧ ∃ e ∈ r.2.findings.loopEntries, e.context = ⟨0⟩ :=
    yields_run 5 (by decide +kernel)
  obtain ⟨r, hr, hshared, e, he, -⟩ := hyields
  obtain rfl : (out, s') = r := Except.ok.inj (hrun.symm.trans hr)
  exact ⟨_, hrun, howners, hshared, e, he, hentries e he⟩

end Walk

end ByteTrust
