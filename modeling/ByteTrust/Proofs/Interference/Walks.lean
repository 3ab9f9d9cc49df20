import ByteTrust.Proofs.Interference.Bins

/-!
# The walk as a relation

`Walks w task s out s'` says that a walk does `task` from the state `s` to the state `s'` with the
outcome `out`: one rule for each way the walk can take, with exact meets where snapshots are picked
up. Whatever `Walk.run` does with success is such a walk (`walks_of_run`), so what holds of all
walks is shown by induction on the rules, without looking at the functions again.
-/

namespace ByteTrust

namespace Walk

open Snapshot

/-- What a walk is given to do. -/
inductive Task
  | regions (scope : Scope) (rs : List Region)
  | region (scope : Scope) (r : Region)
  /-- The iterations of a terminated peel, from what enters the first one. -/
  | iterations (scope : Scope) (cs : List ContextId) (x : Option Snapshot)
  /-- The path conditions on entry to a block. -/
  | conditions (scope : Scope) (conds : List PathCondition) (x : Snapshot)
  | instrs (scope : Scope) (certain : Bool) (insts : List Instr) (x : Snapshot)
  | function (c : ContextId) (loops : List ActiveLoop) (suppressed : Bool) (x : Snapshot)

/-- A loop is finished: what was dropped at its back edge is taken into the findings. -/
def State.close (s : State) (c : ContextId) (info : Loop) (first second : Snapshot) : State :=
  { s.clear (.closing c info.header) with
    findings := { s.findings with
      loopEntries := s.findings.loopEntries ++
        [⟨c, info.id, first, second, s.bin (.closing c info.header)⟩] } }

/-- The rules of the walk. -/
inductive Walks (w : Setting) : Task → State → Option Snapshot → State → Prop
  | nil {scope : Scope} {s : State} : Walks w (.regions scope []) s none s
  | cons {scope : Scope} {r : Region} {rs : List Region} {s s₁ s' : State}
      (hr : Walks w (.region scope r) s none s₁)
      (hrs : Walks w (.regions scope rs) s₁ none s') :
      Walks w (.regions scope (r :: rs)) s none s'
  /-- Nothing waits for a block. -/
  | skip {scope : Scope} {b : BlockId} {s s' : State}
      (hpick : Picks s (.block scope.context b) none s') :
      Walks w (.region scope (.block b)) s none s'
  | block {scope : Scope} {b : BlockId} {block : Block} {conds : List PathCondition}
      {x x₁ : Snapshot} {y : Option Snapshot} {s s₁ s₂ s₃ s' : State}
      (hblock : w.program.block scope.context b = .ok block)
      (hpick : Picks s (.block scope.context b) (some x) s₁)
      (hconds : conditionsAt w scope.context b = .ok conds)
      (hcond : Walks w (.conditions scope conds x) s₁ (some x₁) s₂)
      (hinsts : Walks w (.instrs scope block.certain block.insts x₁) s₂ y s₃)
      (hfinish : Finishes w scope block y s₃ s') :
      Walks w (.region scope (.block b)) s none s'
  | peel {scope : Scope} {info : Loop} {body : List Region} {peel : PeelAttempt}
      {x : Option Snapshot} {s s₁ s' : State} (hpeel : info.terminatedPeel? = some peel)
      (hpick : Picks s (.block scope.context info.header) x s₁)
      (hiterations : Walks w (.iterations scope peel.iterations x) s₁ none s') :
      Walks w (.region scope (.loop info body)) s none s'
  /-- Nothing waits for the header of a loop. -/
  | pass {scope : Scope} {info : Loop} {body : List Region} {s s' : State}
      (hpeel : info.terminatedPeel? = none)
      (hpick : Picks s (.block scope.context info.header) none s') :
      Walks w (.region scope (.loop info body)) s none s'
  /-- The back edge of a loop is never taken. -/
  | once {scope : Scope} {info : Loop} {body : List Region} {latch : Block} {x : Snapshot}
      {s s₁ s' : State} (hpeel : info.terminatedPeel? = none)
      (hpick : Picks s (.block scope.context info.header) (some x) s₁)
      (hlatch : w.program.block scope.context info.latch = .ok latch)
      (hback : latch.hasLiveEdgeTo info.header = false)
      (hbody : Walks w (.regions scope body) (s₁.leave x (.block scope.context info.header))
        none s') :
      Walks w (.region scope (.loop info body)) s none s'
  /-- Both passes over a loop. -/
  | twice {scope : Scope} {info : Loop} {body : List Region} {latch : Block}
      {first second : Snapshot} {again : Option Snapshot} {s s₁ s₂ s₃ s₄ s₅ : State}
      (hpeel : info.terminatedPeel? = none)
      (hpick : Picks s (.block scope.context info.header) (some first) s₁)
      (hlatch : w.program.block scope.context info.latch = .ok latch)
      (hback : latch.hasLiveEdgeTo info.header = true)
      (hfirst : Walks w (.regions (scope.over info body .first) body)
        (s₁.leave first (.block scope.context info.header)) none s₂)
      (hagain : Picks s₂ (.block scope.context info.header) again s₃)
      (hmeet : IsPickUp (first :: again.toList) (some second)) (hstill : Still s₃ s₄)
      (hsecond : Walks w (.regions (scope.over info body .second) body)
        (s₄.leave second (.block scope.context info.header)) none s₅) :
      Walks w (.region scope (.loop info body)) s none
        (s₅.close scope.context info first second)
  | lastIteration {scope : Scope} {x : Option Snapshot} {s : State} :
      Walks w (.iterations scope [] x) s none s
  | noIteration {scope : Scope} {cs : List ContextId} {s : State} :
      Walks w (.iterations scope cs none) s none s
  | iteration {scope : Scope} {k : ContextId} {c : Context} {ks : List ContextId} {x : Snapshot}
      {y : Option Snapshot} {s s₁ s₂ s₃ s' : State} (hc : w.program.context k = .ok c)
      (hstill : Still s s₁)
      (hbody : Walks w (.regions ⟨k, scope.loops, scope.suppressed || !c.materialized⟩ c.regions)
        (s₁.leave x (.block k c.entry)) none s₂)
      (hpick : Picks s₂ (.back k) y s₃)
      (hrest : Walks w (.iterations scope ks y) s₃ none s') :
      Walks w (.iterations scope (k :: ks) (some x)) s none s'
  | noCondition {scope : Scope} {x : Snapshot} {s : State} :
      Walks w (.conditions scope [] x) s (some x) s
  | bytes {scope : Scope} {cond : PathCondition} {conds : List PathCondition} {ptr : PointerValue}
      {offset : Int} {len : Nat} {now : Stamp} {x : Snapshot} {out : Option Snapshot}
      {s s₁ s' : State} (hfact : cond.fact = .bytes ptr offset len) (hstill : Still s s₁)
      (hrest : Walks w (.conditions scope conds
        (w.program.vouchUnless scope.suppressed now ptr offset len x)) s₁ out s') :
      Walks w (.conditions scope (cond :: conds) x) s out s'
  | checker {scope : Scope} {cond : PathCondition} {conds : List PathCondition} {c : ContextId}
      {x y : Snapshot} {z out : Option Snapshot} {s s₁ s₂ s' : State}
      (hfact : cond.fact = .checker c)
      (hchecker : Walks w (.function c scope.loops false x) s z s₁)
      (hy : ∃ now, y = z.getD (x.clobberAll now)) (hstill : Still s₁ s₂)
      (hrest : Walks w (.conditions scope conds y) s₂ out s') :
      Walks w (.conditions scope (cond :: conds) x) s out s'
  | noInstr {scope : Scope} {certain : Bool} {x : Snapshot} {s : State} :
      Walks w (.instrs scope certain [] x) s (some x) s
  | instr {scope : Scope} {certain : Bool} {inst : Instr} {insts : List Instr} {x y : Snapshot}
      {out : Option Snapshot} {s s₁ s' : State} (hcallee : inst.op.callee? = none)
      (hvisit : Visits w scope inst x s y s₁)
      (hrest : Walks w (.instrs scope certain insts y) s₁ out s') :
      Walks w (.instrs scope certain (inst :: insts) x) s out s'
  /-- The callee was walked from another call before. -/
  | shared {scope : Scope} {certain : Bool} {inst : Instr} {insts : List Instr}
      {callee : ContextId} {other : InstId} {now : Stamp} {x : Snapshot} {out : Option Snapshot}
      {s s₁ s' : State} (hcallee : inst.op.callee? = some callee)
      (hother : s.firstCalls.get? callee = some other) (hne : other ≠ inst.id)
      (hstill : Still s s₁)
      (hrest : Walks w (.instrs scope certain insts (x.clobberAll now)) s₁ out s') :
      Walks w (.instrs scope certain (inst :: insts) x) s out s'
  /-- The callee never returns. -/
  | stuck {scope : Scope} {certain : Bool} {inst : Instr} {insts : List Instr}
      {callee : ContextId} {c : Context} {x : Snapshot} {s s' : State}
      (hcallee : inst.op.callee? = some callee)
      (hown : ∀ i, s.firstCalls.get? callee = some i → i = inst.id)
      (hc : w.program.context callee = .ok c)
      (hfunction : Walks w (.function callee scope.loops (scope.suppressed || !c.materialized) x)
        { s with firstCalls := s.firstCalls.insert callee inst.id } none s') :
      Walks w (.instrs scope certain (inst :: insts) x) s none s'
  /-- The callee returns. Unless it is emitted, all trust may be lost. -/
  | call {scope : Scope} {certain : Bool} {inst : Instr} {insts : List Instr}
      {callee : ContextId} {c : Context} {x y z : Snapshot} {out : Option Snapshot}
      {s s₁ s₂ s' : State} (hcallee : inst.op.callee? = some callee)
      (hown : ∀ i, s.firstCalls.get? callee = some i → i = inst.id)
      (hc : w.program.context callee = .ok c)
      (hfunction : Walks w (.function callee scope.loops (scope.suppressed || !c.materialized) x)
        { s with firstCalls := s.firstCalls.insert callee inst.id } (some y) s₁)
      (hz : z = y ∨ c.materialized = false ∧ ∃ now, z = y.clobberAll now) (hstill : Still s₁ s₂)
      (hrest : Walks w (.instrs scope certain insts z) s₂ out s') :
      Walks w (.instrs scope certain (inst :: insts) x) s out s'
  | function {k : ContextId} {c : Context} {loops : List ActiveLoop} {suppressed : Bool}
      {now : Stamp} {x : Snapshot} {y : Option Snapshot} {s s₁ s₂ s' : State}
      (hc : w.program.context k = .ok c) (hstill : Still s s₁)
      (hbody : Walks w (.regions ⟨k, loops, suppressed⟩ c.regions)
        (s₁.leave (x.pushFrame now k) (.block k c.entry)) none s₂)
      (hpick : Picks s₂ (.returns k) y s') :
      Walks w (.function k loops suppressed x) s y s'

/-! ## From the functions to the relation -/

variable {w : Setting} {inner : Scope → Step Unit} {scope : Scope} {s s' : State}
  {x y : Snapshot} {out : Option Snapshot} {H H₁ : List Snapshot}

/-- What `inner` does with success is a walk through the regions of a context. -/
def IsWalk (w : Setting) (inner : Scope → Step Unit) : Prop :=
  ∀ scope s s' u H, inner scope s = .ok (u, s') → Kept s H →
    (∃ c, w.program.context scope.context = .ok c ∧ Walks w (.regions scope c.regions) s none s') ∧
      Carries H s' none

theorem IsWalk.function (hinner : IsWalk w inner) {k : ContextId} {loops : List ActiveLoop}
    {suppressed : Bool} (h : walkFunction w inner k loops suppressed x s = .ok (out, s'))
    (hH : Kept s H) (hx : x ∈ H) :
    Walks w (.function k loops suppressed x) s out s' ∧ Carries H s' out := by
  simp only [walkFunction, step_bind_eq_ok, step_lift_eq_ok, note_eq_ok, tick_eq_ok, leaveFor_eq,
    Except.ok.injEq, Prod.mk.injEq] at h
  obtain ⟨c, _, ⟨hc, rfl⟩, _, _, rfl, _, _, ⟨rfl, rfl⟩, _, _, ⟨-, rfl⟩, _, s₂, hbody, hpick⟩ := h
  have hkept : Kept { s with
      clock := s.clock + 1
      findings := { s.findings with walked := s.findings.walked.insert k } }
      (x.pushFrame s.clock k :: H) :=
    hH.make (.pushFrame (.held hx) k) (Nat.lt_succ_self s.clock) fun j => by cases j <;> rfl
  obtain ⟨⟨c', hc', hwalk⟩, H₂, hsub, hkept₂, -⟩ :=
    hinner _ _ _ _ _ hbody (hkept.leave List.mem_cons_self (.block k c.entry))
  obtain rfl : c = c' := Except.ok.inj (hc.symm.trans hc')
  rw [pickUpReturns_eq] at hpick
  obtain ⟨hpicks, hcarries⟩ := pick_spec hpick hkept₂
  refine ⟨.function hc ?_ hwalk hpicks,
    hcarries.mono fun z hz => hsub (List.mem_cons_of_mem _ hz)⟩
  exact ⟨fun j => by cases j <;> rfl, rfl, rfl, rfl, id⟩

theorem IsWalk.conditions (hinner : IsWalk w inner) {conds : List PathCondition}
    (h : conds.foldlM (applyCondition w inner scope) x s = .ok (y, s')) (hH : Kept s H)
    (hx : x ∈ H) :
    Walks w (.conditions scope conds x) s (some y) s' ∧ Carries H s' (some y) := by
  induction conds generalizing x s H with
  | nil =>
    obtain ⟨rfl, rfl⟩ := step_pure_eq_ok.1 h
    refine ⟨.noCondition, hH.carries ?_⟩
    rintro z ⟨⟩
    exact hx
  | cons cond conds ih =>
    rw [List.foldlM_cons, step_bind_eq_ok] at h
    obtain ⟨x₁, s₁, hcond, h⟩ := h
    unfold applyCondition at hcond
    cases hfact : cond.fact with
    | bytes ptr offset len =>
      simp only [hfact, step_bind_eq_ok, tick_eq_ok, step_pure_eq_ok] at hcond
      obtain ⟨_, _, ⟨rfl, rfl⟩, rfl, rfl⟩ := hcond
      have hkept := hH.tick (makes_vouchUnless (p := w.program) (.held hx) scope.suppressed ptr
        offset len)
      obtain ⟨hwalk, hcarries⟩ := ih h hkept List.mem_cons_self
      refine ⟨.bytes hfact ?_ hwalk, hcarries.mono (List.subset_cons_self _ H)⟩
      exact ⟨fun j => by cases j <;> rfl, rfl, rfl, rfl, id⟩
    | checker c =>
      simp only [hfact, step_bind_eq_ok] at hcond
      obtain ⟨z, s₂, hfunction, hcond⟩ := hcond
      obtain ⟨hwalk, H₂, hsub, hkept, hz⟩ := hinner.function hfunction hH hx
      cases z with
      | some z =>
        obtain ⟨rfl, rfl⟩ := step_pure_eq_ok.1 hcond
        obtain ⟨hrest, hcarries⟩ := ih h hkept (hz z rfl)
        exact ⟨.checker hfact hwalk ⟨0, rfl⟩ (.refl _) hrest, hcarries.mono hsub⟩
      | none =>
        simp only [step_bind_eq_ok, tick_eq_ok, step_pure_eq_ok] at hcond
        obtain ⟨_, _, ⟨rfl, rfl⟩, rfl, rfl⟩ := hcond
        have hkept₁ := hkept.tick (.clobberAll (.held (hsub hx)))
        obtain ⟨hrest, hcarries⟩ := ih h hkept₁ List.mem_cons_self
        refine ⟨.checker hfact hwalk ⟨_, rfl⟩ ?_ hrest,
          hcarries.mono fun z hz => List.mem_cons_of_mem _ (hsub hz)⟩
        exact ⟨fun j => by cases j <;> rfl, rfl, rfl, rfl, id⟩

theorem walkInstrs_instr {certain : Bool} {inst : Instr} {insts : List Instr}
    (h : inst.op.callee? = none) : walkInstrs w inner scope certain (inst :: insts) x =
      visitInstr w scope certain inst x >>= walkInstrs w inner scope certain insts := by
  rw [walkInstrs]
  cases hop : inst.op with
  | call site =>
    rw [hop] at h
    simp only [show site.callee = none from h, bind_map_left]
  | _ => simp only [bind_map_left]

theorem walkInstrs_call {certain : Bool} {inst : Instr} {callee : ContextId}
    (h : inst.op.callee? = some callee) :
    ∃ site, ∀ insts x, walkInstrs w inner scope certain (inst :: insts) x =
      walkCall w inner scope certain inst.id site callee x >>= fun after =>
        after.elim (pure none) (walkInstrs w inner scope certain insts) := by
  cases hop : inst.op with
  | call site =>
    rw [hop] at h
    refine ⟨site, fun insts x => ?_⟩
    rw [walkInstrs]
    simp only [hop, show site.callee = some callee from h]
    congr 1
    funext after
    cases after <;> rfl
  | _ =>
    rw [hop] at h
    cases h

/-- At the head of any list, an instruction takes the walk from `s` to `s'`. -/
def Heads (w : Setting) (scope : Scope) (certain : Bool) (inst : Instr) (x : Snapshot) (s : State) :
    Option Snapshot → State → Prop
  | none, s' => ∀ insts, Walks w (.instrs scope certain (inst :: insts) x) s none s'
  | some z, s' => ∀ insts out s'', Walks w (.instrs scope certain insts z) s' out s'' →
      Walks w (.instrs scope certain (inst :: insts) x) s out s''

theorem IsWalk.call (hinner : IsWalk w inner) {certain : Bool} {inst : Instr}
    {callee : ContextId} {site : CallSite} (hcallee : inst.op.callee? = some callee)
    (h : walkCall w inner scope certain inst.id site callee x s = .ok (out, s')) (hH : Kept s H)
    (hx : x ∈ H) :
    Heads w scope certain inst x s out s' ∧ Carries H s' out := by
  cases walkCall_cases h with
  | shared hother hne =>
    refine ⟨fun insts out' s'' hrest => .shared hcallee hother hne ?_ hrest,
      hH.carries_made (.clobberAll (.held hx)) (Nat.lt_succ_self s.clock)
        fun j => by cases j <;> rfl⟩
    exact ⟨fun j => by cases j <;> rfl, rfl, rfl, rfl, id⟩
  | stuck hown hc hfunction =>
    obtain ⟨hwalk, hcarries⟩ :=
      hinner.function hfunction (hH.still (Nat.le_refl _) fun j => by cases j <;> rfl) hx
    exact ⟨fun insts => .stuck hcallee hown hc hwalk, hcarries⟩
  | @returned _ y _ _ s₁ _ hown hc hfunction hlost hafter =>
    obtain ⟨hwalk, H₁, hsub, hkept, hy⟩ :=
      hinner.function hfunction (hH.still (Nat.le_refl _) fun j => by cases j <;> rfl) hx
    obtain ⟨rfl, b, s₂, hsilence, rfl, rfl⟩ | ⟨-, rfl, hpromote⟩ := afterCall_cases hafter
    · obtain ⟨hstill, hclock, -⟩ := silence_spec hsilence
      refine ⟨fun insts out' s'' hrest => .call hcallee hown hc hwalk
        (.inr ⟨(hlost.1 rfl).1, _, rfl⟩) ?_ hrest, ?_⟩
      · exact ⟨hstill.bin, hstill.needs, hstill.firstCalls, hstill.loopEntries, hstill.missing⟩
      · refine Carries.mono hsub ?_
        rw [hclock]
        exact hkept.carries_made (.clobberAll (.held (hy y rfl))) (Nat.lt_succ_self s₁.clock)
          hstill.bin
    · have hstill : Still s₁ s' ∧ s'.clock = s₁.clock := by
        obtain rfl | ⟨u, hpromote⟩ := hpromote
        · exact ⟨.refl _, rfl⟩
        · exact promote_spec hpromote
      exact ⟨fun insts out' s'' hrest => .call hcallee hown hc hwalk (.inl rfl) hstill.1 hrest,
        H₁, hsub, hkept.still (Nat.le_of_eq hstill.2.symm) hstill.1.bin, hy⟩

theorem IsWalk.instrs (hinner : IsWalk w inner) {certain : Bool} {insts : List Instr}
    (h : walkInstrs w inner scope certain insts x s = .ok (out, s')) (hH : Kept s H) (hx : x ∈ H) :
    Walks w (.instrs scope certain insts x) s out s' ∧ Carries H s' out := by
  induction insts generalizing x s H with
  | nil =>
    obtain ⟨rfl, rfl⟩ := step_pure_eq_ok.1 h
    refine ⟨.noInstr, hH.carries ?_⟩
    rintro z ⟨⟩
    exact hx
  | cons inst insts ih =>
    cases hcallee : inst.op.callee? with
    | none =>
      rw [walkInstrs_instr hcallee, step_bind_eq_ok] at h
      obtain ⟨y, s₁, hvisit, h⟩ := h
      obtain ⟨hvisits, H₁, hsub, hkept, hy⟩ := visitInstr_spec hvisit hH hx
      obtain ⟨hwalk, hcarries⟩ := ih h hkept (hy y rfl)
      exact ⟨.instr hcallee hvisits hwalk, hcarries.mono hsub⟩
    | some callee =>
      obtain ⟨site, heq⟩ :
          ∃ site, ∀ insts x, walkInstrs w inner scope certain (inst :: insts) x = _ :=
        walkInstrs_call hcallee
      rw [heq, step_bind_eq_ok] at h
      obtain ⟨z, s₁, hcall, h⟩ := h
      obtain ⟨hheads, H₁, hsub, hkept, hz⟩ := hinner.call hcallee hcall hH hx
      cases z with
      | none =>
        obtain ⟨rfl, rfl⟩ := step_pure_eq_ok.1 h
        exact ⟨hheads insts, H₁, hsub, hkept, hz⟩
      | some z =>
        obtain ⟨hwalk, hcarries⟩ := ih h hkept (hz z rfl)
        exact ⟨hheads insts out s' hwalk, hcarries.mono hsub⟩

theorem IsWalk.block (hinner : IsWalk w inner) {b : BlockId} {u : Unit}
    (h : walkBlock w inner scope b s = .ok (u, s')) (hH : Kept s H) :
    Walks w (.region scope (.block b)) s none s' ∧ Carries H s' none := by
  simp only [walkBlock, step_bind_eq_ok, step_lift_eq_ok, pickUp_eq] at h
  obtain ⟨block, _, ⟨hblock, rfl⟩, x, s₁, hpick, h⟩ := h
  obtain ⟨hpicks, H₁, hsub₁, hkept₁, hx⟩ := pick_spec hpick hH
  cases x with
  | none =>
    obtain ⟨-, rfl⟩ := step_pure_eq_ok.1 h
    exact ⟨.skip hpicks, hkept₁.carries_none.mono hsub₁⟩
  | some x =>
    simp only [step_bind_eq_ok, step_lift_eq_ok] at h
    obtain ⟨conds, _, ⟨hconds, rfl⟩, x₁, s₂, hcond, y, s₃, hinsts, h⟩ := h
    obtain ⟨hcond, H₂, hsub₂, hkept₂, hx₁⟩ := hinner.conditions hcond hkept₁ (hx x rfl)
    obtain ⟨hinsts, H₃, hsub₃, hkept₃, hy⟩ := hinner.instrs hinsts hkept₂ (hx₁ x₁ rfl)
    have hsub : H ⊆ H₃ := fun z hz => hsub₃ (hsub₂ (hsub₁ hz))
    cases y with
    | none =>
      obtain ⟨-, rfl⟩ := step_pure_eq_ok.1 h
      exact ⟨.block hblock hpicks hconds hcond hinsts .stuck, hkept₃.carries_none.mono hsub⟩
    | some y =>
      obtain ⟨hfinish, hcarries⟩ := finishBlock_spec h hkept₃ (hy y rfl)
      exact ⟨.block hblock hpicks hconds hcond hinsts hfinish, hcarries.mono hsub⟩

theorem IsWalk.iterations (hinner : IsWalk w inner) {ks : List ContextId} {u : Unit}
    (h : walkIterations w inner scope ks out s = .ok (u, s')) (hH : Kept s H)
    (hout : ∀ x ∈ out, x ∈ H) :
    Walks w (.iterations scope ks out) s none s' ∧ Carries H s' none := by
  induction ks generalizing out s H with
  | nil =>
    obtain ⟨-, rfl⟩ := step_pure_eq_ok.1 h
    exact ⟨.lastIteration, hH.carries_none⟩
  | cons k ks ih =>
    cases out with
    | none =>
      obtain ⟨-, rfl⟩ := step_pure_eq_ok.1 h
      exact ⟨.noIteration, hH.carries_none⟩
    | some x =>
      simp only [walkIterations, step_bind_eq_ok, step_lift_eq_ok, note_eq_ok, leaveFor_eq,
        Except.ok.injEq, Prod.mk.injEq, pickUpBackEdge_eq] at h
      obtain ⟨c, _, ⟨hc, rfl⟩, _, _, rfl, _, _, ⟨-, rfl⟩, _, s₂, hbody, y, s₃, hpick, h⟩ := h
      have hkept : Kept { s with
          findings := { s.findings with walked := s.findings.walked.insert k } } H :=
        hH.still (Nat.le_refl _) fun j => by cases j <;> rfl
      obtain ⟨⟨c', hc', hwalk⟩, H₂, hsub₂, hkept₂, -⟩ :=
        hinner _ _ _ _ _ hbody (hkept.leave (hout x rfl) (.block k c.entry))
      obtain rfl : c = c' := Except.ok.inj (hc.symm.trans hc')
      obtain ⟨hpicks, H₃, hsub₃, hkept₃, hy⟩ := pick_spec hpick hkept₂
      obtain ⟨hrest, hcarries⟩ := ih h hkept₃ hy
      refine ⟨.iteration hc ?_ hwalk hpicks hrest, hcarries.mono fun z hz => hsub₃ (hsub₂ hz)⟩
      exact ⟨fun j => by cases j <;> rfl, rfl, rfl, rfl, id⟩

mutual

theorem IsWalk.region (hinner : IsWalk w inner) (r : Region) {scope : Scope} {s s' : State}
    {H : List Snapshot} {u : Unit} (h : walkRegion w inner scope r s = .ok (u, s'))
    (hH : Kept s H) : Walks w (.region scope r) s none s' ∧ Carries H s' none := by
  match r with
  | .block b =>
    rw [walkRegion] at h
    exact hinner.block h hH
  | .loop info body =>
    simp only [walkRegion, step_bind_eq_ok, pickUp_eq] at h
    obtain ⟨x, s₁, hpick, h⟩ := h
    obtain ⟨hpicks, H₁, hsub₁, hkept₁, hx⟩ := pick_spec hpick hH
    cases hpeel : info.terminatedPeel? with
    | some peel =>
      simp only [hpeel] at h
      obtain ⟨hwalk, hcarries⟩ := hinner.iterations h hkept₁ hx
      exact ⟨.peel hpeel hpicks hwalk, hcarries.mono hsub₁⟩
    | none =>
      cases x with
      | none =>
        simp only [hpeel] at h
        obtain ⟨-, rfl⟩ := step_pure_eq_ok.1 h
        exact ⟨.pass hpeel hpicks, hkept₁.carries_none.mono hsub₁⟩
      | some first =>
        simp only [hpeel, step_bind_eq_ok, step_lift_eq_ok] at h
        obtain ⟨latch, _, ⟨hlatch, rfl⟩, h⟩ := h
        have hstart := hkept₁.leave (hx first rfl) (.block scope.context info.header)
        split at h
        · next hback =>
          simp only [step_bind_eq_ok, leaveFor_eq, Except.ok.injEq, Prod.mk.injEq] at h
          obtain ⟨_, _, ⟨-, rfl⟩, h⟩ := h
          obtain ⟨hwalk, hcarries⟩ := hinner.regions body h hstart
          exact ⟨.once hpeel hpicks hlatch (by simpa using hback) hwalk, hcarries.mono hsub₁⟩
        · next hback =>
          simp only [step_bind_eq_ok, leaveFor_eq, Except.ok.injEq, Prod.mk.injEq, pickUp_eq] at h
          obtain ⟨_, _, ⟨-, rfl⟩, _, s₂, hfirst, again, s₃, hagain, second, s₄, hmeet, h⟩ := h
          obtain ⟨hwalk₁, H₂, hsub₂, hkept₂, -⟩ := hinner.regions body hfirst hstart
          obtain ⟨hpicks₂, H₃, hsub₃, hkept₃, hy⟩ := pick_spec hagain hkept₂
          have hmem : ∀ z ∈ first :: again.toList, z ∈ H₃ := by
            rw [List.forall_mem_cons]
            exact ⟨hsub₃ (hsub₂ (hx first rfl)), fun z hz => hy z (Option.mem_toList.1 hz)⟩
          obtain ⟨hstill, hpickUp, H₄, hsub₄, hkept₄, hz⟩ := meet_spec hmeet hkept₃ hmem
          have hsub : H ⊆ H₄ := fun z hz => hsub₄ (hsub₃ (hsub₂ (hsub₁ hz)))
          cases second with
          | none => cases hpickUp
          | some second =>
            simp only [step_bind_eq_ok, leaveFor_eq, Except.ok.injEq, Prod.mk.injEq,
              takeClosing_eq, note_eq_ok] at h
            obtain ⟨_, _, ⟨-, rfl⟩, _, s₅, hsecond, _, _, ⟨rfl, rfl⟩, rfl⟩ := h
            obtain ⟨hwalk₂, H₅, hsub₅, hkept₅, -⟩ := hinner.regions body hsecond
              (hkept₄.leave (hz second rfl) (.block scope.context info.header))
            refine ⟨.twice hpeel hpicks hlatch (by simpa using hback) hwalk₁ hpicks₂ hpickUp hstill
              hwalk₂, Carries.mono (fun z hz => hsub₅ (hsub hz)) (Kept.carries_none ?_)⟩
            exact (hkept₅.clear _).still (Nat.le_refl _) fun j => by cases j <;> rfl

theorem IsWalk.regions (hinner : IsWalk w inner) (rs : List Region) {scope : Scope}
    {s s' : State} {H : List Snapshot} {u : Unit}
    (h : walkRegions w inner scope rs s = .ok (u, s')) (hH : Kept s H) :
    Walks w (.regions scope rs) s none s' ∧ Carries H s' none := by
  match rs with
  | [] =>
    rw [walkRegions] at h
    obtain ⟨-, rfl⟩ := step_pure_eq_ok.1 h
    exact ⟨.nil, hH.carries_none⟩
  | r :: rs =>
    rw [walkRegions, step_bind_eq_ok] at h
    obtain ⟨_, s₁, hr, h⟩ := h
    obtain ⟨hwalk, H₁, hsub, hkept, -⟩ := hinner.region r hr hH
    obtain ⟨hwalks, hcarries⟩ := hinner.regions rs h hkept
    exact ⟨.cons hwalk hwalks, hcarries.mono hsub⟩

end

theorem isWalk_walkContext (w : Setting) (depth : Nat) : IsWalk w (walkContext w depth) := by
  induction depth with
  | zero =>
    intro scope s s' u H h
    cases h
  | succ depth ih =>
    intro scope s s' u H h hH
    simp only [walkContext, step_bind_eq_ok, step_lift_eq_ok] at h
    obtain ⟨c, _, ⟨hc, rfl⟩, h⟩ := h
    obtain ⟨hwalk, hcarries⟩ := ih.regions c.regions h hH
    exact ⟨⟨c, hc, hwalk⟩, hcarries⟩

/-- A run that succeeds is a walk of the root. -/
theorem walks_of_run (h : run w x s = .ok (out, s')) (hH : Kept s H) (hx : x ∈ H) :
    (∃ c, w.program.context w.program.root = .ok c ∧
      Walks w (.function c.id [] (!c.materialized) x) s out s') ∧ Carries H s' out := by
  obtain ⟨depth, h⟩ := run_eq_ok_iff.1 h
  simp only [runTo, step_bind_eq_ok, step_lift_eq_ok] at h
  obtain ⟨c, _, ⟨hc, rfl⟩, h⟩ := h
  obtain ⟨hwalk, hcarries⟩ := (isWalk_walkContext w depth).function h hH hx
  exact ⟨⟨c, hc, hwalk⟩, hcarries⟩

end Walk

end ByteTrust
