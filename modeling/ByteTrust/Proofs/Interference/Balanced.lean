import ByteTrust.Proofs.Interference.Tame
import ByteTrust.Proofs.Snapshot.Compare

/-!
# Frames in balance

A function is walked for one call only, the one that came to it first, however often that call is
reached. So the frames of a function are settled when it is first called (`FramesOf`), and every
snapshot that waits anywhere in the function carries them, be it left over from an earlier pass
(`Balanced`). A walk keeps this up, and returns with the frames it was entered with
(`Walks.balanced`). Nothing is asked of the order of regions here, and functions may call each
other in circles.
-/

namespace ByteTrust

/-- No call is one of the root. -/
def Program.RootFree (p : Program) : Prop := ∀ inst ∈ p.instrs, inst.op.callee? ≠ some p.root

namespace Walk

open Snapshot Region

variable {w : Setting} {scope : Scope} {base cs cs' : List ContextId}
  {calls calls' : Table ContextId InstId} {s s' s₁ s₂ : State} {x y : Snapshot}
  {out : Option Snapshot} {c : Context} {f g : ContextId} {k : Bin}

/-! ## States in balance -/

/-- The frames of what waits in a bin are those of its function, but for the topmost one after a
return; and in its second pass a loop is entered with no more trust than in the first. -/
structure Balanced (w : Setting) (base : List ContextId) (s : State) : Prop where
  bins : ∀ {k y}, y ∈ s.bin k →
    ∃ cs, FramesOf w base s.firstCalls (w.layout.functionRoot k.context) cs ∧
      Fits (k.frames w.layout fun _ => cs) y
  entries : ∀ e ∈ s.findings.loopEntries, e.second.isBelow e.first = true

namespace Balanced

theorem still (h : Balanced w base s) (hstill : Still s s') : Balanced w base s' := by
  refine ⟨fun hy => ?_, fun e he => h.entries e (hstill.loopEntries ▸ he)⟩
  rw [hstill.firstCalls]
  exact h.bins (hstill.bin _ ▸ hy)

theorem leave (h : Balanced w base s)
    (hcs : FramesOf w base s.firstCalls (w.layout.functionRoot k.context) cs)
    (hx : Fits (k.frames w.layout fun _ => cs) x) : Balanced w base (s.leave x k) := by
  refine ⟨fun hy => ?_, by simpa using h.entries⟩
  rw [firstCalls_leave]
  rcases mem_bin_leave.1 hy with hy | ⟨rfl, rfl⟩
  · exact h.bins hy
  · exact ⟨cs, hcs, hx⟩

theorem clear (h : Balanced w base s) (k : Bin) : Balanced w base (s.clear k) := by
  refine ⟨fun hy => ?_, by simpa using h.entries⟩
  rw [bin_clear] at hy
  rw [firstCalls_clear]
  split at hy
  · cases hy
  · exact h.bins hy

/-- All that waits in a bin has the same frames. -/
theorem fits (h : Balanced w base s) (hl : w.program.Linked w.layout) (hroot : w.program.RootFree)
    (hcs : FramesOf w base s.firstCalls (w.layout.functionRoot k.context) cs) :
    ∀ y ∈ s.bin k, Fits (k.frames w.layout fun _ => cs) y := by
  intro y hy
  obtain ⟨cs', hcs', hfits⟩ := h.bins hy
  rwa [hcs.unique hl (Program.not_inlines_root hl.own hroot) hcs']

theorem pick (h : Balanced w base s) (hl : w.program.Linked w.layout) (hroot : w.program.RootFree)
    (hpick : Picks s k out s')
    (hcs : FramesOf w base s.firstCalls (w.layout.functionRoot k.context) cs) :
    Balanced w base s' ∧ s'.firstCalls = s.firstCalls ∧
      ∀ y ∈ out, Fits (k.frames w.layout fun _ => cs) y := by
  refine ⟨(h.clear k).still hpick.still, by simpa using hpick.still.firstCalls, ?_⟩
  rintro y ⟨⟩
  exact Fits.meet hpick.meet (h.fits hl hroot hcs)

theorem visit (h : Balanced w base s) {inst : Instr} (hvisit : Visits w scope inst x s y s') :
    Balanced w base s' ∧ s'.firstCalls = s.firstCalls := by
  cases hvisit with
  | read _ _ _ _ hstill =>
    refine ⟨Balanced.still (s := s.record inst.id _) ⟨fun {k y} hy => ?_, h.entries⟩ hstill,
      hstill.firstCalls⟩
    exact h.bins (by cases k <;> exact hy)
  | own _ _ hstill => exact ⟨h.still hstill, hstill.firstCalls⟩
  | other _ _ hstill => exact ⟨h.still hstill, hstill.firstCalls⟩

/-- A call comes first, or once more. -/
theorem enter (h : Balanced w base s) (hext : Extends s.firstCalls calls) :
    Balanced w base { s with firstCalls := calls } := by
  refine ⟨fun {k y} hy => ?_, h.entries⟩
  obtain ⟨cs, hcs, hfits⟩ := h.bins (k := k) (y := y) (by cases k <;> exact hy)
  exact ⟨cs, hcs.extend hext, hfits⟩

theorem close (h : Balanced w base s) {f : ContextId} {info : Loop} {first second : Snapshot}
    (hbelow : second.isBelow first = true) : Balanced w base (s.close f info first second) := by
  refine ⟨fun {k y} hy => ?_, fun e he => ?_⟩
  · rw [bin_close] at hy
    have hcalls : (s.close f info first second).firstCalls =
        (s.clear (.closing f info.header)).firstCalls := rfl
    rw [hcalls]
    exact (h.clear _).bins hy
  · rcases List.mem_append.1 he with he | he
    · exact h.entries e he
    · cases List.mem_singleton.1 he
      exact hbelow

/-- The end of a block leaves snapshots within the function. -/
theorem finish (h : Balanced w base s) (hl : w.program.Linked w.layout)
    (hc : w.program.contexts.get? scope.context = some c) {block : Block}
    (hcs : FramesOf w base s.firstCalls (w.layout.functionRoot scope.context) cs)
    (hout : ∀ x ∈ out, Fits cs x) (hfinish : Finishes w scope block out s s') :
    Balanced w base s' ∧ s'.firstCalls = s.firstCalls := by
  cases hfinish with
  | stuck => exact ⟨h, rfl⟩
  | unreachable => exact ⟨h, rfl⟩
  | dropped => exact ⟨h, rfl⟩
  | ret _ _ hpop hstill =>
    obtain ⟨d, hd, hfun⟩ := hl.functionRoot_exists hc
    have hreturns : w.layout.functionRoot
        (Bin.returns (w.layout.functionRoot scope.context)).context =
          w.layout.functionRoot scope.context := hl.functionRoot_of_isFunction hd hfun
    refine ⟨(h.leave (hreturns.symm ▸ hcs) ?_).still hstill, by simpa using hstill.firstCalls⟩
    exact (hout _ rfl).popFrame hpop
  | @branch x ds _ _ _ hds =>
    have hroots : ∀ d ∈ ds, w.layout.functionRoot d.bin.context =
        w.layout.functionRoot scope.context ∧ ∀ f, d.bin ≠ .returns f := by
      intro d hd
      obtain ⟨t, -, hr⟩ := (hds d).1 hd
      cases route_spec hr hc with
      | back => exact ⟨rfl, nofun⟩
      | closing _ howner => exact ⟨(hl.edgeOwnerFrom_spec hc howner).1, nofun⟩
      | block _ howner => exact ⟨(hl.edgeOwnerFrom_spec hc howner).1, nofun⟩
    clear hds
    induction ds generalizing s with
    | nil => exact ⟨h, rfl⟩
    | cons d ds ih =>
      obtain ⟨⟨hroot, hd⟩, hroots⟩ := List.forall_mem_cons.1 hroots
      have hleave := h.leave (k := d.bin) (x := x) (hroot.symm ▸ hcs) (by
        cases hbin : d.bin with
        | returns f => exact (hd f hbin).elim
        | _ => exact hout x rfl)
      obtain ⟨hbalanced, hcalls⟩ := ih hleave (by simpa using hcs) hroots
      exact ⟨hbalanced, by simpa using hcalls⟩

end Balanced

/-! ## Walks keep the balance -/

/-- What a walk does to the balance of frames. -/
def Balances (w : Setting) (base : List ContextId) : Task → State → Option Snapshot → State → Prop
  | .regions scope rs, s, _, s' => ∀ c cs, w.program.contexts.get? scope.context = some c →
      (∀ info ∈ loopsAll rs, info ∈ c.loops) →
      FramesOf w base s.firstCalls (w.layout.functionRoot scope.context) cs → Balanced w base s →
      Balanced w base s' ∧ Extends s.firstCalls s'.firstCalls
  | .region scope r, s, _, s' => ∀ c cs, w.program.contexts.get? scope.context = some c →
      (∀ info ∈ r.loops, info ∈ c.loops) →
      FramesOf w base s.firstCalls (w.layout.functionRoot scope.context) cs → Balanced w base s →
      Balanced w base s' ∧ Extends s.firstCalls s'.firstCalls
  | .iterations scope ks x, s, _, s' => ∀ cs,
      (∀ it ∈ ks, w.layout.functionRoot it = w.layout.functionRoot scope.context) →
      FramesOf w base s.firstCalls (w.layout.functionRoot scope.context) cs →
      (∀ y ∈ x, Fits cs y) → Balanced w base s →
      Balanced w base s' ∧ Extends s.firstCalls s'.firstCalls
  | .conditions _ conds x, s, out, s' => ∀ cs,
      (∀ cond ∈ conds, ∀ g, cond.fact ≠ .checker g) → Fits cs x → Balanced w base s →
      Balanced w base s' ∧ Extends s.firstCalls s'.firstCalls ∧ ∀ y ∈ out, Fits cs y
  | .instrs scope _ insts x, s, out, s' => ∀ cs,
      (∀ inst ∈ insts, w.program.Contains w.layout (w.layout.functionRoot scope.context) inst) →
      FramesOf w base s.firstCalls (w.layout.functionRoot scope.context) cs → Fits cs x →
      Balanced w base s →
      Balanced w base s' ∧ Extends s.firstCalls s'.firstCalls ∧ ∀ y ∈ out, Fits cs y
  | .function g _ _ x, s, out, s' => ∀ cs, w.layout.functionRoot g = g →
      FramesOf w base s.firstCalls g (g :: cs) → Fits cs x → Balanced w base s →
      Balanced w base s' ∧ Extends s.firstCalls s'.firstCalls ∧ ∀ y ∈ out, Fits cs y

/-- Linked programs whose frames stay in balance: the root is not called, and no checker function
runs for a path condition. -/
structure Regular (w : Setting) : Prop where
  linked : w.program.Linked w.layout
  rootFree : w.program.RootFree
  noChecker : ∀ cond ∈ w.program.pathConditions, ∀ g, cond.fact ≠ .checker g

variable {info : Loop} {body rs : List Region} {r : Region} {b : BlockId}
  {block : Block}

theorem balances_cons {s₁ : State} (hr : Balances w base (.region scope r) s none s₁)
    (hrs : Balances w base (.regions scope rs) s₁ none s') :
    Balances w base (.regions scope (r :: rs)) s none s' := by
  intro c cs hc hloops hcs hs
  rw [loopsAll, List.forall_mem_append] at hloops
  obtain ⟨hs₁, hext₁⟩ := hr c cs hc hloops.1 hcs hs
  obtain ⟨hs', hext'⟩ := hrs c cs hc hloops.2 (hcs.extend hext₁) hs₁
  exact ⟨hs', hext₁.trans hext'⟩

namespace Regular

variable (hw : Regular w)

include hw

theorem balances_block {conds : List PathCondition} {x₁ : Snapshot} {s₃ : State}
    (hblock : w.program.block scope.context b = .ok block)
    (hpick : Picks s (.block scope.context b) (some x) s₁)
    (hconds : conditionsAt w scope.context b = .ok conds)
    (hcond : Balances w base (.conditions scope conds x) s₁ (some x₁) s₂)
    (hinsts : Balances w base (.instrs scope block.certain block.insts x₁) s₂ out s₃)
    (hfinish : Finishes w scope block out s₃ s') :
    Balances w base (.region scope (.block b)) s none s' := by
  intro c cs hc _ hcs hs
  obtain ⟨c', hc', hb⟩ := Program.block_eq_ok.1 hblock
  cases hc.symm.trans hc'
  obtain ⟨hs₁, hcalls₁, hx⟩ := hs.pick hw.linked hw.rootFree hpick hcs
  obtain ⟨hs₂, hext₂, hx₁⟩ := hcond cs
    (fun cond hcond => hw.noChecker cond (conditionsAt_subset hconds hcond)) (hx x rfl) hs₁
  rw [hcalls₁] at hext₂
  have hcs₂ := hcs.extend hext₂
  obtain ⟨hs₃, hext₃, hout⟩ := hinsts cs
    (fun inst hinst => ⟨_, c, b, block, hc, rfl, hb, hinst⟩) hcs₂ (hx₁ x₁ rfl) hs₂
  obtain ⟨hs', hcalls'⟩ := hs₃.finish hw.linked hc (hcs₂.extend hext₃) hout hfinish
  exact ⟨hs', (hext₂.trans hext₃).trans (extends_of_eq hcalls')⟩

theorem balances_peel {peel : PeelAttempt} (hpeel : info.terminatedPeel? = some peel)
    (hpick : Picks s (.block scope.context info.header) out s₁)
    (hiterations : Balances w base (.iterations scope peel.iterations out) s₁ none s') :
    Balances w base (.region scope (.loop info body)) s none s' := by
  intro c cs hc hloops hcs hs
  obtain ⟨hs₁, hcalls₁, hout⟩ := hs.pick hw.linked hw.rootFree hpick hcs
  have hinfo : info ∈ c.loops := hloops info List.mem_cons_self
  rw [← hcalls₁] at hcs ⊢
  refine hiterations cs (fun it hit => ?_) hcs hout hs₁
  obtain ⟨i, hi⟩ := List.mem_iff_getElem?.1 hit
  exact hw.linked.functionRoot_of_encloses (hw.linked.iteration_encloses hc hinfo hpeel hi)

theorem balances_once (hpick : Picks s (.block scope.context info.header) (some x) s₁)
    (hbody : Balances w base (.regions scope body)
      (s₁.leave x (.block scope.context info.header)) none s') :
    Balances w base (.region scope (.loop info body)) s none s' := by
  intro c cs hc hloops hcs hs
  obtain ⟨hs₁, hcalls₁, hx⟩ := hs.pick hw.linked hw.rootFree hpick hcs
  rw [← hcalls₁] at hcs ⊢
  have := hbody c cs hc (fun info' hinfo' => hloops info' (List.mem_cons_of_mem _ hinfo'))
    (hcs.leave x _) (hs₁.leave hcs (hx x rfl))
  rwa [firstCalls_leave] at this

theorem balances_twice {first second : Snapshot} {again : Option Snapshot} {s₃ s₄ s₅ : State}
    (hpick : Picks s (.block scope.context info.header) (some first) s₁)
    (hfirst : Balances w base (.regions (scope.over info body .first) body)
      (s₁.leave first (.block scope.context info.header)) none s₂)
    (hagain : Picks s₂ (.block scope.context info.header) again s₃)
    (hmeet : IsPickUp (first :: again.toList) (some second)) (hstill : Still s₃ s₄)
    (hsecond : Balances w base (.regions (scope.over info body .second) body)
      (s₄.leave second (.block scope.context info.header)) none s₅) :
    Balances w base (.region scope (.loop info body)) s none
      (s₅.close scope.context info first second) := by
  intro c cs hc hloops hcs hs
  have hbody : ∀ info' ∈ loopsAll body, info' ∈ c.loops := fun info' hinfo' =>
    hloops info' (List.mem_cons_of_mem _ hinfo')
  obtain ⟨hs₁, hcalls₁, hx⟩ := hs.pick hw.linked hw.rootFree hpick hcs
  have hcs₁ := hcalls₁.symm ▸ hcs
  obtain ⟨hs₂, hext₂⟩ := hfirst c cs hc hbody (hcs₁.leave first _) (hs₁.leave hcs₁ (hx first rfl))
  rw [firstCalls_leave, hcalls₁] at hext₂
  obtain ⟨hs₃, hcalls₃, hy⟩ := hs₂.pick hw.linked hw.rootFree hagain (hcs.extend hext₂)
  have hcalls₄ : s₄.firstCalls = s₂.firstCalls := hstill.firstCalls.trans hcalls₃
  have hcs₄ : FramesOf w base s₄.firstCalls (w.layout.functionRoot scope.context) cs :=
    hcalls₄.symm ▸ hcs.extend hext₂
  have hfits : Fits cs second := by
    refine Fits.meet hmeet (List.forall_mem_cons.2 ⟨hx first rfl, fun z hz => ?_⟩)
    exact hy z (Option.mem_toList.1 hz)
  obtain ⟨hs₅, hext₅⟩ := hsecond c cs hc hbody (hcs₄.leave second _)
    ((hs₃.still hstill).leave hcs₄ hfits)
  rw [firstCalls_leave, hcalls₄] at hext₅
  have hbelow : second.isBelow first = true :=
    (isBelow_iff hfits.canonical (hx first rfl).canonical).2 (hmeet.2.1.below List.mem_cons_self)
  refine ⟨hs₅.close hbelow, hext₂.trans (hext₅.trans (extends_of_eq ?_))⟩
  exact firstCalls_clear _ _

theorem balances_iteration {it : ContextId} {d : Context} {ks : List ContextId} {s₃ : State}
    {y : Option Snapshot} (hd : w.program.context it = .ok d) (hstill : Still s s₁)
    (hbody : Balances w base
      (.regions ⟨it, scope.loops, scope.suppressed || !d.materialized⟩ d.regions)
      (s₁.leave x (.block it d.entry)) none s₂) (hpick : Picks s₂ (.back it) y s₃)
    (hrest : Balances w base (.iterations scope ks y) s₃ none s') :
    Balances w base (.iterations scope (it :: ks) (some x)) s none s' := by
  intro cs hroots hcs hx hs
  obtain ⟨hroot, hroots⟩ := List.forall_mem_cons.1 hroots
  have hcs₁ : FramesOf w base s₁.firstCalls (w.layout.functionRoot it) cs := by
    rwa [hstill.firstCalls, hroot]
  obtain ⟨hs₂, hext₂⟩ := hbody d cs (Program.context_eq_ok.1 hd) (fun _ hinfo => hinfo)
    (hcs₁.leave x _) ((hs.still hstill).leave (k := .block it d.entry) hcs₁ (hx x rfl))
  rw [firstCalls_leave, hstill.firstCalls] at hext₂
  obtain ⟨hs₃, hcalls₃, hy⟩ := hs₂.pick hw.linked hw.rootFree (k := .back it) hpick
    (hroot ▸ hcs.extend hext₂)
  obtain ⟨hs', hext'⟩ := hrest cs hroots (hcalls₃.symm ▸ hcs.extend hext₂) hy hs₃
  rw [hcalls₃] at hext'
  exact ⟨hs', hext₂.trans hext'⟩

omit hw in
theorem balances_bytes {cond : PathCondition} {conds : List PathCondition} {ptr : PointerValue}
    {offset : Int} {len : Nat} {now : Stamp} (hstill : Still s s₁)
    (hrest : Balances w base (.conditions scope conds
      (w.program.vouchUnless scope.suppressed now ptr offset len x)) s₁ out s') :
    Balances w base (.conditions scope (cond :: conds) x) s out s' := by
  intro cs hconds hx hs
  have hflow : Flows cs fun now s => w.program.vouchUnless scope.suppressed now ptr offset len s :=
    Program.vouchUnless_flows _ ptr offset len
  have := hrest cs (List.forall_mem_cons.1 hconds).2 (hx.flow hflow now) (hs.still hstill)
  rwa [hstill.firstCalls] at this

omit hw in
theorem balances_instr {certain : Bool} {inst : Instr} {insts : List Instr}
    (hvisit : Visits w scope inst x s y s₁)
    (hrest : Balances w base (.instrs scope certain insts y) s₁ out s') :
    Balances w base (.instrs scope certain (inst :: insts) x) s out s' := by
  intro cs hinsts hcs hx hs
  obtain ⟨hs₁, hcalls₁⟩ := hs.visit hvisit
  rw [← hcalls₁] at hcs ⊢
  exact hrest cs (List.forall_mem_cons.1 hinsts).2 hcs (hx.visit hvisit) hs₁

omit hw in
theorem balances_shared {certain : Bool} {inst : Instr} {insts : List Instr} {now : Stamp}
    (hstill : Still s s₁)
    (hrest : Balances w base (.instrs scope certain insts (x.clobberAll now)) s₁ out s') :
    Balances w base (.instrs scope certain (inst :: insts) x) s out s' := by
  intro cs hinsts hcs hx hs
  rw [← hstill.firstCalls] at hcs ⊢
  exact hrest cs (List.forall_mem_cons.1 hinsts).2 hcs (hx.flow flows_clobberAll now)
    (hs.still hstill)

theorem balances_stuck {certain : Bool} {inst : Instr} {insts : List Instr} {suppressed : Bool}
    (hcallee : inst.op.callee? = some g) (hown : ∀ i, s.firstCalls.get? g = some i → i = inst.id)
    (hfunction : Balances w base (.function g scope.loops suppressed x)
      { s with firstCalls := s.firstCalls.insert g inst.id } none s') :
    Balances w base (.instrs scope certain (inst :: insts) x) s none s' := by
  intro cs hinsts hcs hx hs
  have hinst := (List.forall_mem_cons.1 hinsts).1
  have hext := extends_insert hown
  obtain ⟨hs', hext', -⟩ :=
    hfunction cs (hw.linked.functionRoot_of_callee hinst hcallee)
      (hcs.call hinst hcallee hown) hx (hs.enter hext)
  exact ⟨hs', hext.trans hext', by rintro _ ⟨⟩⟩

theorem balances_call {certain : Bool} {inst : Instr} {insts : List Instr} {suppressed : Bool}
    {z : Snapshot} (hcallee : inst.op.callee? = some g)
    (hown : ∀ i, s.firstCalls.get? g = some i → i = inst.id)
    (hfunction : Balances w base (.function g scope.loops suppressed x)
      { s with firstCalls := s.firstCalls.insert g inst.id } (some y) s₁)
    (hz : z = y ∨ ∃ now, z = y.clobberAll now) (hstill : Still s₁ s₂)
    (hrest : Balances w base (.instrs scope certain insts z) s₂ out s') :
    Balances w base (.instrs scope certain (inst :: insts) x) s out s' := by
  intro cs hinsts hcs hx hs
  obtain ⟨hinst, hinsts⟩ := List.forall_mem_cons.1 hinsts
  have hext := extends_insert hown
  obtain ⟨hs₁, hext₁, hy⟩ :=
    hfunction cs (hw.linked.functionRoot_of_callee hinst hcallee)
      (hcs.call hinst hcallee hown) hx (hs.enter hext)
  have hfits : Fits cs z := by
    rcases hz with rfl | ⟨now, rfl⟩
    · exact hy z rfl
    · exact (hy y rfl).flow flows_clobberAll now
  have hext₂ : Extends s.firstCalls s₂.firstCalls :=
    (hext.trans hext₁).trans (extends_of_eq hstill.firstCalls)
  obtain ⟨hs', hext', hout⟩ := hrest cs hinsts (hcs.extend hext₂) hfits (hs₁.still hstill)
  exact ⟨hs', hext₂.trans hext', hout⟩

theorem balances_function {k : ContextId} {c : Context} {loops : List ActiveLoop}
    {suppressed : Bool} {now : Stamp} (hc : w.program.context k = .ok c) (hstill : Still s s₁)
    (hbody : Balances w base (.regions ⟨k, loops, suppressed⟩ c.regions)
      (s₁.leave (x.pushFrame now k) (.block k c.entry)) none s₂)
    (hpick : Picks s₂ (.returns k) out s') :
    Balances w base (.function k loops suppressed x) s out s' := by
  intro cs hroot hcs hx hs
  have hcs₁ : FramesOf w base s₁.firstCalls (w.layout.functionRoot k) (k :: cs) := by
    rwa [hstill.firstCalls, hroot]
  obtain ⟨hs₂, hext₂⟩ := hbody c (k :: cs) (Program.context_eq_ok.1 hc) (fun _ hinfo => hinfo)
    (hcs₁.leave _ _) ((hs.still hstill).leave (k := .block k c.entry) hcs₁ (hx.pushFrame now k))
  rw [firstCalls_leave] at hext₂
  obtain ⟨hs', hcalls', hout⟩ := hs₂.pick hw.linked hw.rootFree (k := .returns k) hpick
    (hcs₁.extend hext₂)
  exact ⟨hs', ((extends_of_eq hstill.firstCalls).trans hext₂).trans (extends_of_eq hcalls'), hout⟩

end Regular

/-- Walks keep the frames in balance. -/
theorem Walks.balanced (hw : Regular w) {task : Task} (h : Walks w task s out s') :
    Balances w base task s out s' := by
  induction h with
  | nil => exact fun _ _ _ _ _ hs => ⟨hs, extends_of_eq rfl⟩
  | cons _ _ hr hrs => exact balances_cons hr hrs
  | skip hpick =>
    intro c cs _ _ hcs hs
    obtain ⟨hs', hcalls, -⟩ := hs.pick hw.linked hw.rootFree hpick hcs
    exact ⟨hs', extends_of_eq hcalls⟩
  | block hblock hpick hconds _ _ hfinish hcond hinsts =>
    exact hw.balances_block hblock hpick hconds hcond hinsts hfinish
  | peel hpeel hpick _ hiterations => exact hw.balances_peel hpeel hpick hiterations
  | pass _ hpick =>
    intro c cs _ _ hcs hs
    obtain ⟨hs', hcalls, -⟩ := hs.pick hw.linked hw.rootFree hpick hcs
    exact ⟨hs', extends_of_eq hcalls⟩
  | once _ hpick _ _ _ hbody => exact hw.balances_once hpick hbody
  | twice _ hpick _ _ _ hagain hmeet hstill _ hfirst hsecond =>
    exact hw.balances_twice hpick hfirst hagain hmeet hstill hsecond
  | lastIteration => exact fun _ _ _ _ hs => ⟨hs, extends_of_eq rfl⟩
  | noIteration => exact fun _ _ _ _ hs => ⟨hs, extends_of_eq rfl⟩
  | iteration hc hstill _ hpick _ hbody hrest =>
    exact hw.balances_iteration hc hstill hbody hpick hrest
  | noCondition =>
    exact fun _ _ hx hs => ⟨hs, extends_of_eq rfl, fun y hy => Option.some.inj hy ▸ hx⟩
  | bytes _ hstill _ hrest => exact Regular.balances_bytes hstill hrest
  | checker hfact => exact fun _ hconds => (hconds _ List.mem_cons_self _ hfact).elim
  | noInstr =>
    exact fun _ _ _ hx hs => ⟨hs, extends_of_eq rfl, fun y hy => Option.some.inj hy ▸ hx⟩
  | instr _ hvisit _ hrest => exact Regular.balances_instr hvisit hrest
  | shared _ _ _ hstill _ hrest => exact Regular.balances_shared hstill hrest
  | stuck hcallee hown _ _ hfunction => exact hw.balances_stuck hcallee hown hfunction
  | call hcallee hown _ _ hz hstill _ hfunction hrest =>
    exact hw.balances_call hcallee hown hfunction (hz.imp id And.right) hstill hrest
  | function hc hstill _ hpick hbody => exact hw.balances_function hc hstill hbody hpick

end Walk

end ByteTrust
