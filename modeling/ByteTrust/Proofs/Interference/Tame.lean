import ByteTrust.Proofs.Interference.Tidy

/-!
# Tame walks

In an orderly program every walk is *tame*: it leaves snapshots in open bins only, it picks up each
bin when nothing will be left there any more, and what it enters is not being walked already.
`Tame` has the rules of `Walks` that such a walk takes, each with what is known there of the open
bins. That walks are tame (`tame_of_walks`) is shown once; what a walk says about the paths of the
program is then shown by induction on tame walks.
-/

namespace ByteTrust

namespace Walk

open Snapshot Region

/-! ## Routes -/

/-- Some loop being walked drops the edge from `b` to `t` into the context `o`. -/
def Dropped (loops : List ActiveLoop) (o : ContextId) (b t : BlockId) : Prop :=
  ∃ a ∈ loops, a.context = o ∧ a.drops b t = true

/-- Some loop in its second pass drops the edge from `b` to `t` into the context `o`. -/
def Closes (loops : List ActiveLoop) (o : ContextId) (b t : BlockId) : Prop :=
  ∃ a ∈ loops, a.context = o ∧ a.drops b t = true ∧ a.pass = .second

/-- Where an edge leads, in the terms of the loops being walked. -/
inductive Routes (w : Setting) (scope : Scope) (c : Context) (b t : BlockId) :
    Option Destination → Prop
  | back (hback : isBackEdge c b t = true) : Routes w scope c b t (some (.nextIteration scope.context))
  | closing {o : ContextId} (hback : isBackEdge c b t = false)
      (howner : w.layout.edgeOwner? w.program scope.context t = some o)
      (hcloses : Closes scope.loops o b t) : Routes w scope c b t (some (.closing o t))
  | block {o : ContextId} (hback : isBackEdge c b t = false)
      (howner : w.layout.edgeOwner? w.program scope.context t = some o)
      (hkept : ¬ Dropped scope.loops o b t) : Routes w scope c b t (some (.block o t))
  | dropped {o : ContextId} (hback : isBackEdge c b t = false)
      (howner : w.layout.edgeOwner? w.program scope.context t = some o)
      (hdropped : Dropped scope.loops o b t) (hopen : ¬ Closes scope.loops o b t) :
      Routes w scope c b t none

variable {w : Setting} {scope : Scope} {plain : Prop} {base : List ContextId}
  {A : ContextId → Prop} {W : Bin → Prop} {F : Frames} {c : Context} {s s' s₁ s₂ : State}
  {x y : Snapshot} {out : Option Snapshot} {block : Block} {b t : BlockId}
  {rs : List Region} {after later ts : List BlockId} {around : List Loop}

theorem route_spec {d : Option Destination} (h : route w scope b t = .ok d)
    (hc : w.program.contexts.get? scope.context = some c) : Routes w scope c b t d := by
  rw [route, bind_eq_ok] at h
  obtain ⟨c', hc', h⟩ := h
  cases hc.symm.trans (Program.context_eq_ok.1 hc')
  have hdropping (o : ContextId) :
      Dropped scope.loops o b t ↔
        (scope.loops.filter fun a => a.context = o && a.drops b t).isEmpty = false := by
    simp [Dropped]
  have hclosing (o : ContextId) :
      Closes scope.loops o b t ↔
        ((scope.loops.filter fun a => a.context = o && a.drops b t).any fun a =>
          a.pass = .second) = true := by
    simp [Closes, and_assoc]
  split at h
  · next hback =>
    cases h
    exact .back hback
  next hback =>
  have hback : isBackEdge c b t = false := Bool.eq_false_iff.2 hback
  split at h
  · cases h
  next o howner =>
  dsimp only at h
  split at h
  · next hany =>
    cases h
    exact .closing hback howner ((hclosing o).2 hany)
  next hany =>
  split at h
  · next hempty =>
    cases h
    exact .block hback howner fun hdrop => by simp [(hdropping o).1 hdrop] at hempty
  · next hempty =>
    cases h
    exact .dropped hback howner ((hdropping o).2 (Bool.eq_false_iff.2 hempty))
      fun hcloses => hany ((hclosing o).1 hcloses)

theorem hasLiveEdgeTo_of_mem (ht : t ∈ block.liveSuccs) : block.hasLiveEdgeTo t = true := by
  obtain ⟨succ, hsucc, rfl⟩ := List.mem_map.1 ht
  obtain ⟨hmem, hlive⟩ := List.mem_filter.1 hsucc
  exact List.any_eq_true.2 ⟨succ, hmem, by simp [hlive]⟩

/-- What leaves a block goes to an open bin of the same function. -/
theorem route_open (hl : w.program.Linked w.layout) (ho : w.program.Orderly w.layout)
    (hst : Stance w A F W scope c) (hcut : Cut c (.block b :: rs) later around)
    (hspot : Spot W scope c ts (rs.map start ++ later) around) (hb : c.blocks.get? b = some block)
    (ht : t ∈ block.liveSuccs) {d : Destination} (h : route w scope b t = .ok (some d)) :
    W d.bin ∧ w.layout.functionRoot d.bin.context = w.layout.functionRoot scope.context := by
  cases route_spec h hst.found with
  | back hback =>
    refine ⟨hst.back ?_, rfl⟩
    cases hkind : c.kind <;> simp_all [isBackEdge, Context.isFunction]
  | @closing o hback howner hcloses =>
    obtain ⟨a, ha, rfl, hdrops, hpass⟩ := hcloses
    have ht : t = a.header := by
      simp only [ActiveLoop.drops, hpass, Bool.and_eq_true, decide_eq_true_eq] at hdrops
      exact hdrops.2
    exact ⟨ht ▸ hst.closing a ha hpass, (hl.edgeOwnerFrom_spec hst.found howner).1⟩
  | @block o hback howner hkept =>
    refine ⟨?_, (hl.edgeOwnerFrom_spec hst.found howner).1⟩
    rcases Program.Linked.edgeOwnerFrom_within howner with rfl | ⟨child, hchild, hlast⟩
    · rcases ho.forward hst.found hcut hb ht hback howner with hlater | ⟨info, hinfo, rfl, rfl⟩
      · exact hspot.later t hlater
      · rcases hspot.heads info hinfo with ⟨a, ha, hctx, hpass, hheader, hlatch⟩ | hopen | hdead
        · refine (hkept ⟨a, ha, hctx, ?_⟩).elim
          simp [ActiveLoop.drops, hpass, hheader, hlatch]
        · exact hopen
        · cases (hdead block hb).symm.trans (hasLiveEdgeTo_of_mem ht)
    · obtain ⟨-, ⟨d, hd⟩, -⟩ := hl.edgeOwnerFrom_spec hst.found howner
      obtain ⟨info, body, rs', later', around', peel, hcut', hpeel, hmem, hW⟩ :=
        hst.leaving hchild hlast hd
      exact hW t (ho.leaving hst.found hb ht hback howner hchild hlast hd hcut' hpeel hmem)

/-! ## The rules of a tame walk -/

/-- Path conditions that vouch for bytes, applied in turn. -/
inductive Vouches (w : Setting) : List PathCondition → Snapshot → Snapshot → Prop
  | nil {x : Snapshot} : Vouches w [] x x
  | cons {cond : PathCondition} {conds : List PathCondition} {ptr : PointerValue} {offset : Int}
      {len : Nat} {x y : Snapshot} (now : Stamp) (hfact : cond.fact = .bytes ptr offset len)
      (hrest : Vouches w conds (w.program.vouch now ptr offset len x) y) :
      Vouches w (cond :: conds) x y

/-- The rules of the walk that an orderly program takes, with the open bins `W` after the task and
the frames `F` of the functions being walked. -/
inductive Tame (w : Setting) (plain : Prop) :
    (Bin → Prop) → Frames → Task → State → Option Snapshot → State → Prop
  | nil {W : Bin → Prop} {F : Frames} {scope : Scope} {s : State} :
      Tame w plain W F (.regions scope []) s none s
  | cons {W : Bin → Prop} {F : Frames} {scope : Scope} {r : Region} {rs : List Region}
      {s s₁ s' : State}
      (hr : Tame w plain (Opens W scope.context (rs.map start)) F (.region scope r) s none s₁)
      (hrs : Tame w plain W F (.regions scope rs) s₁ none s')
      (hstarts : rs.map start ⊆ placesAll rs)
      (hwait : ∀ t ∈ rs.map start,
        s.bin (.block scope.context t) ⊆ s₁.bin (.block scope.context t))
      (hkeep : ∀ j, W j → s₁.bin j ⊆ s'.bin j) :
      Tame w plain W F (.regions scope (r :: rs)) s none s'
  | skip {W : Bin → Prop} {F : Frames} {scope : Scope} {b : BlockId} {s s' : State}
      (hpick : Picks s (.block scope.context b) none s') :
      Tame w plain W F (.region scope (.block b)) s none s'
  | block {W : Bin → Prop} {F : Frames} {scope : Scope} {b : BlockId} {c : Context} {block : Block}
      {conds : List PathCondition} {x x₁ : Snapshot} {y : Option Snapshot} {s s₁ s₂ s₃ s' : State}
      (hc : w.program.contexts.get? scope.context = some c) (hb : c.blocks.get? b = some block)
      (hpick : Picks s (.block scope.context b) (some x) s₁)
      (hx : Fits (F (w.layout.functionRoot scope.context)) x)
      (hconds : conditionsAt w scope.context b = .ok conds) (hvouch : Vouches w conds x x₁)
      (hstill : Still s₁ s₂)
      (hinsts : Tame w plain W F (.instrs scope block.certain block.insts x₁) s₂ y s₃)
      (hy : ∀ z ∈ y, Fits (F (w.layout.functionRoot scope.context)) z)
      (hbins : ∀ j, s₃.bin j = s₂.bin j) (hfinish : Finishes w scope block y s₃ s')
      (hreturns : W (.returns (w.layout.functionRoot scope.context)))
      (hopen : ∀ t ∈ block.liveSuccs, ∀ d, route w scope block.id t = .ok (some d) → W d.bin) :
      Tame w plain W F (.region scope (.block b)) s none s'
  | peel {W : Bin → Prop} {F : Frames} {scope : Scope} {info : Loop} {body : List Region}
      {peel : PeelAttempt} {x : Option Snapshot} {s s₁ s' : State}
      (hpeel : info.terminatedPeel? = some peel)
      (hpick : Picks s (.block scope.context info.header) x s₁)
      (hx : ∀ y ∈ x, Fits (F (w.layout.functionRoot scope.context)) y)
      (hfirst : ∀ it, w.program.FirstOf scope.context info.header it ↔
        peel.iterations[0]? = some it)
      (hne : ∃ it, peel.iterations[0]? = some it)
      (hiterations : Tame w plain W F (.iterations scope peel.iterations x) s₁ none s') :
      Tame w plain W F (.region scope (.loop info body)) s none s'
  | pass {W : Bin → Prop} {F : Frames} {scope : Scope} {info : Loop} {body : List Region}
      {s s' : State} (hpeel : info.terminatedPeel? = none)
      (hpick : Picks s (.block scope.context info.header) none s') :
      Tame w plain W F (.region scope (.loop info body)) s none s'
  | once {W : Bin → Prop} {F : Frames} {scope : Scope} {info : Loop} {rest : List Region}
      {x : Snapshot} {s s₁ s' : State} (hpeel : info.terminatedPeel? = none)
      (hpick : Picks s (.block scope.context info.header) (some x) s₁)
      (hx : Fits (F (w.layout.functionRoot scope.context)) x)
      (hbody : Tame w plain W F (.regions scope (.block info.header :: rest))
        (s₁.leave x (.block scope.context info.header)) none s') :
      Tame w plain W F (.region scope (.loop info (.block info.header :: rest))) s none s'
  | twice {W : Bin → Prop} {F : Frames} {scope : Scope} {info : Loop} {body rest : List Region}
      {first second : Snapshot} {again : Option Snapshot} {s s₁ s₂ s₃ s₄ s₅ : State}
      (hpeel : info.terminatedPeel? = none) (hrest : body = .block info.header :: rest)
      (hpick : Picks s (.block scope.context info.header) (some first) s₁)
      (hfirst : Tame w plain (Opens W scope.context [info.header]) F
        (.regions (scope.over info body .first) body)
        (s₁.leave first (.block scope.context info.header)) none s₂)
      (hagain : Picks s₂ (.block scope.context info.header) again s₃)
      (hmeet : IsPickUp (first :: again.toList) (some second)) (hstill : Still s₃ s₄)
      (hx : Fits (F (w.layout.functionRoot scope.context)) second)
      (htidy : Tidy w plain W F s₄)
      (hsecond : Tame w plain (fun j => W j ∨ j = .closing scope.context info.header) F
        (.regions (scope.over info body .second) body)
        (s₄.leave second (.block scope.context info.header)) none s₅)
      (htidy' : Tidy w plain (fun j => W j ∨ j = .closing scope.context info.header) F s₅)
      (hbusy : ∃ j, W j ∧ j.context = scope.context)
      (hclosed : ∀ t ∈ placesAll body,
        ¬ W (.block scope.context t) ∧ ¬ W (.closing scope.context t))
      (hmembers : ∀ t ∈ placesAll body,
        t ∈ info.blocks.union (.ofList (peelHeaders (loopsAll body))))
      (houter : ∀ b, ¬ Dropped scope.loops scope.context b info.header) :
      Tame w plain W F (.region scope (.loop info body)) s none
        (s₅.close scope.context info first second)
  | lastIteration {W : Bin → Prop} {F : Frames} {scope : Scope} {x : Option Snapshot} {s : State} :
      Tame w plain W F (.iterations scope [] x) s none s
  | noIteration {W : Bin → Prop} {F : Frames} {scope : Scope} {cs : List ContextId} {s : State} :
      Tame w plain W F (.iterations scope cs none) s none s
  | iteration {W : Bin → Prop} {F : Frames} {scope : Scope} {it : ContextId} {c : Context}
      {ks : List ContextId} {x : Snapshot} {y : Option Snapshot} {s s₁ s₂ s₃ s' : State}
      (hc : w.program.contexts.get? it = some c)
      (hroot : w.layout.functionRoot it = w.layout.functionRoot scope.context)
      (hx : Fits (F (w.layout.functionRoot it)) x) (hstill : Still s s₁)
      (hentry : c.entry ∈ c.regions.map start)
      (hbody : Tame w plain (fun j => W j ∨ j = .back it) F
        (.regions ⟨it, scope.loops, false⟩ c.regions) (s₁.leave x (.block it c.entry)) none s₂)
      (hpick : Picks s₂ (.back it) y s₃)
      (hy : ∀ z ∈ y, Fits (F (w.layout.functionRoot it)) z) (hfresh : ∀ j, W j → j.context ≠ it)
      (hloops : ∀ a ∈ scope.loops, a.context ≠ it)
      (hnext : ∀ next, w.program.NextOf it next ↔ ks[0]? = some next)
      (hrest : Tame w plain W F (.iterations scope ks y) s₃ none s')
      (hkeep : ∀ j, W j → s₂.bin j ⊆ s'.bin j) :
      Tame w plain W F (.iterations scope (it :: ks) (some x)) s none s'
  | noInstr {W : Bin → Prop} {F : Frames} {scope : Scope} {certain : Bool} {x : Snapshot}
      {s : State} : Tame w plain W F (.instrs scope certain [] x) s (some x) s
  | instr {W : Bin → Prop} {F : Frames} {scope : Scope} {certain : Bool} {inst : Instr}
      {insts : List Instr} {x y : Snapshot} {out : Option Snapshot} {s s₁ s' : State}
      (hcallee : inst.op.callee? = none) (hinst : inst ∈ w.program.instrs)
      (hemitted : scope.suppressed = false) (hnoted : Noted w plain s)
      (hx : Fits (F (w.layout.functionRoot scope.context)) x)
      (hvisit : Visits w scope inst x s y s₁)
      (hrest : Tame w plain W F (.instrs scope certain insts y) s₁ out s') :
      Tame w plain W F (.instrs scope certain (inst :: insts) x) s out s'
  | shared {W : Bin → Prop} {F : Frames} {scope : Scope} {certain : Bool} {inst : Instr}
      {insts : List Instr} {callee : ContextId} {other : InstId} {now : Stamp} {x : Snapshot}
      {out : Option Snapshot} {s s₁ s' : State} (hcallee : inst.op.callee? = some callee)
      (hinst : inst ∈ w.program.instrs) (hother : s.firstCalls.get? callee = some other)
      (hne : other ≠ inst.id) (hx : Fits (F (w.layout.functionRoot scope.context)) x)
      (hstill : Still s s₁)
      (hrest : Tame w plain W F (.instrs scope certain insts (x.clobberAll now)) s₁ out s') :
      Tame w plain W F (.instrs scope certain (inst :: insts) x) s out s'
  | stuck {W : Bin → Prop} {F : Frames} {scope : Scope} {certain : Bool} {inst : Instr}
      {insts : List Instr} {callee : ContextId} {d : Context} {x : Snapshot} {s s' : State}
      (hcallee : inst.op.callee? = some callee) (hinst : inst ∈ w.program.instrs)
      (hown : ∀ i, s.firstCalls.get? callee = some i → i = inst.id)
      (hd : w.program.contexts.get? callee = some d)
      (hx : Fits (F (w.layout.functionRoot scope.context)) x)
      (hfunction : Tame w plain W F (.function callee scope.loops false x)
        { s with firstCalls := s.firstCalls.insert callee inst.id } none s') :
      Tame w plain W F (.instrs scope certain (inst :: insts) x) s none s'
  | call {W : Bin → Prop} {F : Frames} {scope : Scope} {certain : Bool} {inst : Instr}
      {insts : List Instr} {callee : ContextId} {d : Context} {x y : Snapshot}
      {out : Option Snapshot} {s s₁ s₂ s' : State} (hcallee : inst.op.callee? = some callee)
      (hinst : inst ∈ w.program.instrs)
      (hown : ∀ i, s.firstCalls.get? callee = some i → i = inst.id)
      (hd : w.program.contexts.get? callee = some d)
      (hx : Fits (F (w.layout.functionRoot scope.context)) x)
      (hfunction : Tame w plain W F (.function callee scope.loops false x)
        { s with firstCalls := s.firstCalls.insert callee inst.id } (some y) s₁)
      (hy : Fits (F (w.layout.functionRoot scope.context)) y) (hstill : Still s₁ s₂)
      (hrest : Tame w plain W F (.instrs scope certain insts y) s₂ out s') :
      Tame w plain W F (.instrs scope certain (inst :: insts) x) s out s'
  | function {W : Bin → Prop} {F : Frames} {k : ContextId} {c : Context} {cs : List ContextId}
      {loops : List ActiveLoop} {now : Stamp} {x : Snapshot} {y : Option Snapshot}
      {s s₁ s₂ s' : State} (hc : w.program.contexts.get? k = some c)
      (hroot : w.layout.functionRoot k = k) (hx : Fits cs x) (hstill : Still s s₁)
      (hentry : c.entry ∈ c.regions.map start) (htidy : Tidy w plain W F s₁)
      (hbody : Tame w plain (fun j => W j ∨ j = .returns k) (Function.update F k (k :: cs))
        (.regions ⟨k, loops, false⟩ c.regions)
        (s₁.leave (x.pushFrame now k) (.block k c.entry)) none s₂)
      (hpick : Picks s₂ (.returns k) y s')
      (hfresh : ∀ j, W j → w.layout.functionRoot j.context ≠ k)
      (hloops : ∀ a ∈ loops, w.layout.functionRoot a.context ≠ k) :
      Tame w plain W F (.function k loops false x) s y s'

/-! ## What was found stays -/

/-- What the state `s'` keeps of what was found at `s`: the calls that came first stay so, an answer
`never` is final, and while all references survive needs only become stronger. -/
structure Later (s s' : State) : Prop where
  calls : Extends s.firstCalls s'.firstCalls
  never : ∀ {i}, s.findings.needs.get? i = some .never → s'.findings.needs.get? i = some .never
  grows : s.references.missing = ∅ → s'.references.missing = ∅ ∧
    ∀ {i n}, s.findings.needs.get? i = some n →
      ∃ n', s'.findings.needs.get? i = some n' ∧ n ≤ n'

namespace Later

theorem of_eq (hcalls : Extends s.firstCalls s'.firstCalls)
    (hneeds : s'.findings.needs = s.findings.needs)
    (hmissing : s.references.missing = ∅ → s'.references.missing = ∅) : Later s s' :=
  ⟨hcalls, fun h => hneeds ▸ h,
    fun hm => ⟨hmissing hm, fun {_ n} h => ⟨n, hneeds ▸ h, Need.le_refl n⟩⟩⟩

theorem refl (s : State) : Later s s := of_eq (extends_of_eq rfl) rfl id

theorem trans (h : Later s s₁) (h' : Later s₁ s') : Later s s' := by
  refine ⟨h.calls.trans h'.calls, fun hi => h'.never (h.never hi), fun hm => ?_⟩
  obtain ⟨hm₁, hgrows⟩ := h.grows hm
  obtain ⟨hm', hgrows'⟩ := h'.grows hm₁
  refine ⟨hm', fun hn => ?_⟩
  obtain ⟨n₁, hn₁, hle⟩ := hgrows hn
  obtain ⟨n', hn', hle'⟩ := hgrows' hn₁
  exact ⟨n', hn', Need.le_trans hle hle'⟩

theorem still (h : Still s s') : Later s s' :=
  of_eq (extends_of_eq h.firstCalls) h.needs h.missing

theorem pick {k : Bin} (h : Picks s k out s') : Later s s' :=
  (of_eq (extends_of_eq (by simp)) (by simp) (by simp)).trans (still h.still)

theorem leave (s : State) (x : Snapshot) (k : Bin) : Later s (s.leave x k) :=
  of_eq (extends_of_eq (by simp)) (by simp) (by simp)

/-- From the end of one pass over a loop to the start of the next. -/
theorem again {k j : Bin} {s₃ : State} (hagain : Picks s k out s₃) (hstill : Still s₃ s') :
    Later s (s'.leave x j) :=
  ((pick hagain).trans (.still hstill)).trans (leave ..)

theorem close (s : State) (k : ContextId) (info : Loop) (first second : Snapshot) :
    Later s (s.close k info first second) :=
  of_eq (extends_of_eq rfl) rfl (by simp [State.close])

theorem enter {g : ContextId} {i : InstId} (hown : ∀ j, s.firstCalls.get? g = some j → j = i) :
    Later s { s with firstCalls := s.firstCalls.insert g i } :=
  of_eq (extends_insert hown) rfl id

theorem visit {inst : Instr} (h : Visits w scope inst x s y s') (hnoted : Noted w plain s)
    (hinst : inst ∈ w.program.instrs) : Later s s' := by
  cases h with
  | own _ _ hstill => exact still hstill
  | other _ _ hstill => exact still hstill
  | @read need recorded now _ _ hneed hrecorded hmissing hstill =>
    suffices hrecord : Later s (s.record inst.id recorded) from hrecord.trans (still hstill)
    refine ⟨extends_of_eq rfl, fun {i} hi => ?_, fun hm => ⟨hm, fun {i n} hn => ?_⟩⟩
    · simp only [State.record, IdentMap.get?_insert]
      split
      · next heq =>
        subst heq
        rw [needNow, if_pos (.inr hi)] at hneed
        exact congrArg some (hrecorded.elim (fun h => h.trans hneed) id)
      · exact hi
    · simp only [State.record, IdentMap.get?_insert]
      split
      · next heq =>
        subst heq
        refine ⟨recorded, rfl, ?_⟩
        rw [hmissing hm, hneed, hn, needNow]
        split
        · next hlocal =>
          rcases hlocal with hlocal | hbefore
          · rw [hnoted.own inst hinst hlocal hn]
            exact Need.le_refl _
          · rw [Option.some.inj hbefore]
            exact Need.le_refl _
        · exact Need.le_max_left _ _
      · exact ⟨n, hn, Need.le_refl n⟩

theorem finish (h : Finishes w scope block out s s') : Later s s' := by
  cases h with
  | ret _ _ _ hstill => exact (leave _ _ _).trans (still hstill)
  | @branch x ds =>
    clear * -
    induction ds generalizing s with
    | nil => exact refl s
    | cons d ds ih => exact (leave s x d.bin).trans ih
  | _ => exact refl s

end Later

theorem Tame.follows {task : Task} (h : Tame w plain W F task s out s') : Later s s' := by
  induction h with
  | nil => exact .refl _
  | cons _ _ _ _ _ hr hrs => exact hr.trans hrs
  | skip hpick => exact .pick hpick
  | block _ _ hpick _ _ _ hstill _ _ _ hfinish _ _ hinsts =>
    exact ((Later.pick hpick).trans (.still hstill)).trans (hinsts.trans (.finish hfinish))
  | peel _ hpick _ _ _ _ hiterations => exact (Later.pick hpick).trans hiterations
  | pass _ hpick => exact .pick hpick
  | once _ hpick _ _ hbody => exact ((Later.pick hpick).trans (.leave _ _ _)).trans hbody
  | twice _ _ hpick _ hagain _ hstill _ _ _ _ _ _ _ _ hfirst hsecond =>
    have hpass₁ := ((Later.pick hpick).trans (.leave _ _ _)).trans hfirst
    exact (hpass₁.trans ((Later.again hagain hstill).trans hsecond)).trans (.close _ _ _ _ _)
  | lastIteration => exact .refl _
  | noIteration => exact .refl _
  | iteration _ _ _ hstill _ _ hpick _ _ _ _ _ _ hbody hrest =>
    exact (((Later.still hstill).trans (.leave _ _ _)).trans hbody).trans
      ((Later.pick hpick).trans hrest)
  | noInstr => exact .refl _
  | instr _ hinst _ hnoted _ hvisit _ hrest => exact (Later.visit hvisit hnoted hinst).trans hrest
  | shared _ _ _ _ _ hstill _ hrest => exact (Later.still hstill).trans hrest
  | stuck _ _ hown _ _ _ hfunction => exact (Later.enter hown).trans hfunction
  | call _ _ hown _ _ _ _ hstill _ hfunction hrest =>
    exact ((Later.enter hown).trans hfunction).trans ((Later.still hstill).trans hrest)
  | function _ _ _ hstill _ _ _ hpick _ _ hbody =>
    exact (((Later.still hstill).trans (.leave _ _ _)).trans hbody).trans (.pick hpick)

theorem Framed.follow (h : Framed w base A F s) (hlater : Later s s') : Framed w base A F s' :=
  fun f hf => (h f hf).extend hlater.calls

/-! ## Walks are tame -/

/-- What a walk does, when it starts in order: it is tame, it ends in order, and it leaves the
other bins alone. -/
def Orders (w : Setting) (plain : Prop) (base : List ContextId) :
    Task → State → Option Snapshot → State → Prop
  | .regions scope rs, s, _, s' => ∀ {A : ContextId → Prop} {W : Bin → Prop} {F : Frames}
      {c : Context} {later : List BlockId} {around : List Loop}, Stance w A F W scope c →
      Framed w base A F s → Cut c rs later around → Spot W scope c (placesAll rs) later around →
      Tidy w plain (Opens W scope.context (rs.map start)) F s →
      Tame w plain W F (.regions scope rs) s none s' ∧ Tidy w plain W F s' ∧
        Keeps w W scope.context (placesAll rs) s s'
  | .region scope r, s, _, s' => ∀ {A : ContextId → Prop} {W : Bin → Prop} {F : Frames}
      {c : Context} {rs : List Region} {later : List BlockId} {around : List Loop},
      Stance w A F W scope c → Framed w base A F s → Cut c (r :: rs) later around →
      Spot W scope c r.places (rs.map start ++ later) around →
      Tidy w plain (Opens W scope.context [r.start]) F s →
      Tame w plain W F (.region scope r) s none s' ∧ Tidy w plain W F s' ∧
        Keeps w W scope.context r.places s s'
  | .iterations scope ks x, s, _, s' => ∀ {A : ContextId → Prop} {W : Bin → Prop} {F : Frames}
      {c : Context} {info : Loop} {body rs : List Region} {later : List BlockId}
      {around : List Loop} {peel : PeelAttempt} {i : Nat}, Stance w A F W scope c →
      Framed w base A F s → Cut c (.loop info body :: rs) later around →
      info.terminatedPeel? = some peel →
      peel.iterations.drop i = ks → (∀ t ∈ rs.map start ++ later, W (.block scope.context t)) →
      (∀ y ∈ x, Fits (F (w.layout.functionRoot scope.context)) y) → Tidy w plain W F s →
      Tame w plain W F (.iterations scope ks x) s none s' ∧ Tidy w plain W F s' ∧
        Keeps w W scope.context [] s s'
  | .conditions scope conds x, s, out, s' => scope.suppressed = false →
      (∀ cond ∈ conds, ∀ g, cond.fact ≠ .checker g) →
      Still s s' ∧ ∃ y, out = some y ∧ Vouches w conds x y
  | .instrs scope certain insts x, s, out, s' => ∀ {A : ContextId → Prop} {W : Bin → Prop}
      {F : Frames} {c : Context} {b : BlockId} {block : Block} {i : Nat},
      Stance w A F W scope c → Framed w base A F s → c.blocks.get? b = some block →
      block.insts.drop i = insts →
      Fits (F (w.layout.functionRoot scope.context)) x → Tidy w plain W F s →
      Tame w plain W F (.instrs scope certain insts x) s out s' ∧ Tidy w plain W F s' ∧
        (∀ j, s'.bin j = s.bin j) ∧
        ∀ y ∈ out, Fits (F (w.layout.functionRoot scope.context)) y
  | .function g loops suppressed x, s, out, s' => ∀ {A : ContextId → Prop} {W : Bin → Prop}
      {F : Frames} {c : Context} {cs : List ContextId}, suppressed = false →
      Enters w A F W loops cs g c →
      Framed w base (fun f => A f ∨ f = g) (Function.update F g (g :: cs)) s → Fits cs x →
      Tidy w plain W F s →
      Tame w plain W F (.function g loops false x) s out s' ∧ Tidy w plain W F s' ∧
        (∀ j, s'.bin j = s.bin j) ∧ ∀ y ∈ out, Fits cs y

theorem opens_singleton {k : ContextId} {j : Bin} (h : Opens W k [t] j) : W j ∨ j = .block k t := by
  rcases h with hj | ⟨t', ht', rfl⟩
  · exact .inl hj
  · exact .inr (by rw [List.mem_singleton.1 ht'])

theorem orders_nil : Orders w plain base (.regions scope []) s none s := by
  intro A W F c later around _ _ _ _ htidy
  refine ⟨.nil, htidy.mono ?_, .of_bin fun _ => rfl⟩
  rintro j (hj | ⟨_, ht, -⟩)
  · exact hj
  · cases ht

theorem orders_cons (hl : w.program.Linked w.layout) (ho : w.program.Orderly w.layout) {r : Region}
    (hr : Orders w plain base (.region scope r) s none s₁)
    (hrs : Orders w plain base (.regions scope rs) s₁ none s') :
    Orders w plain base (.regions scope (r :: rs)) s none s' := by
  intro A W F c later around hst hframed hcut hspot htidy
  have hapart := hl.cut_apart hst.found ho hcut
  have hstarts := (hl.starts_sublist hst.found hcut.next).subset
  obtain ⟨hr, htidy₁, hkeep₁⟩ := hr (hst.opens (rs.map start)) hframed hcut hspot.head
    (htidy.mono (by
    rintro j (hj | ⟨t, ht, rfl⟩)
    · exact .inl (.inl hj)
    rcases List.mem_cons.1 ht with rfl | ht
    · exact .inr ⟨_, List.mem_singleton.2 rfl, rfl⟩
    · exact .inl (.inr ⟨t, ht, rfl⟩)))
  obtain ⟨hrs, htidy', hkeep₂⟩ := hrs hst (hframed.follow hr.follows) hcut.next hspot.tail htidy₁
  refine ⟨.cons hr hrs hstarts (fun t ht => ?_) (fun j hj => ?_), htidy', ?_⟩
  · refine hkeep₁.grows (.inr ⟨t, ht, rfl⟩) fun t' ht' => ⟨fun heq => ?_, nofun⟩
    cases heq
    have hnodup := (List.nodup_append.1 hapart.nodup).1
    exact (List.nodup_append.1 hnodup).2.2 t ht' t (hstarts ht) rfl
  · refine hkeep₂.grows hj fun t ht => ?_
    have hclosed := hspot.not_open_tail hapart ht
    exact ⟨fun heq => hclosed.1 (heq ▸ hj), fun heq => hclosed.2 (heq ▸ hj)⟩
  · exact (hkeep₁.mono (fun _ hj => .inl hj) (List.subset_append_left _ _)).trans
      (hkeep₂.mono (fun _ hj => hj) (List.subset_append_right _ _))

theorem orders_skip (hpick : Picks s (.block scope.context b) none s') :
    Orders w plain base (.region scope (.block b)) s none s' := by
  intro A W F c rs later around _ _ _ _ htidy
  exact ⟨.skip hpick, (htidy.pick hpick fun _ => opens_singleton).1,
    .pick_block hpick List.mem_cons_self⟩

theorem program_block_eq_ok {k : ContextId} (hc : w.program.contexts.get? k = some c)
    (h : w.program.block k b = .ok block) : c.blocks.get? b = some block := by
  obtain ⟨c', hc', h⟩ := Program.block_eq_ok.1 h
  cases hc.symm.trans hc'
  exact h

theorem conditionsAt_subset {k : ContextId} {conds : List PathCondition}
    (h : conditionsAt w k b = .ok conds) : conds ⊆ w.program.pathConditions := by
  rw [conditionsAt, bind_eq_ok] at h
  obtain ⟨d, -, h⟩ := h
  split at h
  · cases h
    exact List.nil_subset _
  · cases h
    exact List.filter_subset_self _

/-- The end of a block leaves what it has in open bins. -/
theorem finish_tidy (hfinish : Finishes w scope block out s s') (htidy : Tidy w plain W F s)
    (hfits : ∀ y ∈ out, Fits (F (w.layout.functionRoot scope.context)) y)
    (hreturns : W (.returns (w.layout.functionRoot scope.context)))
    (hroot : w.layout.functionRoot (w.layout.functionRoot scope.context) =
      w.layout.functionRoot scope.context)
    (hopen : ∀ t ∈ block.liveSuccs, ∀ d, route w scope block.id t = .ok (some d) →
      W d.bin ∧ w.layout.functionRoot d.bin.context = w.layout.functionRoot scope.context) :
    Tidy w plain W F s' ∧ Keeps w W scope.context ts s s' := by
  cases hfinish with
  | stuck => exact ⟨htidy, .of_bin fun _ => rfl⟩
  | unreachable => exact ⟨htidy, .of_bin fun _ => rfl⟩
  | dropped => exact ⟨htidy, .of_bin fun _ => rfl⟩
  | @ret x y _ _ _ _ _ _ hpop hstill =>
    have hy : Fits ((Bin.returns (w.layout.functionRoot scope.context)).frames w.layout F) y :=
      (hfits x rfl).popFrame hpop
    exact ⟨(htidy.leave hreturns hy).still hstill,
      (Keeps.leave y hroot).trans (.of_bin hstill.bin)⟩
  | @branch x ds _ _ _ hds =>
    have hx := hfits x rfl
    have hds' : ∀ d ∈ ds, W d.bin ∧
        w.layout.functionRoot d.bin.context = w.layout.functionRoot scope.context := by
      intro d hd
      obtain ⟨t, ht, hroute⟩ := (hds d).1 hd
      exact hopen t ht d hroute
    clear hds
    induction ds generalizing s with
    | nil => exact ⟨htidy, .of_bin fun _ => rfl⟩
    | cons d ds ih =>
      obtain ⟨⟨hd, hdroot⟩, hds'⟩ := List.forall_mem_cons.1 hds'
      have hframes : d.bin.frames w.layout F = F (w.layout.functionRoot scope.context) := by
        rw [← hdroot]
        cases d <;> rfl
      obtain ⟨htidy', hkeep⟩ := ih (htidy.leave hd (hframes ▸ hx)) hds'
      exact ⟨htidy', (Keeps.leave x hdroot).trans hkeep⟩

theorem Vouches.fits {cs : List ContextId} {conds : List PathCondition} (h : Vouches w conds x y)
    (hx : Fits cs x) : Fits cs y := by
  induction h with
  | nil => exact hx
  | cons now _ _ ih => exact ih (hx.flow (Program.vouch_flows _ _ _) now)

theorem orders_block (hl : w.program.Linked w.layout) (ho : w.program.Orderly w.layout)
    {conds : List PathCondition} {x₁ : Snapshot} {y : Option Snapshot} {s₃ : State}
    (hblock : w.program.block scope.context b = .ok block)
    (hpick : Picks s (.block scope.context b) (some x) s₁)
    (hconds : conditionsAt w scope.context b = .ok conds)
    (hcond : Orders w plain base (.conditions scope conds x) s₁ (some x₁) s₂)
    (hinsts : Orders w plain base (.instrs scope block.certain block.insts x₁) s₂ y s₃)
    (hfinish : Finishes w scope block y s₃ s') :
    Orders w plain base (.region scope (.block b)) s none s' := by
  intro A W F c rs later around hst hframed hcut hspot htidy
  have hb := program_block_eq_ok hst.found hblock
  have hid := hl.block_id hst.found hb
  obtain ⟨htidy₁, hfits⟩ := htidy.pick hpick fun _ => opens_singleton
  have hx : Fits (F (w.layout.functionRoot scope.context)) x := hfits x rfl
  obtain ⟨hstill, _, hx₁, hvouch⟩ := hcond hst.emitted fun cond hmem =>
    ho.noChecker cond (conditionsAt_subset hconds hmem)
  cases hx₁
  obtain ⟨hinsts, htidy₃, hbins, hy⟩ := hinsts (i := 0) hst
    (hframed.follow ((Later.pick hpick).trans (.still hstill))) hb rfl (hvouch.fits hx)
    (htidy₁.still hstill)
  have hopen : ∀ t ∈ block.liveSuccs, ∀ d, route w scope block.id t = .ok (some d) →
      W d.bin ∧ w.layout.functionRoot d.bin.context = w.layout.functionRoot scope.context := by
    intro t ht d hroute
    exact route_open hl ho hst hcut hspot hb ht (hid ▸ hroute)
  have hroot : w.layout.functionRoot (w.layout.functionRoot scope.context) =
      w.layout.functionRoot scope.context := by
    obtain ⟨d, hd, hfun⟩ := hl.functionRoot_exists hst.found
    exact hl.functionRoot_of_isFunction hd hfun
  obtain ⟨htidy', hkeep⟩ := finish_tidy hfinish htidy₃ hy hst.returns hroot hopen
  refine ⟨.block hst.found hb hpick hx hconds hvouch hstill hinsts hy hbins hfinish hst.returns
    fun t ht d hroute => (hopen t ht d hroute).1, htidy', ?_⟩
  have hmiddle : Keeps w W scope.context [b] s₁ s₃ :=
    .of_bin fun j => (hbins j).trans (hstill.bin j)
  exact ((Keeps.pick_block hpick List.mem_cons_self).trans hmiddle).trans hkeep

theorem orders_peel (hl : w.program.Linked w.layout) (ho : w.program.Orderly w.layout)
    {info : Loop} {body : List Region} {peel : PeelAttempt}
    (hpeel : info.terminatedPeel? = some peel)
    (hpick : Picks s (.block scope.context info.header) out s₁)
    (hiterations : Orders w plain base (.iterations scope peel.iterations out) s₁ none s') :
    Orders w plain base (.region scope (.loop info body)) s none s' := by
  intro A W F c rs later around hst hframed hcut hspot htidy
  obtain ⟨htidy₁, hfits⟩ := htidy.pick hpick fun _ => opens_singleton
  obtain ⟨hiterations, htidy', hkeep⟩ := hiterations (i := 0) hst
    (hframed.follow (.pick hpick)) hcut hpeel rfl hspot.later hfits htidy₁
  have hfirst (it : ContextId) : w.program.FirstOf scope.context info.header it ↔
      peel.iterations[0]? = some it :=
    hl.firstOf_iff ho hst.found (Program.Linked.cut_mem_loops hcut) hpeel
  refine ⟨.peel hpeel hpick hfits hfirst
    (hl.first_iteration hst.found (Program.Linked.cut_mem_loops hcut) hpeel) hiterations, htidy', ?_⟩
  have hplace : info.header ∈ (Region.loop info body).places := by simp [places, hpeel]
  exact (Keeps.pick_block hpick hplace).trans (hkeep.mono (fun _ hj => hj) (List.nil_subset _))

theorem orders_pass (hl : w.program.Linked w.layout) {info : Loop} {body : List Region}
    (hpeel : info.terminatedPeel? = none)
    (hpick : Picks s (.block scope.context info.header) none s') :
    Orders w plain base (.region scope (.loop info body)) s none s' := by
  intro A W F c rs later around hst _ hcut _ htidy
  exact ⟨.pass hpeel hpick, (htidy.pick hpick fun _ => opens_singleton).1,
    .pick_block hpick (hl.start_mem_places hst.found hcut)⟩

theorem orders_once (hl : w.program.Linked w.layout) {info : Loop} {body : List Region}
    {latch : Block} (hpeel : info.terminatedPeel? = none)
    (hpick : Picks s (.block scope.context info.header) (some x) s₁)
    (hlatch : w.program.block scope.context info.latch = .ok latch)
    (hback : latch.hasLiveEdgeTo info.header = false)
    (hbody : Orders w plain base (.regions scope body) (s₁.leave x (.block scope.context info.header))
      none s') : Orders w plain base (.region scope (.loop info body)) s none s' := by
  intro A W F c rs later around hst hframed hcut hspot htidy
  obtain ⟨htidy₁, hfits⟩ := htidy.pick hpick fun _ => opens_singleton
  have hplaces : (Region.loop info body).places = placesAll body := by simp [places, hpeel]
  have hdead : ∀ block, c.blocks.get? info.latch = some block →
      block.hasLiveEdgeTo info.header = false := by
    intro block hblock
    cases hblock.symm.trans (program_block_eq_ok hst.found hlatch)
    exact hback
  have hplace := hl.start_mem_places hst.found hcut
  obtain ⟨⟨rest, rfl⟩, -⟩ := hl.cut_body hst.found hcut hpeel
  rw [hplaces] at hspot hplace ⊢
  obtain ⟨hbody, htidy', hkeep⟩ := hbody hst
    (hframed.follow ((Later.pick hpick).trans (.leave _ _ _))) (hcut.body hpeel) (hspot.once hdead)
    ((htidy₁.mono fun _ => .inl).leave (.inr ⟨_, List.mem_cons_self, rfl⟩) (hfits x rfl))
  exact ⟨.once hpeel hpick (hfits x rfl) hbody, htidy',
    ((Keeps.pick_block hpick hplace).trans (.leave x rfl)).trans hkeep⟩

theorem bin_close {k : ContextId} {info : Loop} {first second : Snapshot} (j : Bin) :
    (s.close k info first second).bin j = (s.clear (.closing k info.header)).bin j := by
  cases j <;> rfl

/-- The present context has an open bin of its own. -/
theorem Stance.exists_open (hl : w.program.Linked w.layout) (h : Stance w A F W scope c) :
    ∃ j, W j ∧ j.context = scope.context := by
  cases hfun : c.isFunction with
  | true =>
    have hroot := hl.functionRoot_of_isFunction h.found hfun
    exact ⟨_, h.returns, hroot⟩
  | false => exact ⟨_, h.back hfun, rfl⟩

/-- The loops around a loop keep control that comes to its header. -/
theorem Spot.not_dropped (h : Spot W scope c ts after around) {info : Loop} {body : List Region}
    (hapart : Program.Linked.Apart (.loop info body :: rs) later around)
    (hstart : info.header ∈ (Region.loop info body).places) (hts : info.header ∈ ts) (b : BlockId) :
    ¬ Dropped scope.loops scope.context b info.header := by
  rintro ⟨a, ha, hctx, hdrops⟩
  obtain ⟨⟨info', hinfo', hheader⟩, hmembers⟩ := h.inside a ha hctx
  cases hpass : a.pass with
  | first =>
    have := IdentSet.contains_iff.2 (hmembers _ hts)
    simp [ActiveLoop.drops, hpass, this] at hdrops
  | second =>
    simp only [ActiveLoop.drops, hpass, Bool.and_eq_true, decide_eq_true_eq] at hdrops
    have hmem : info'.header ∈ placesAll (.loop info body :: rs) := by
      rw [← hheader, ← hdrops.2]
      exact List.mem_append_left _ hstart
    obtain ⟨_, heq, -⟩ := hapart.body info' hinfo' hmem
    cases heq

theorem orders_twice (hl : w.program.Linked w.layout) (ho : w.program.Orderly w.layout)
    {info : Loop} {body : List Region} {first second : Snapshot} {again : Option Snapshot}
    {s₃ s₄ s₅ : State} (hpeel : info.terminatedPeel? = none)
    (hpick : Picks s (.block scope.context info.header) (some first) s₁)
    (hfirst : Orders w plain base (.regions (scope.over info body .first) body)
      (s₁.leave first (.block scope.context info.header)) none s₂)
    (hagain : Picks s₂ (.block scope.context info.header) again s₃)
    (hmeet : IsPickUp (first :: again.toList) (some second)) (hstill : Still s₃ s₄)
    (hsecond : Orders w plain base (.regions (scope.over info body .second) body)
      (s₄.leave second (.block scope.context info.header)) none s₅) :
    Orders w plain base (.region scope (.loop info body)) s none
      (s₅.close scope.context info first second) := by
  intro A W F c rs later around hst hframed hcut hspot htidy
  have hplaces : (Region.loop info body).places = placesAll body := by simp [places, hpeel]
  have hplace := hl.start_mem_places hst.found hcut
  have hapart := hl.cut_apart hst.found ho hcut
  have hclosed : ∀ t ∈ placesAll body,
      ¬ W (.block scope.context t) ∧ ¬ W (.closing scope.context t) := fun t ht =>
    hspot.not_open_loop hapart (hl.starts_sublist hst.found hcut.next) (hplaces ▸ ht)
  have hmembers := fun t ht => hl.mem_members (t := t) hst.found hcut hpeel ht
  have houter := hspot.not_dropped hapart hplace hplace
  obtain ⟨⟨rest, hrest⟩, -⟩ := hl.cut_body hst.found hcut hpeel
  have hstart : info.header ∈ body.map start := by simp [hrest, start]
  rw [hplaces] at hspot hplace ⊢
  -- the first pass
  obtain ⟨htidy₁, hfits₁⟩ := htidy.pick hpick fun _ => opens_singleton
  have hx := hfits₁ first rfl
  have hframed₁ := hframed.follow
    ((Later.pick hpick).trans (.leave _ first (.block scope.context info.header)))
  obtain ⟨hfirst, htidy₂, hkeep₂⟩ := hfirst ((hst.opens [info.header]).over fun h => by cases h)
    hframed₁ (hcut.body hpeel) (hspot.first hmembers)
    ((htidy₁.mono fun _ hj => .inl (.inl hj)).leave (.inr ⟨_, hstart, rfl⟩) hx)
  -- between the passes
  obtain ⟨htidy₃, hfits₃⟩ := htidy₂.pick hagain fun _ => opens_singleton
  have hx' : Fits (F (w.layout.functionRoot scope.context)) second :=
    Fits.meet hmeet (List.forall_mem_cons.2 ⟨hx, fun y hy => hfits₃ y (Option.mem_toList.1 hy)⟩)
  have htidy₄ := htidy₃.still hstill
  -- the second pass
  obtain ⟨hsecond, htidy₅, hkeep₅⟩ := hsecond
    ((hst.widen (V := fun j => j = .closing scope.context info.header) fun _ hj => hj ▸ rfl).over
      fun _ => .inr rfl) (hframed₁.follow (hfirst.follows.trans (.again hagain hstill)))
    (hcut.body hpeel) (hspot.second hmembers)
    ((htidy₄.mono fun _ hj => .inl (.inl hj)).leave (.inr ⟨_, hstart, rfl⟩) hx')
  refine ⟨.twice hpeel hrest hpick hfirst hagain hmeet hstill hx' htidy₄ hsecond
    htidy₅ (hst.exists_open hl) hclosed hmembers houter, ?_, ?_⟩
  · have hend := htidy₅.clear (W := W) (k := .closing scope.context info.header) fun _ hj => hj
    refine ⟨hend.noted.of_eq rfl rfl rfl, fun hy => hend.bins ?_⟩
    rwa [bin_close] at hy
  · have hpass₁ : Keeps w W scope.context (placesAll body) s s₂ :=
      ((Keeps.pick_block hpick hplace).trans (.leave first rfl)).trans
        (hkeep₂.mono (fun _ hj => .inl hj) (List.Subset.refl _))
    have hpass₂ : Keeps w W scope.context (placesAll body) s₂ s₅ :=
      (((Keeps.pick_block hagain hplace).trans (.of_bin hstill.bin)).trans (.leave second rfl)).trans
        (hkeep₅.mono (fun _ hj => .inl hj) (List.Subset.refl _))
    have hclose : Keeps w W scope.context (placesAll body) s₅
        (s₅.clear (.closing scope.context info.header)) :=
      .clear fun _ => ⟨rfl, _, hplace, .inr rfl⟩
    exact ((hpass₁.trans hpass₂).trans hclose).trans (.of_bin bin_close)

theorem drop_cons {α : Type} {as rest : List α} {a : α} {i : Nat} (h : as.drop i = a :: rest) :
    as[i]? = some a ∧ as.drop (i + 1) = rest := by
  constructor
  · rw [← List.head?_drop, h, List.head?_cons]
  · rw [← List.tail_drop, h, List.tail_cons]

theorem orders_iteration (hl : w.program.Linked w.layout) (ho : w.program.Orderly w.layout)
    {it : ContextId} {d : Context} {ks : List ContextId} {y : Option Snapshot} {s₃ : State}
    (hd : w.program.context it = .ok d) (hstill : Still s s₁)
    (hbody : Orders w plain base
      (.regions ⟨it, scope.loops, scope.suppressed || !d.materialized⟩ d.regions)
      (s₁.leave x (.block it d.entry)) none s₂)
    (hpick : Picks s₂ (.back it) y s₃)
    (hrest : Orders w plain base (.iterations scope ks y) s₃ none s') :
    Orders w plain base (.iterations scope (it :: ks) (some x)) s none s' := by
  intro A W F c info body rs later around peel i hst hframed hcut hpeel hdrop hafter hfits htidy
  have hd := Program.context_eq_ok.1 hd
  have hinfo := Program.Linked.cut_mem_loops hcut
  obtain ⟨hit, hks⟩ := drop_cons hdrop
  have henc := hl.iteration_encloses hst.found hinfo hpeel hit
  have hroot := hl.functionRoot_of_encloses henc
  have hfresh : ∀ j, W j → j.context ≠ it := fun j hj =>
    hl.around_ne_iteration (hst.busy hj).2 henc
  have hloops : ∀ a ∈ scope.loops, a.context ≠ it := fun a ha =>
    hl.around_ne_iteration (hst.active a ha).2 henc
  have hx : Fits (F (w.layout.functionRoot it)) x := hroot ▸ hfits x rfl
  have hentry := ho.entered hd
  rw [hst.emitted, ho.emitted hd] at hbody
  have hframed₁ := hframed.follow ((Later.still hstill).trans (.leave _ x (.block it d.entry)))
  obtain ⟨hbody, htidy₂, hkeep₂⟩ := hbody
    (hst.iteration hl hcut hpeel (List.mem_of_getElem? hit) hafter henc hd) hframed₁ .top
    (.top (fun j hj hctx => hj.elim (fun hj => (hfresh j hj hctx).elim) .inl) hloops)
    (((htidy.still hstill).mono fun _ hj => .inl (.inl hj)).leave (.inr ⟨_, hentry, rfl⟩) hx)
  obtain ⟨htidy₃, hy⟩ := htidy₂.pick hpick fun _ hj => hj
  have hnext : ∀ next, w.program.NextOf it next ↔ ks[0]? = some next := by
    intro next
    rw [hl.nextOf_iff ho hst.found hinfo hpeel hit, ← hks, List.getElem?_drop, Nat.add_zero]
  obtain ⟨hrest, htidy', hkeep'⟩ := hrest hst
    (hframed₁.follow (hbody.follows.trans (.pick hpick))) hcut hpeel hks hafter
    (fun z hz => hroot ▸ hy z hz) htidy₃
  have hback : Keeps w W scope.context [] s₂ s₃ := .pick hpick fun hj => (hfresh _ hj rfl).elim
  refine ⟨.iteration hd hroot hx hstill hentry hbody hpick hy hfresh hloops hnext hrest
    fun j hj => ?_, htidy', ?_⟩
  · exact (hback.trans hkeep').grows hj (by simp)
  · have hinner : Keeps w W scope.context [] (s₁.leave x (.block it d.entry)) s₂ :=
      ⟨fun hj _ => hkeep₂.grows (.inl hj) fun t _ =>
        ⟨fun heq => hfresh _ hj (heq ▸ rfl), fun heq => hfresh _ hj (heq ▸ rfl)⟩,
        fun hj hne => hkeep₂.foreign (.inl hj) (hroot ▸ hne)⟩
    exact ((((Keeps.of_bin hstill.bin).trans (.leave x hroot)).trans hinner).trans hback).trans hkeep'

theorem orders_bytes {cond : PathCondition} {conds : List PathCondition} {ptr : PointerValue}
    {offset : Int} {len : Nat} {now : Stamp} (hfact : cond.fact = .bytes ptr offset len)
    (hstill : Still s s₁) (hrest : Orders w plain base (.conditions scope conds
      (w.program.vouchUnless scope.suppressed now ptr offset len x)) s₁ out s') :
    Orders w plain base (.conditions scope (cond :: conds) x) s out s' := by
  intro hemitted hchecker
  obtain ⟨hstill', y, hy, hvouch⟩ := hrest hemitted fun cond' hmem =>
    hchecker cond' (List.mem_cons_of_mem _ hmem)
  rw [hemitted] at hvouch
  exact ⟨hstill.trans hstill', y, hy, .cons now hfact hvouch⟩

theorem Stance.contains (hst : Stance w A F W scope c) (hb : c.blocks.get? b = some block) {i : Nat}
    {inst : Instr} (hi : block.insts[i]? = some inst) :
    w.program.Contains w.layout (w.layout.functionRoot scope.context) inst :=
  ⟨_, c, b, block, hst.found, rfl, hb, List.mem_of_getElem? hi⟩

theorem orders_instr (hl : w.program.Linked w.layout) {certain : Bool} {inst : Instr}
    {insts : List Instr} (hcallee : inst.op.callee? = none) (hvisit : Visits w scope inst x s y s₁)
    (hrest : Orders w plain base (.instrs scope certain insts y) s₁ out s') :
    Orders w plain base (.instrs scope certain (inst :: insts) x) s out s' := by
  intro A W F c b block i hst hframed hb hdrop hx htidy
  obtain ⟨hi, hdrop⟩ := drop_cons hdrop
  have hinst := (hst.contains hb hi).mem_instrs hl.own
  obtain ⟨hrest, htidy', hbins, hout⟩ := hrest hst
    (hframed.follow (.visit hvisit htidy.noted hinst)) hb hdrop (hx.visit hvisit)
    (htidy.visit hl.names hinst hvisit)
  exact ⟨.instr hcallee hinst hst.emitted htidy.noted hx hvisit hrest, htidy',
    fun j => (hbins j).trans (hvisit.bin j), hout⟩

/-- A call is noted before its callee is entered. -/
theorem Tidy.enter (h : Tidy w plain W F s) {g : ContextId} {inst : Instr}
    (hinst : inst ∈ w.program.instrs) (hcallee : inst.op.callee? = some g) :
    Tidy w plain W F { s with firstCalls := s.firstCalls.insert g inst.id } := by
  refine ⟨⟨fun {g' j} hj => ?_, h.noted.own, h.noted.must, h.noted.missing, h.noted.never⟩,
    fun {j y} hy => h.bins (k := j) (by cases j <;> exact hy)⟩
  simp only [Table.get?_insert] at hj
  split at hj
  · next heq =>
    cases hj
    exact ⟨inst, hinst, heq ▸ hcallee, rfl⟩
  · exact h.noted.calls hj

/-- The callee is passed over. -/
theorem orders_shared (hl : w.program.Linked w.layout) {certain : Bool} {inst : Instr}
    {insts : List Instr} {callee : ContextId} {other : InstId} {now : Stamp}
    (hcallee : inst.op.callee? = some callee) (hother : s.firstCalls.get? callee = some other)
    (hne : other ≠ inst.id) (hstill : Still s s₁)
    (hrest : Orders w plain base (.instrs scope certain insts (x.clobberAll now)) s₁ out s') :
    Orders w plain base (.instrs scope certain (inst :: insts) x) s out s' := by
  intro A W F c b block i hst hframed hb hdrop hx htidy
  obtain ⟨hi, hdrop⟩ := drop_cons hdrop
  obtain ⟨hrest, htidy', hbins, hout⟩ := hrest hst (hframed.follow (.still hstill)) hb hdrop
    (hx.flow flows_clobberAll now) (htidy.still hstill)
  exact ⟨.shared hcallee ((hst.contains hb hi).mem_instrs hl.own) hother hne hx hstill hrest,
    htidy', fun j => (hbins j).trans (hstill.bin j), hout⟩

/-- The walk of a callee from the call that comes first. -/
theorem orders_callee (hl : w.program.Linked w.layout) (ho : w.program.Orderly w.layout)
    {inst : Instr} {callee : ContextId} {d : Context} {i : Nat}
    (hcallee : inst.op.callee? = some callee)
    (hown : ∀ i, s.firstCalls.get? callee = some i → i = inst.id)
    (hd : w.program.context callee = .ok d)
    (hfunction : Orders w plain base
      (.function callee scope.loops (scope.suppressed || !d.materialized) x)
      { s with firstCalls := s.firstCalls.insert callee inst.id } out s')
    (hst : Stance w A F W scope c) (hframed : Framed w base A F s)
    (hb : c.blocks.get? b = some block) (hi : block.insts[i]? = some inst)
    (hx : Fits (F (w.layout.functionRoot scope.context)) x) (htidy : Tidy w plain W F s) :
    Tame w plain W F (.function callee scope.loops false x)
        { s with firstCalls := s.firstCalls.insert callee inst.id } out s' ∧
      Tidy w plain W F s' ∧ (∀ j, s'.bin j = s.bin j) ∧
      ∀ y ∈ out, Fits (F (w.layout.functionRoot scope.context)) y := by
  have hcontains := hst.contains hb hi
  have hd := Program.context_eq_ok.1 hd
  obtain ⟨d', hd', hfun⟩ := hl.callee hst.found hb (List.mem_of_getElem? hi) hcallee
  cases hd.symm.trans hd'
  have henters := hst.enters hl ho hframed hcontains hcallee hown hd hfun
  have hframes := (hframed _ hst.walked).call hcontains hcallee hown
  obtain ⟨hfunction, htidy', hbins, hy⟩ := hfunction (by simp [hst.emitted, ho.emitted hd]) henters
    ((hframed.follow (.enter hown)).enter henters.fresh hframes) hx
    (htidy.enter (hcontains.mem_instrs hl.own) hcallee)
  exact ⟨hfunction, htidy', fun j => (hbins j).trans (by cases j <;> rfl), hy⟩

theorem orders_stuck (hl : w.program.Linked w.layout) (ho : w.program.Orderly w.layout)
    {certain : Bool} {inst : Instr} {insts : List Instr} {callee : ContextId} {d : Context}
    (hcallee : inst.op.callee? = some callee)
    (hown : ∀ i, s.firstCalls.get? callee = some i → i = inst.id)
    (hd : w.program.context callee = .ok d)
    (hfunction : Orders w plain base
      (.function callee scope.loops (scope.suppressed || !d.materialized) x)
      { s with firstCalls := s.firstCalls.insert callee inst.id } none s') :
    Orders w plain base (.instrs scope certain (inst :: insts) x) s none s' := by
  intro A W F c b block i hst hframed hb hdrop hx htidy
  obtain ⟨hi, -⟩ := drop_cons hdrop
  obtain ⟨hfunction, htidy', hbins, hout⟩ :=
    orders_callee hl ho hcallee hown hd hfunction hst hframed hb hi hx htidy
  exact ⟨.stuck hcallee ((hst.contains hb hi).mem_instrs hl.own) hown
    (Program.context_eq_ok.1 hd) hx hfunction, htidy', hbins, hout⟩

theorem orders_call (hl : w.program.Linked w.layout) (ho : w.program.Orderly w.layout)
    {certain : Bool} {inst : Instr} {insts : List Instr} {callee : ContextId} {d : Context}
    {z : Snapshot} (hcallee : inst.op.callee? = some callee)
    (hown : ∀ i, s.firstCalls.get? callee = some i → i = inst.id)
    (hd : w.program.context callee = .ok d)
    (hfunction : Orders w plain base
      (.function callee scope.loops (scope.suppressed || !d.materialized) x)
      { s with firstCalls := s.firstCalls.insert callee inst.id } (some y) s₁)
    (hz : z = y ∨ d.materialized = false ∧ ∃ now, z = y.clobberAll now) (hstill : Still s₁ s₂)
    (hrest : Orders w plain base (.instrs scope certain insts z) s₂ out s') :
    Orders w plain base (.instrs scope certain (inst :: insts) x) s out s' := by
  intro A W F c b block i hst hframed hb hdrop hx htidy
  obtain ⟨hi, hdrop⟩ := drop_cons hdrop
  obtain rfl : z = y := hz.resolve_right fun h => by
    rw [ho.emitted (Program.context_eq_ok.1 hd)] at h
    cases h.1
  obtain ⟨hfunction, htidy₁, hbins₁, hy⟩ :=
    orders_callee hl ho hcallee hown hd hfunction hst hframed hb hi hx htidy
  have hlater := ((Later.enter hown).trans hfunction.follows).trans (.still hstill)
  obtain ⟨hrest, htidy', hbins', hout⟩ := hrest hst (hframed.follow hlater) hb hdrop (hy z rfl)
    (htidy₁.still hstill)
  refine ⟨.call hcallee ((hst.contains hb hi).mem_instrs hl.own) hown (Program.context_eq_ok.1 hd)
    hx hfunction (hy z rfl) hstill hrest, htidy', fun j => ?_, hout⟩
  rw [hbins', hstill.bin, hbins₁]

theorem orders_function (hl : w.program.Linked w.layout) (ho : w.program.Orderly w.layout)
    {g : ContextId} {d : Context} {loops : List ActiveLoop} {suppressed : Bool} {now : Stamp}
    (hd : w.program.context g = .ok d) (hstill : Still s s₁)
    (hbody : Orders w plain base (.regions ⟨g, loops, suppressed⟩ d.regions)
      (s₁.leave (x.pushFrame now g) (.block g d.entry)) none s₂)
    (hpick : Picks s₂ (.returns g) out s') :
    Orders w plain base (.function g loops suppressed x) s out s' := by
  intro A W F c cs hsuppressed henters hframed hx htidy
  subst hsuppressed
  cases henters.found.symm.trans (Program.context_eq_ok.1 hd)
  have hroot := hl.functionRoot_of_isFunction henters.found henters.function
  have hfresh : ∀ j, W j → w.layout.functionRoot j.context ≠ g := fun j hj heq =>
    henters.fresh (heq ▸ henters.busy hj)
  have hloops : ∀ a ∈ loops, w.layout.functionRoot a.context ≠ g := fun a ha heq =>
    henters.fresh (heq ▸ henters.active a ha)
  have hentry := ho.entered henters.found
  have hframes : ∀ j, W j →
      j.frames w.layout (Function.update F g (g :: cs)) = j.frames w.layout F := by
    intro j hj
    have hne := hfresh j hj
    cases j with
    | returns f =>
      have hf : f ≠ g := by
        rintro rfl
        exact hne hroot
      simp [Bin.frames, Function.update_of_ne hf]
    | _ => exact Function.update_of_ne hne _ _
  have htidy₁ := htidy.still hstill
  have hpush : Fits ((Bin.block g d.entry).frames w.layout (Function.update F g (g :: cs)))
      (x.pushFrame now g) := by
    have : (Bin.block g d.entry).frames w.layout (Function.update F g (g :: cs)) = g :: cs := by
      simp [Bin.frames, Bin.context, hroot]
    rw [this]
    exact hx.pushFrame now g
  obtain ⟨hbody, htidy₂, hkeep₂⟩ := hbody (henters.stance hl)
    (hframed.follow ((Later.still hstill).trans (.leave _ (x.pushFrame now g) (.block g d.entry))))
    .top (.top (fun j hj hctx => hj.elim (fun hj => (hfresh j hj (hctx ▸ hroot)).elim) .inr)
      fun a ha hctx => hloops a ha (hctx ▸ hroot))
    (((htidy₁.congr hframes).mono fun _ hj => .inl (.inl hj)).leave (.inr ⟨_, hentry, rfl⟩) hpush)
  obtain ⟨htidy', hout⟩ := htidy₂.pick hpick fun _ hj => hj
  have htidy' : Tidy w plain W F s' := htidy'.congr fun j hj => (hframes j hj).symm
  refine ⟨.function henters.found hroot hx hstill hentry htidy₁ hbody hpick hfresh hloops, htidy',
    fun j => ?_, fun y hy => ?_⟩
  · by_cases hj : W j
    · have hne : j ≠ .returns g := by
        rintro rfl
        exact hfresh _ hj hroot
      have hne' : j ≠ .block g d.entry := by
        rintro rfl
        exact hfresh _ hj hroot
      rw [hpick.still.bin, bin_clear, if_neg hne,
        hkeep₂.foreign (.inl hj) (hroot.symm ▸ hfresh j hj), bin_leave, if_neg hne', hstill.bin]
    · rw [htidy'.empty hj, htidy.empty hj]
  · have := hout y hy
    simpa [Bin.frames] using this

/-- Every walk through an orderly program is tame. -/
theorem tame_of_walks (hl : w.program.Linked w.layout) (ho : w.program.Orderly w.layout)
    {task : Task} (h : Walks w task s out s') : Orders w plain base task s out s' := by
  induction h with
  | nil => exact orders_nil
  | cons _ _ hr hrs => exact orders_cons hl ho hr hrs
  | skip hpick => exact orders_skip hpick
  | block hblock hpick hconds _ _ hfinish hcond hinsts =>
    exact orders_block hl ho hblock hpick hconds hcond hinsts hfinish
  | peel hpeel hpick _ hiterations => exact orders_peel hl ho hpeel hpick hiterations
  | pass hpeel hpick => exact orders_pass hl hpeel hpick
  | once hpeel hpick hlatch hback _ hbody => exact orders_once hl hpeel hpick hlatch hback hbody
  | twice hpeel hpick _ _ _ hagain hmeet hstill _ hfirst hsecond =>
    exact orders_twice hl ho hpeel hpick hfirst hagain hmeet hstill hsecond
  | lastIteration =>
    intro A W F c info body rs later around peel i _ _ _ _ _ _ _ htidy
    exact ⟨.lastIteration, htidy, .of_bin fun _ => rfl⟩
  | noIteration =>
    intro A W F c info body rs later around peel i _ _ _ _ _ _ _ htidy
    exact ⟨.noIteration, htidy, .of_bin fun _ => rfl⟩
  | iteration hc hstill _ hpick _ hbody hrest =>
    exact orders_iteration hl ho hc hstill hbody hpick hrest
  | noCondition => exact fun _ _ => ⟨.refl _, _, rfl, .nil⟩
  | bytes hfact hstill _ hrest => exact orders_bytes hfact hstill hrest
  | checker hfact => exact fun _ hchecker => (hchecker _ List.mem_cons_self _ hfact).elim
  | noInstr =>
    intro A W F c b block i _ _ _ _ hx htidy
    exact ⟨.noInstr, htidy, fun _ => rfl, fun y hy => Option.some.inj hy ▸ hx⟩
  | instr hcallee hvisit _ hrest => exact orders_instr hl hcallee hvisit hrest
  | shared hcallee hother hne hstill _ hrest =>
    exact orders_shared hl hcallee hother hne hstill hrest
  | stuck hcallee hown hc _ hfunction => exact orders_stuck hl ho hcallee hown hc hfunction
  | call hcallee hown hc _ hz hstill _ hfunction hrest =>
    exact orders_call hl ho hcallee hown hc hfunction hz hstill hrest
  | function hc hstill _ hpick hbody => exact orders_function hl ho hc hstill hbody hpick

end Walk

end ByteTrust
