import ByteTrust.Proofs.Interference.Needs
import ByteTrust.Proofs.Interference.Walks

/-!
# The course of a run

A run does its task by doing parts of it, and these in turn by doing parts of theirs: regions and
loops, iterations, and the functions that are called on the way. A `Stage` is such a part with the
state in which the run comes to it, and `Part w g g'` says that the run at the stage `g` comes to
the stage `g'` next below it. What a successful run comes to, it finishes (`Part.ends`); on the way
there and from there to the end it takes turns (`Part.turns`), and all its snapshots have a common
history (`Part.kept`).
-/

namespace ByteTrust

namespace Walk

open Relation Snapshot

/-- A task at hand: how deep contexts may still be entered, and the state in which it is begun. -/
structure Stage where
  depth : Nat
  task : Task
  state : State

/-- Do a task. -/
def Task.steps (w : Setting) (depth : Nat) : Task → Step (Option Snapshot)
  | .regions scope rs => do
    walkRegions w (walkContext w depth) scope rs
    return none
  | .region scope r => do
    walkRegion w (walkContext w depth) scope r
    return none
  | .iterations scope cs x => do
    walkIterations w (walkContext w depth) scope cs x
    return none
  | .conditions scope conds x =>
    some <$> conds.foldlM (applyCondition w (walkContext w depth) scope) x
  | .instrs scope certain insts x => walkInstrs w (walkContext w depth) scope certain insts x
  | .function c loops suppressed x => walkFunction w (walkContext w depth) c loops suppressed x

/-- How a stage ends. -/
def Stage.run (w : Setting) (g : Stage) : Except Fault (Option Snapshot × State) :=
  g.task.steps w g.depth g.state

/-- The stage of a whole run, to a depth. -/
def Stage.root (depth : Nat) (c : Context) (x : Snapshot) (s : State) : Stage :=
  ⟨depth, .function c.id [] (!c.materialized) x, s⟩

/-- The same stage, where contexts may be entered `n` deeper. -/
def Stage.deeper (n : Nat) (g : Stage) : Stage := { g with depth := n + g.depth }

/-- On entry to a block, the walk has applied the conditions `conds` and goes on with `y`. -/
inductive Applies (w : Setting) (depth : Nat) (scope : Scope) (b : BlockId) (s : State)
    (conds : List PathCondition) : Block → Snapshot → State → Prop
  | intro {block : Block} {x y : Snapshot} {s₁ s' : State}
      (hblock : w.program.block scope.context b = .ok block)
      (hpick : pickUp scope.context b s = .ok (some x, s₁))
      (hconds : conds.foldlM (applyCondition w (walkContext w depth) scope) x s₁ = .ok (y, s')) :
      Applies w depth scope b s conds block y s'

/-- In a block, the walk comes to the instruction `inst` with `y`. -/
inductive Arrives (w : Setting) (depth : Nat) (scope : Scope) (b : BlockId) (s : State)
    (inst : Instr) : Snapshot → State → Prop
  | intro {block : Block} {conds : List PathCondition} {insts rest : List Instr} {x y : Snapshot}
      {s₁ s' : State} (hconds : conditionsAt w scope.context b = .ok conds)
      (happly : Applies w depth scope b s conds block x s₁)
      (hinsts : block.insts = insts ++ inst :: rest)
      (hwalk : walkInstrs w (walkContext w depth) scope block.certain insts x s₁ =
        .ok (some y, s')) :
      Arrives w depth scope b s inst y s'

/-- The walk enters the body of a loop that is not a terminated peel, with `x`. -/
inductive EntersLoop (w : Setting) (scope : Scope) (info : Loop) (s : State) (back : Bool) :
    Snapshot → State → Prop
  | intro {latch : Block} {x : Snapshot} {s₁ : State} (hpeel : info.terminatedPeel? = none)
      (hpick : pickUp scope.context info.header s = .ok (some x, s₁))
      (hlatch : w.program.block scope.context info.latch = .ok latch)
      (hback : latch.hasLiveEdgeTo info.header = back) :
      EntersLoop w scope info s back x (s₁.leave x (.block scope.context info.header))

/-- The context `c` is entered with `x`. -/
def State.enter (s : State) (c : ContextId) (entry : BlockId) (x : Snapshot) : State :=
  State.leave { s with findings := { s.findings with walked := s.findings.walked.insert c } } x
    (.block c entry)

/-- At a stage, a walk comes to another one next below it. -/
inductive Part (w : Setting) : Stage → Stage → Prop
  | region {depth : Nat} {scope : Scope} {rs rest : List Region} {r : Region} {s s₁ : State}
      (hrs : walkRegions w (walkContext w depth) scope rs s = .ok ((), s₁)) :
      Part w ⟨depth, .regions scope (rs ++ r :: rest), s⟩ ⟨depth, .region scope r, s₁⟩
  | checker {depth : Nat} {scope : Scope} {b : BlockId} {block : Block} {cond : PathCondition}
      {conds rest : List PathCondition} {c : ContextId} {x : Snapshot} {s s₁ : State}
      (hconds : conditionsAt w scope.context b = .ok (conds ++ cond :: rest))
      (happly : Applies w depth scope b s conds block x s₁) (hfact : cond.fact = .checker c) :
      Part w ⟨depth, .region scope (.block b), s⟩ ⟨depth, .function c scope.loops false x, s₁⟩
  | call {depth : Nat} {scope : Scope} {b : BlockId} {inst : Instr} {callee : ContextId}
      {c : Context} {x : Snapshot} {s s₁ : State} (harrive : Arrives w depth scope b s inst x s₁)
      (hcallee : inst.op.callee? = some callee)
      (hown : ∀ i, s₁.firstCalls.get? callee = some i → i = inst.id)
      (hc : w.program.context callee = .ok c) :
      Part w ⟨depth, .region scope (.block b), s⟩
        ⟨depth, .function callee scope.loops (scope.suppressed || !c.materialized) x,
          { s₁ with firstCalls := s₁.firstCalls.insert callee inst.id }⟩
  | peel {depth : Nat} {scope : Scope} {info : Loop} {body : List Region} {peel : PeelAttempt}
      {x : Option Snapshot} {s s₁ : State} (hpeel : info.terminatedPeel? = some peel)
      (hpick : pickUp scope.context info.header s = .ok (x, s₁)) :
      Part w ⟨depth, .region scope (.loop info body), s⟩
        ⟨depth, .iterations scope peel.iterations x, s₁⟩
  | once {depth : Nat} {scope : Scope} {info : Loop} {body : List Region} {x : Snapshot}
      {s s₁ : State} (henter : EntersLoop w scope info s false x s₁) :
      Part w ⟨depth, .region scope (.loop info body), s⟩ ⟨depth, .regions scope body, s₁⟩
  | firstPass {depth : Nat} {scope : Scope} {info : Loop} {body : List Region} {x : Snapshot}
      {s s₁ : State} (henter : EntersLoop w scope info s true x s₁) :
      Part w ⟨depth, .region scope (.loop info body), s⟩
        ⟨depth, .regions (scope.over info body .first) body, s₁⟩
  | secondPass {depth : Nat} {scope : Scope} {info : Loop} {body : List Region}
      {first second : Snapshot} {again : Option Snapshot} {s s₁ s₂ s₃ s₄ : State}
      (henter : EntersLoop w scope info s true first s₁)
      (hfirst : walkRegions w (walkContext w depth) (scope.over info body .first) body s₁ =
        .ok ((), s₂))
      (hagain : pickUp scope.context info.header s₂ = .ok (again, s₃))
      (hmeet : meet (first :: again.toList) s₃ = .ok (some second, s₄)) :
      Part w ⟨depth, .region scope (.loop info body), s⟩
        ⟨depth, .regions (scope.over info body .second) body,
          s₄.leave second (.block scope.context info.header)⟩
  | iteration {depth : Nat} {scope : Scope} {k : ContextId} {c : Context} {ks : List ContextId}
      {x : Snapshot} {s : State} (hc : w.program.context k = .ok c) :
      Part w ⟨depth + 1, .iterations scope (k :: ks) (some x), s⟩
        ⟨depth, .regions ⟨k, scope.loops, scope.suppressed || !c.materialized⟩ c.regions,
          s.enter k c.entry x⟩
  | nextIteration {depth : Nat} {scope : Scope} {k : ContextId} {c : Context}
      {ks : List ContextId} {x : Snapshot} {y : Option Snapshot} {s s₁ s₂ : State}
      (hc : w.program.context k = .ok c)
      (hbody : walkContext w depth ⟨k, scope.loops, scope.suppressed || !c.materialized⟩
        (s.enter k c.entry x) = .ok ((), s₁))
      (hpick : pickUpBackEdge k s₁ = .ok (y, s₂)) :
      Part w ⟨depth, .iterations scope (k :: ks) (some x), s⟩ ⟨depth, .iterations scope ks y, s₂⟩
  | body {depth : Nat} {k : ContextId} {c : Context} {loops : List ActiveLoop} {suppressed : Bool}
      {x : Snapshot} {s : State} (hc : w.program.context k = .ok c) :
      Part w ⟨depth + 1, .function k loops suppressed x, s⟩
        ⟨depth, .regions ⟨k, loops, suppressed⟩ c.regions,
          State.enter { s with clock := s.clock + 1 } k c.entry (x.pushFrame s.clock k)⟩

variable {w : Setting} {g g' : Stage} {depth : Nat} {scope : Scope} {b : BlockId} {inst : Instr}
  {conds : List PathCondition} {block : Block} {x y : Snapshot} {s s' : State}
  {H : List Snapshot}

/-! ## More depth -/

theorem walkContext_deeper (n depth : Nat) (scope : Scope) :
    Deepens (walkContext w depth scope) (walkContext w (n + depth) scope) :=
  deepens_walkContext (Nat.le_add_left depth n) scope

theorem walkRegions_deeper {rs : List Region} (n : Nat)
    (h : walkRegions w (walkContext w depth) scope rs s = .ok ((), s')) :
    walkRegions w (walkContext w (n + depth)) scope rs s = .ok ((), s') :=
  (deepens_walkRegions (walkContext_deeper n depth) scope rs).eq_ok h

theorem Applies.deeper (n : Nat) (h : Applies w depth scope b s conds block y s') :
    Applies w (n + depth) scope b s conds block y s' := by
  obtain ⟨hblock, hpick, hconds⟩ := h
  refine ⟨hblock, hpick, Deepens.eq_ok ?_ hconds⟩
  exact .foldlM (deepens_applyCondition (walkContext_deeper n depth) scope) conds _

theorem Arrives.deeper (n : Nat) (h : Arrives w depth scope b s inst y s') :
    Arrives w (n + depth) scope b s inst y s' := by
  obtain ⟨hconds, happly, hinsts, hwalk⟩ := h
  refine ⟨hconds, happly.deeper n, hinsts, Deepens.eq_ok ?_ hwalk⟩
  exact deepens_walkInstrs (walkContext_deeper n depth) scope _ _ _

/-- Where a walk comes from a stage, it comes at any greater depth. -/
theorem Part.deeper (n : Nat) (h : Part w g g') : Part w (g.deeper n) (g'.deeper n) := by
  cases h with
  | region hrs => exact .region (walkRegions_deeper n hrs)
  | checker hconds happly hfact => exact .checker hconds (happly.deeper n) hfact
  | call harrive hcallee hown hc => exact .call (harrive.deeper n) hcallee hown hc
  | peel hpeel hpick => exact .peel hpeel hpick
  | once henter => exact .once henter
  | firstPass henter => exact .firstPass henter
  | secondPass henter hfirst hagain hmeet =>
    exact .secondPass henter (walkRegions_deeper n hfirst) hagain hmeet
  | iteration hc => exact .iteration hc
  | nextIteration hc hbody hpick =>
    exact .nextIteration hc ((walkContext_deeper n _ _).eq_ok hbody) hpick
  | body hc => exact .body hc

/-! ## From a stage to the next -/

theorem Applies.turns (h : Applies w depth scope b s conds block y s') :
    ReflTransGen (Turn w) s s' := by
  obtain ⟨hblock, hpick, hconds⟩ := h
  exact (turning_pickUp _ _ _ _ _ hpick).trans
    (turning_foldlM (turning_applyCondition (turning_walkContext depth)) _ _ _ _ _ hconds)

theorem Arrives.turns (h : Arrives w depth scope b s inst y s') : ReflTransGen (Turn w) s s' := by
  obtain ⟨hconds, ⟨hblock, hpick, happly⟩, hinsts, hwalk⟩ := h
  have hstand : ∀ i ∈ _, w.program.Holds scope.context i := fun i hi =>
    ⟨b, _, hblock, hinsts ▸ List.mem_append_left _ hi⟩
  exact (Applies.turns ⟨hblock, hpick, happly⟩).trans
    (turning_walkInstrs (turning_walkContext depth) _ hstand _ _ _ hwalk)

theorem EntersLoop.turns {info : Loop} {back : Bool} (h : EntersLoop w scope info s back x s') :
    ReflTransGen (Turn w) s s' := by
  obtain ⟨-, hpick, -, -⟩ := h
  exact (turning_pickUp _ _ _ _ _ hpick).tail (.quiet rfl)

/-- On the way from a stage to the next, a walk takes turns. -/
theorem Part.turns (h : Part w g g') : ReflTransGen (Turn w) g.state g'.state := by
  cases h with
  | region hrs => exact turning_walkRegions (turning_walkContext _) _ _ _ _ _ hrs
  | checker _ happly _ => exact happly.turns
  | call harrive _ _ _ => exact harrive.turns.tail (.quiet rfl)
  | peel _ hpick => exact turning_pickUp _ _ _ _ _ hpick
  | once henter => exact henter.turns
  | firstPass henter => exact henter.turns
  | secondPass henter hfirst hagain hmeet =>
    have hbody := turning_walkRegions (turning_walkContext _) _ _ _ _ _ hfirst
    exact (((henter.turns.trans hbody).trans (turning_pickUp _ _ _ _ _ hagain)).trans
      (turning_meet _ _ _ _ hmeet)).tail (.quiet rfl)
  | iteration hc => exact .single (.quiet rfl)
  | nextIteration hc hbody hpick =>
    exact (ReflTransGen.head (.quiet rfl) (turning_walkContext _ _ _ _ _ hbody)).trans
      (turning_pickUpBackEdge _ _ _ _ hpick)
  | body hc => exact .single (.quiet rfl)

/-! ## A common history -/

/-- The snapshots that a task starts from. -/
def Task.snapshots : Task → List Snapshot
  | .regions .. | .region .. => []
  | .iterations _ _ x => x.toList
  | .conditions _ _ x | .instrs _ _ _ x | .function _ _ _ x => [x]

/-- The snapshots at a stage were made, with others, before the present time. -/
structure Stage.Kept (g : Stage) (H : List Snapshot) : Prop where
  state : Walk.Kept g.state H
  task : ∀ z ∈ g.task.snapshots, z ∈ H

theorem Applies.kept (h : Applies w depth scope b s conds block y s') (hH : Kept s H) :
    Carries H s' (some y) := by
  obtain ⟨-, hpick, hconds⟩ := h
  rw [pickUp_eq] at hpick
  obtain ⟨-, H₁, hsub, hkept, hx⟩ := pick_spec hpick hH
  exact ((isWalk_walkContext w depth).conditions hconds hkept (hx _ rfl)).2.mono hsub

theorem Arrives.kept (h : Arrives w depth scope b s inst y s') (hH : Kept s H) :
    Carries H s' (some y) := by
  obtain ⟨-, happly, -, hwalk⟩ := h
  obtain ⟨H₁, hsub, hkept, hx⟩ := happly.kept hH
  exact ((isWalk_walkContext w depth).instrs hwalk hkept (hx _ rfl)).2.mono hsub

theorem EntersLoop.kept {info : Loop} {back : Bool} (h : EntersLoop w scope info s back x s')
    (hH : Kept s H) : Carries H s' (some x) := by
  obtain ⟨-, hpick, -, -⟩ := h
  rw [pickUp_eq] at hpick
  obtain ⟨-, H₁, hsub, hkept, hx⟩ := pick_spec hpick hH
  exact ⟨H₁, hsub, hkept.leave (hx _ rfl) _, hx⟩

theorem Kept.enter (hH : Kept s H) (hx : x ∈ H) (c : ContextId) (entry : BlockId) :
    Kept (s.enter c entry x) H := by
  have hwalked : Kept { s with findings := { s.findings with
      walked := s.findings.walked.insert c } } H :=
    hH.still (Nat.le_refl _) fun j => by cases j <;> rfl
  exact hwalked.leave hx (.block c entry)

/-- All snapshots of a walk have a common history. -/
theorem Part.kept (h : Part w g g') (hH : g.Kept H) : ∃ H', g'.Kept H' := by
  obtain ⟨hkept, hsnapshots⟩ := hH
  have hone {x : Snapshot} {H : List Snapshot} (hx : x ∈ H) : ∀ z ∈ [x], z ∈ H := by simpa using hx
  cases h with
  | region hrs =>
    obtain ⟨H₁, -, hkept₁, -⟩ := ((isWalk_walkContext w _).regions _ hrs hkept).2
    exact ⟨H₁, hkept₁, by simp [Task.snapshots]⟩
  | checker _ happly _ =>
    obtain ⟨H₁, -, hkept₁, hx⟩ := happly.kept hkept
    exact ⟨H₁, hkept₁, hone (hx _ rfl)⟩
  | call harrive _ _ _ =>
    obtain ⟨H₁, -, hkept₁, hx⟩ := harrive.kept hkept
    exact ⟨H₁, hkept₁.still (Nat.le_refl _) fun j => by cases j <;> rfl, hone (hx _ rfl)⟩
  | peel _ hpick =>
    rw [pickUp_eq] at hpick
    obtain ⟨-, H₁, -, hkept₁, hx⟩ := pick_spec hpick hkept
    exact ⟨H₁, hkept₁, fun z hz => hx z (Option.mem_toList.1 hz)⟩
  | once henter | firstPass henter =>
    obtain ⟨H₁, -, hkept₁, -⟩ := henter.kept hkept
    exact ⟨H₁, hkept₁, by simp [Task.snapshots]⟩
  | secondPass henter hfirst hagain hmeet =>
    obtain ⟨H₁, -, hkept₁, hx⟩ := henter.kept hkept
    obtain ⟨H₂, hsub₂, hkept₂, -⟩ := ((isWalk_walkContext w _).regions _ hfirst hkept₁).2
    rw [pickUp_eq] at hagain
    obtain ⟨-, H₃, hsub₃, hkept₃, hy⟩ := pick_spec hagain hkept₂
    obtain ⟨-, -, H₄, -, hkept₄, hz⟩ := meet_spec hmeet hkept₃ (List.forall_mem_cons.2
      ⟨hsub₃ (hsub₂ (hx _ rfl)), fun z hz => hy z (Option.mem_toList.1 hz)⟩)
    exact ⟨H₄, hkept₄.leave (hz _ rfl) (.block _ _), by simp [Task.snapshots]⟩
  | iteration hc =>
    exact ⟨H, hkept.enter (hsnapshots _ List.mem_cons_self) _ _, by simp [Task.snapshots]⟩
  | nextIteration hc hbody hpick =>
    obtain ⟨-, H₁, -, hkept₁, -⟩ := isWalk_walkContext w _ _ _ _ _ _ hbody
      (hkept.enter (hsnapshots _ List.mem_cons_self) _ _)
    rw [pickUpBackEdge_eq] at hpick
    obtain ⟨-, H₂, -, hkept₂, hy⟩ := pick_spec hpick hkept₁
    exact ⟨H₂, hkept₂, fun z hz => hy z (Option.mem_toList.1 hz)⟩
  | @body _ k _ _ _ x _ hc =>
    have hpush := hkept.tick (.pushFrame (.held (hsnapshots x List.mem_cons_self)) k)
    exact ⟨_, hpush.enter List.mem_cons_self _ _, by simp [Task.snapshots]⟩

/-! ## To the end -/

theorem Turn.visits_subset (h : Turn w s s') : s.visits ⊆ s'.visits := by
  cases h with
  | quiet hbook =>
    have hvisits : s'.visits = s.visits := congrArg Book.visits hbook
    exact hvisits ▸ List.Subset.refl _
  | read _ _ hvisit => exact (visitRead_book hvisit).1 ▸ List.subset_cons_self _ _
  | promote _ _ _ hpromote => exact (promote_book hpromote).2.2.1 ▸ List.Subset.refl _
  | silence _ _ _ hsilence => exact (silence_book hsilence).2.2.1 ▸ List.Subset.refl _

theorem visits_subset_of_turns (h : ReflTransGen (Turn w) s s') : s.visits ⊆ s'.visits := by
  induction h with
  | refl => exact List.Subset.refl _
  | tail _ hturn ih => exact fun v hv => hturn.visits_subset (ih hv)

variable {inner : Scope → Step Unit}

theorem walkRegions_append (rs rest : List Region) :
    walkRegions w inner scope (rs ++ rest) =
      walkRegions w inner scope rs >>= fun _ => walkRegions w inner scope rest := by
  induction rs with
  | nil => rfl
  | cons r rs ih =>
    rw [List.cons_append, walkRegions, walkRegions, ih]
    simp only [bind_assoc]

theorem walkInstrs_append (certain : Bool) (insts rest : List Instr) (x : Snapshot) :
    walkInstrs w inner scope certain (insts ++ rest) x =
      walkInstrs w inner scope certain insts x >>= fun out =>
        out.elim (pure none) (walkInstrs w inner scope certain rest) := by
  induction insts generalizing x with
  | nil => rfl
  | cons inst insts ih =>
    rw [List.cons_append]
    cases hcallee : inst.op.callee? with
    | none =>
      rw [walkInstrs_instr hcallee, walkInstrs_instr hcallee, bind_assoc]
      congr 1
      funext y
      exact ih y
    | some callee =>
      obtain ⟨site, heq⟩ :
          ∃ site, ∀ insts x, walkInstrs w inner scope certain (inst :: insts) x = _ :=
        walkInstrs_call hcallee
      rw [heq, heq, bind_assoc]
      congr 1
      funext out
      cases out with
      | none => rfl
      | some y => exact ih y

theorem afterCall_visits {certain lost : Bool} {i : InstId} {site : CallSite}
    {out : Option Snapshot} (h : afterCall w scope certain i site lost x s = .ok (out, s')) :
    s'.visits = s.visits := by
  obtain ⟨-, b, s₁, hsilence, -, rfl⟩ | ⟨-, -, rfl | ⟨u, hpromote⟩⟩ := afterCall_cases h
  · exact (silence_book hsilence).2.2.1
  · rfl
  · exact (promote_book hpromote).2.2.1

/-- The walk of a block goes on after some of its conditions. -/
theorem Applies.rest {conds' : List PathCondition} {e : State} {u : Unit}
    (h : Applies w depth scope b s conds block y s')
    (hconds : conditionsAt w scope.context b = .ok (conds ++ conds'))
    (hwalk : walkBlock w (walkContext w depth) scope b s = .ok (u, e)) :
    ∃ z s₁ out s₂,
      conds'.foldlM (applyCondition w (walkContext w depth) scope) y s' = .ok (z, s₁) ∧
      walkInstrs w (walkContext w depth) scope block.certain block.insts z s₁ = .ok (out, s₂) ∧
      ReflTransGen (Turn w) s₂ e := by
  obtain ⟨hblock, hpick, happly⟩ := h
  simp only [walkBlock, step_bind_eq_ok, step_lift_eq_ok] at hwalk
  obtain ⟨_, _, ⟨hblock', rfl⟩, _, _, hpick', hwalk⟩ := hwalk
  cases hblock.symm.trans hblock'
  cases hpick.symm.trans hpick'
  simp only [step_bind_eq_ok, step_lift_eq_ok] at hwalk
  obtain ⟨_, _, ⟨hconds', rfl⟩, z, s₁, happly', out, s₂, hinsts, hfinish⟩ := hwalk
  cases hconds.symm.trans hconds'
  rw [List.foldlM_append, step_bind_eq_ok] at happly'
  obtain ⟨_, _, hfirst, hrest⟩ := happly'
  cases happly.symm.trans hfirst
  refine ⟨z, s₁, out, s₂, hrest, hinsts, ?_⟩
  cases out with
  | none =>
    obtain ⟨-, rfl⟩ := step_pure_eq_ok.1 hfinish
    exact .refl
  | some z => exact turning_finishBlock _ _ _ _ _ hfinish

theorem Applies.checker_ends {cond : PathCondition} {rest : List PathCondition} {c : ContextId}
    {e : State} {u : Unit} (h : Applies w depth scope b s conds block y s')
    (hconds : conditionsAt w scope.context b = .ok (conds ++ cond :: rest))
    (hfact : cond.fact = .checker c)
    (hwalk : walkBlock w (walkContext w depth) scope b s = .ok (u, e)) :
    ∃ out e', walkFunction w (walkContext w depth) c scope.loops false y s' = .ok (out, e') ∧
      e'.visits ⊆ e.visits := by
  obtain ⟨z, s₁, out, s₂, hrest, hinsts, hturns⟩ := h.rest hconds hwalk
  rw [List.foldlM_cons, step_bind_eq_ok] at hrest
  obtain ⟨z₁, s₃, hcond, hrest⟩ := hrest
  simp only [applyCondition, hfact, step_bind_eq_ok] at hcond
  obtain ⟨out', e', hfunction, hcond⟩ := hcond
  refine ⟨out', e', hfunction, ?_⟩
  have hafter : e'.visits = s₃.visits := by
    cases out' with
    | none =>
      simp only [step_bind_eq_ok, tick_eq_ok, step_pure_eq_ok] at hcond
      obtain ⟨_, _, ⟨rfl, rfl⟩, -, rfl⟩ := hcond
      rfl
    | some z =>
      obtain ⟨-, rfl⟩ := step_pure_eq_ok.1 hcond
      rfl
  obtain ⟨hblock, -, -⟩ := h
  rw [hafter]
  exact visits_subset_of_turns (((turning_foldlM (turning_applyCondition (turning_walkContext depth))
    _ _ _ _ _ hrest).trans (turning_walkInstrs (turning_walkContext depth) _
      (fun i hi => ⟨b, _, hblock, hi⟩) _ _ _ hinsts)).trans hturns)

theorem Arrives.call_ends {callee : ContextId} {c : Context} {e : State} {u : Unit}
    (h : Arrives w depth scope b s inst y s') (hcallee : inst.op.callee? = some callee)
    (hown : ∀ i, s'.firstCalls.get? callee = some i → i = inst.id)
    (hc : w.program.context callee = .ok c)
    (hwalk : walkBlock w (walkContext w depth) scope b s = .ok (u, e)) :
    ∃ out e', walkFunction w (walkContext w depth) callee scope.loops
        (scope.suppressed || !c.materialized) y
        { s' with firstCalls := s'.firstCalls.insert callee inst.id } = .ok (out, e') ∧
      e'.visits ⊆ e.visits := by
  obtain @⟨block, conds, insts, rest, x, _, s₁, _, hconds, happly, hinsts, hbefore⟩ := h
  obtain ⟨z, s₂, out, s₃, hnone, hall, hturns⟩ :=
    happly.rest (hconds.trans (by rw [List.append_nil])) hwalk
  obtain ⟨rfl, rfl⟩ := step_pure_eq_ok.1 hnone
  rw [hinsts, walkInstrs_append, step_bind_eq_ok] at hall
  obtain ⟨_, _, hfirst, hall⟩ := hall
  cases hbefore.symm.trans hfirst
  obtain ⟨site, heq⟩ : ∃ site, ∀ insts x,
      walkInstrs w (walkContext w depth) scope block.certain (inst :: insts) x = _ :=
    walkInstrs_call hcallee
  rw [Option.elim_some, heq, step_bind_eq_ok] at hall
  obtain ⟨after, s₄, hcall, hrest⟩ := hall
  have hend : s₄.visits ⊆ e.visits := by
    refine visits_subset_of_turns (ReflTransGen.trans ?_ hturns)
    cases after with
    | none =>
      obtain ⟨-, rfl⟩ := step_pure_eq_ok.1 hrest
      exact .refl
    | some y' =>
      obtain ⟨hblock, -, -⟩ := happly
      refine turning_walkInstrs (turning_walkContext depth) _ (fun i hi => ?_) _ _ _ hrest
      exact ⟨b, _, hblock, hinsts ▸ List.mem_append_right _ (List.mem_cons_of_mem _ hi)⟩
  cases walkCall_cases hcall with
  | shared hother hne => exact absurd (hown _ hother) hne
  | stuck _ hc' hfunction =>
    cases hc.symm.trans hc'
    exact ⟨_, _, hfunction, hend⟩
  | returned _ hc' hfunction _ hafter =>
    cases hc.symm.trans hc'
    exact ⟨_, _, hfunction, afterCall_visits hafter ▸ hend⟩

section Loops

variable {info : Loop} {body : List Region} {e : State} {u : Unit}

theorem EntersLoop.once_ends (h : EntersLoop w scope info s false x s')
    (hwalk : walkRegion w (walkContext w depth) scope (.loop info body) s = .ok (u, e)) :
    walkRegions w (walkContext w depth) scope body s' = .ok ((), e) := by
  obtain ⟨hpeel, hpick, hlatch, hback⟩ := h
  simp only [walkRegion, step_bind_eq_ok] at hwalk
  obtain ⟨_, _, hpick', hwalk⟩ := hwalk
  cases hpick.symm.trans hpick'
  simp only [hpeel, step_bind_eq_ok, step_lift_eq_ok] at hwalk
  obtain ⟨_, _, ⟨hlatch', rfl⟩, hwalk⟩ := hwalk
  cases hlatch.symm.trans hlatch'
  simp only [hback, Bool.not_false, if_true, step_bind_eq_ok, leaveFor_eq, Except.ok.injEq,
    Prod.mk.injEq] at hwalk
  obtain ⟨_, _, ⟨-, rfl⟩, hwalk⟩ := hwalk
  exact hwalk

theorem EntersLoop.twice_ends (h : EntersLoop w scope info s true x s')
    (hwalk : walkRegion w (walkContext w depth) scope (.loop info body) s = .ok (u, e)) :
    ∃ s₁ again s₂ second s₃ s₄,
      walkRegions w (walkContext w depth) (scope.over info body .first) body s' = .ok ((), s₁) ∧
      pickUp scope.context info.header s₁ = .ok (again, s₂) ∧
      meet (x :: again.toList) s₂ = .ok (second, s₃) ∧
      (∀ y ∈ second, walkRegions w (walkContext w depth) (scope.over info body .second) body
        (s₃.leave y (.block scope.context info.header)) = .ok ((), s₄)) ∧
      s₁.visits ⊆ s₄.visits ∧ s₄.visits = e.visits := by
  obtain ⟨hpeel, hpick, hlatch, hback⟩ := h
  simp only [walkRegion, step_bind_eq_ok] at hwalk
  obtain ⟨_, _, hpick', hwalk⟩ := hwalk
  cases hpick.symm.trans hpick'
  simp only [hpeel, step_bind_eq_ok, step_lift_eq_ok] at hwalk
  obtain ⟨_, _, ⟨hlatch', rfl⟩, hwalk⟩ := hwalk
  cases hlatch.symm.trans hlatch'
  simp only [hback, Bool.not_true, Bool.false_eq_true, if_false, step_bind_eq_ok, leaveFor_eq,
    Except.ok.injEq, Prod.mk.injEq] at hwalk
  obtain ⟨_, _, ⟨-, rfl⟩, _, s₁, hfirst, again, s₂, hagain, second, s₃, hmeet, hwalk⟩ := hwalk
  have hvisits : s₁.visits ⊆ s₃.visits :=
    visits_subset_of_turns (w := w)
      ((turning_pickUp _ _ _ _ _ hagain).trans (turning_meet _ _ _ _ hmeet))
  cases second with
  | none =>
    obtain ⟨-, rfl⟩ := step_pure_eq_ok.1 hwalk
    exact ⟨s₁, again, s₂, none, _, _, hfirst, hagain, hmeet, by rintro _ ⟨⟩, hvisits, rfl⟩
  | some second =>
    simp only [step_bind_eq_ok, leaveFor_eq, Except.ok.injEq, Prod.mk.injEq, takeClosing_eq,
      note_eq_ok] at hwalk
    obtain ⟨_, _, ⟨-, rfl⟩, _, s₄, hsecond, _, _, ⟨rfl, rfl⟩, rfl⟩ := hwalk
    refine ⟨s₁, again, s₂, some second, s₃, s₄, hfirst, hagain, hmeet, ?_, ?_, rfl⟩
    · rintro _ ⟨⟩
      exact hsecond
    · exact fun v hv => visits_subset_of_turns
        (turning_walkRegions (turning_walkContext depth) _ _ _ _ _ hsecond) (hvisits hv)

theorem iterations_ends {k : ContextId} {c : Context} {ks : List ContextId}
    (hc : w.program.context k = .ok c)
    (hwalk : walkIterations w (walkContext w depth) scope (k :: ks) (some x) s = .ok (u, e)) :
    ∃ s₁, walkContext w depth ⟨k, scope.loops, scope.suppressed || !c.materialized⟩
        (s.enter k c.entry x) = .ok ((), s₁) ∧
      ∃ y s₂, pickUpBackEdge k s₁ = .ok (y, s₂) ∧
        walkIterations w (walkContext w depth) scope ks y s₂ = .ok ((), e) := by
  simp only [walkIterations, step_bind_eq_ok, step_lift_eq_ok, note_eq_ok, leaveFor_eq,
    Except.ok.injEq, Prod.mk.injEq] at hwalk
  obtain ⟨_, _, ⟨hc', rfl⟩, _, _, rfl, _, _, ⟨-, rfl⟩, _, s₁, hbody, y, s₂, hpick, hrest⟩ := hwalk
  cases hc.symm.trans hc'
  exact ⟨s₁, hbody, y, s₂, hpick, hrest⟩

end Loops

/-- What a walk comes to with success it finishes, and no visit is forgotten afterwards. -/
theorem Part.ends {out : Option Snapshot} {e : State} (h : Part w g g')
    (hg : g.run w = .ok (out, e)) :
    ∃ out' e', g'.run w = .ok (out', e') ∧ e'.visits ⊆ e.visits := by
  -- the outcome of regions, of a region and of iterations is nothing
  have hunit {m : Step Unit} {s e : State} {out : Option Snapshot}
      (h : (do m; return none : Step (Option Snapshot)) s = .ok (out, e)) : m s = .ok ((), e) := by
    obtain ⟨_, _, hm, hpure⟩ := step_bind_eq_ok.1 h
    obtain ⟨-, rfl⟩ := step_pure_eq_ok.1 hpure
    exact hm
  have hdone {m : Step Unit} {s e : State} (h : m s = .ok ((), e)) :
      (do m; return none : Step (Option Snapshot)) s = .ok (none, e) :=
    step_bind_eq_ok.2 ⟨(), e, h, rfl⟩
  unfold Stage.run at hg ⊢
  cases h with
  | region hrs =>
    have hwalk := hunit hg
    rw [walkRegions_append, step_bind_eq_ok] at hwalk
    obtain ⟨_, _, hrs', hwalk⟩ := hwalk
    cases hrs.symm.trans hrs'
    rw [walkRegions, step_bind_eq_ok] at hwalk
    obtain ⟨_, e', hr, hrest⟩ := hwalk
    exact ⟨none, e', hdone hr, visits_subset_of_turns
      (turning_walkRegions (turning_walkContext _) _ _ _ _ _ hrest)⟩
  | checker hconds happly hfact =>
    have hwalk := hunit hg
    rw [walkRegion] at hwalk
    exact happly.checker_ends hconds hfact hwalk
  | call harrive hcallee hown hc =>
    have hwalk := hunit hg
    rw [walkRegion] at hwalk
    exact harrive.call_ends hcallee hown hc hwalk
  | peel hpeel hpick =>
    have hwalk := hunit hg
    simp only [walkRegion, step_bind_eq_ok] at hwalk
    obtain ⟨_, _, hpick', hwalk⟩ := hwalk
    cases hpick.symm.trans hpick'
    simp only [hpeel] at hwalk
    exact ⟨none, e, hdone hwalk, List.Subset.refl _⟩
  | once henter => exact ⟨none, e, hdone (henter.once_ends (hunit hg)), List.Subset.refl _⟩
  | firstPass henter =>
    obtain ⟨s₁, _, _, _, _, s₄, hfirst, -, -, -, hvisits, hend⟩ := henter.twice_ends (hunit hg)
    exact ⟨none, s₁, hdone hfirst, hend ▸ hvisits⟩
  | secondPass henter hfirst hagain hmeet =>
    obtain ⟨_, _, _, _, _, s₄, hfirst', hagain', hmeet', hsecond, -, hend⟩ :=
      henter.twice_ends (hunit hg)
    cases hfirst.symm.trans hfirst'
    cases hagain.symm.trans hagain'
    cases hmeet.symm.trans hmeet'
    exact ⟨none, s₄, hdone (hsecond _ rfl), hend ▸ List.Subset.refl _⟩
  | iteration hc =>
    obtain ⟨e', hbody, y, s₂, hpick, hrest⟩ := iterations_ends hc (hunit hg)
    simp only [walkContext, step_bind_eq_ok, step_lift_eq_ok] at hbody
    obtain ⟨_, _, ⟨hc', rfl⟩, hbody⟩ := hbody
    cases hc.symm.trans hc'
    exact ⟨none, e', hdone hbody, visits_subset_of_turns
      ((turning_pickUpBackEdge _ _ _ _ hpick).trans
        (turning_walkIterations (turning_walkContext _) _ _ _ _ _ hrest))⟩
  | nextIteration hc hbody hpick =>
    obtain ⟨_, hbody', _, _, hpick', hrest⟩ := iterations_ends hc (hunit hg)
    cases hbody.symm.trans hbody'
    cases hpick.symm.trans hpick'
    exact ⟨none, e, hdone hrest, List.Subset.refl _⟩
  | body hc =>
    simp only [Task.steps, walkFunction, step_bind_eq_ok, step_lift_eq_ok, note_eq_ok, tick_eq_ok,
      leaveFor_eq, Except.ok.injEq, Prod.mk.injEq, walkContext] at hg
    obtain ⟨_, _, ⟨hc', rfl⟩, _, _, rfl, _, _, ⟨rfl, rfl⟩, _, _, ⟨-, rfl⟩, _, e',
      ⟨_, _, ⟨hc'', rfl⟩, hbody⟩, hpick⟩ := hg
    cases hc.symm.trans hc'
    cases hc.symm.trans hc''
    exact ⟨none, e', hdone hbody, visits_subset_of_turns (w := w)
      (turning_pickUpReturns _ _ _ _ hpick)⟩

/-! ## Runs -/

/-- A run from the snapshot `x` comes to a stage: some depth is enough to come there. -/
def Comes (w : Setting) (x : Snapshot) (s : State) (g : Stage) : Prop :=
  ∃ depth c, w.program.context w.program.root = .ok c ∧
    ReflTransGen (Part w) (.root depth c x s) g

namespace Comes

theorem turns (h : Comes w x s g) : ReflTransGen (Turn w) s g.state := by
  obtain ⟨depth, c, -, hparts⟩ := h
  induction hparts with
  | refl => exact .refl
  | tail _ hpart ih => exact ih.trans hpart.turns

theorem kept (h : Comes w x s g) (hH : Kept s H) (hx : x ∈ H) : ∃ H', g.Kept H' := by
  obtain ⟨depth, c, -, hparts⟩ := h
  induction hparts with
  | refl => exact ⟨H, hH, by simpa [Stage.root, Task.snapshots] using hx⟩
  | tail _ hpart ih =>
    obtain ⟨H₁, hH₁⟩ := ih
    exact hpart.kept hH₁

/-- A run that succeeds finishes every stage that it comes to, at a depth that is enough for the
run. -/
theorem ends {out : Option Snapshot} {e : State} (h : Comes w x s g)
    (hrun : run w x s = .ok (out, e)) :
    ∃ n out' e', (g.deeper n).run w = .ok (out', e') ∧ e'.visits ⊆ e.visits := by
  obtain ⟨depth, c, hc, hparts⟩ := h
  obtain ⟨n, hn⟩ := run_eq_ok_iff.1 hrun
  have hroot : runTo w (n + depth) x s = .ok (out, e) := by
    rw [runTo_of_le (Nat.le_add_right n depth) (by simp [hn]), hn]
  simp only [runTo, step_bind_eq_ok, step_lift_eq_ok] at hroot
  obtain ⟨_, _, ⟨hc', rfl⟩, hroot⟩ := hroot
  cases hc.symm.trans hc'
  refine ⟨n, ?_⟩
  induction hparts with
  | refl => exact ⟨out, e, hroot, List.Subset.refl _⟩
  | tail _ hpart ih =>
    obtain ⟨out₁, e₁, hrun₁, hsub₁⟩ := ih
    obtain ⟨out₂, e₂, hrun₂, hsub₂⟩ := (hpart.deeper n).ends hrun₁
    exact ⟨out₂, e₂, hrun₂, fun v hv => hsub₁ (hsub₂ hv)⟩

end Comes

end Walk

end ByteTrust
