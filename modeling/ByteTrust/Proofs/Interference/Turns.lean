import ByteTrust.Proofs.Interference.Bins
import Mathlib.Logic.Relation

/-!
# The book of a walk, turn by turn

What a walk finds out about reads and references is its *book*. Most steps of a walk do not touch
it. The others are of four kinds (`Turn`): a read is visited, the value of a call becomes a
reference, the value of a call is given up, or nothing changes. A run is a sequence of such turns,
whatever the program and whatever the snapshots (`turns_of_run`), so a property of the book that
each turn keeps holds after any number of runs.
-/

namespace ByteTrust

/-- The instruction stands in a block of the context. -/
def Program.Holds (p : Program) (c : ContextId) (inst : Instr) : Prop :=
  ∃ b block, p.block c b = .ok block ∧ inst ∈ block.insts

namespace Walk

open Relation

/-- What a walk has found out about reads and references. -/
structure Book where
  needs : IdentMap .inst Need
  tentative : IdentSet .context
  silenced : IdentSet .inst
  promotions : List (ObjectId × InstId)
  references : References
  visits : List Visit

/-- The book of a state. -/
def State.book (s : State) : Book where
  needs := s.findings.needs
  tentative := s.findings.tentative
  silenced := s.findings.silenced
  promotions := s.findings.promotions
  references := s.references
  visits := s.visits

/-- The callee of a call is not emitted and has reads that need a check: nothing is trusted after
the call. -/
def Lost (w : Setting) (f : Findings) (site : CallSite) : Prop :=
  ∃ callee c, site.callee = some callee ∧ w.program.context callee = .ok c ∧
    c.materialized = false ∧ w.program.isTentative f callee = .ok true

/-- What one step of a walk does to the book. -/
inductive Turn (w : Setting) (s s' : State) : Prop
  | quiet (h : s'.book = s.book)
  | read {scope : Scope} {certain : Bool} {inst : Instr} {x y : Snapshot}
      (hinst : w.program.Holds scope.context inst) (hread : inst.op.readsMemory = true)
      (h : visitRead w scope certain inst x s = .ok (y, s'))
  | promote {c : ContextId} {inst : Instr} {site : CallSite} {u : Unit}
      (hinst : w.program.Holds c inst) (hop : inst.op = .call site)
      (hkept : ¬ Lost w s.findings site) (h : promote w inst.id site.result s = .ok (u, s'))
  | silence {c : ContextId} {inst : Instr} {site : CallSite} {b : Bool}
      (hinst : w.program.Holds c inst) (hop : inst.op = .call site)
      (hlost : Lost w s.findings site) (h : silence w inst.id site.result.values s = .ok (b, s'))

/-- A step that consists of turns. -/
def Turning (w : Setting) {α : Type} (m : Step α) : Prop :=
  ∀ s a s', m s = .ok (a, s') → ReflTransGen (Turn w) s s'

section Turning

variable {w : Setting} {α β : Type} {m : Step α} {f : α → Step β}

theorem Turning.bind (hm : Turning w m) (hf : ∀ a, Turning w (f a)) : Turning w (m >>= f) := by
  intro s b s' h
  obtain ⟨a, s₁, ha, hb⟩ := step_bind_eq_ok.1 h
  exact (hm s a s₁ ha).trans (hf a s₁ b s' hb)

theorem turning_lift_bind {x : Except Fault α} (hf : ∀ a, x = .ok a → Turning w (f a)) :
    Turning w ((liftM x : Step α) >>= f) := by
  intro s b s' h
  obtain ⟨a, s₁, ha, hb⟩ := step_bind_eq_ok.1 h
  obtain ⟨hx, rfl⟩ := step_lift_eq_ok.1 ha
  exact hf a hx s b s' hb

theorem turning_get_bind {f : State → Step β} (hf : ∀ s, Turning w (f s)) :
    Turning w ((get : Step State) >>= f) := by
  intro s b s' h
  obtain ⟨a, s₁, ha, hb⟩ := step_bind_eq_ok.1 h
  obtain ⟨rfl, rfl⟩ := step_get_eq_ok.1 ha
  exact hf s s b s' hb

theorem turning_pure (a : α) : Turning w (pure a : Step α) := by
  intro s b s' h
  obtain ⟨-, rfl⟩ := step_pure_eq_ok.1 h
  exact .refl

theorem Turning.map (hm : Turning w m) (g : α → β) : Turning w (g <$> m) := by
  rw [← bind_pure_comp]
  exact hm.bind fun a => turning_pure (g a)

theorem turning_modify {g : State → State} (hg : ∀ s, (g s).book = s.book) :
    Turning w (modify g : Step Unit) := by
  intro s u s' h
  obtain rfl := step_modify_eq_ok.1 h
  exact .single (.quiet (hg s))

theorem turning_modify_bind {g : State → State} {f : Unit → Step β}
    (hg : ∀ s, (g s).book = s.book) (hf : ∀ u, Turning w (f u)) :
    Turning w ((modify g : Step Unit) >>= f) :=
  (turning_modify hg).bind hf

theorem turning_lift (x : Except Fault α) : Turning w (liftM x : Step α) := by
  intro s a s' h
  obtain ⟨-, rfl⟩ := step_lift_eq_ok.1 h
  exact .refl

theorem turning_forM {γ : Type} {g : γ → Step Unit} (hg : ∀ c, Turning w (g c)) (cs : List γ) :
    Turning w (cs.forM g) := by
  induction cs with
  | nil => exact turning_pure ()
  | cons c cs ih => exact (hg c).bind fun _ => ih

theorem turning_foldlM {γ : Type} {g : α → γ → Step α} (hg : ∀ a c, Turning w (g a c))
    (cs : List γ) (a : α) : Turning w (cs.foldlM g a) := by
  induction cs generalizing a with
  | nil => exact turning_pure a
  | cons c cs ih => exact (hg a c).bind ih

end Turning

variable {w : Setting} {scope : Scope} {inner : Scope → Step Unit}

/-! ## Steps that leave the book alone -/

theorem turning_tick : Turning w tick := by
  intro s now s' h
  obtain ⟨-, rfl⟩ := tick_eq_ok.1 h
  exact .single (.quiet rfl)

theorem turning_leaveFor (c : ContextId) (b : BlockId) (x : Snapshot) :
    Turning w (leaveFor c b x) :=
  turning_modify fun _ => rfl

theorem turning_meet (xs : List Snapshot) : Turning w (meet xs) :=
  turning_tick.bind fun _ => turning_lift _

theorem turning_pickUp (c : ContextId) (b : BlockId) : Turning w (pickUp c b) :=
  turning_get_bind fun _ => turning_modify_bind (fun _ => rfl) fun _ => turning_meet _

theorem turning_pickUpBackEdge (c : ContextId) : Turning w (pickUpBackEdge c) :=
  turning_get_bind fun _ => turning_modify_bind (fun _ => rfl) fun _ => turning_meet _

theorem turning_pickUpReturns (c : ContextId) : Turning w (pickUpReturns c) :=
  turning_get_bind fun _ => turning_modify_bind (fun _ => rfl) fun _ => turning_meet _

theorem turning_takeClosing (c : ContextId) (header : BlockId) : Turning w (takeClosing c header) :=
  turning_get_bind fun _ => turning_modify_bind (fun _ => rfl) fun _ => turning_pure _

theorem turning_leaveAt (x : Snapshot) (d : Destination) : Turning w (leaveAt x d) := by
  cases d <;> exact turning_modify fun _ => rfl

theorem turning_finishBlock (block : Block) (x : Snapshot) :
    Turning w (finishBlock w scope block x) := by
  unfold finishBlock
  cases block.terminator with
  | ret =>
    dsimp only
    split
    · exact turning_pure ()
    · exact turning_tick.bind fun _ => (turning_lift _).bind fun _ => turning_modify fun _ => rfl
  | unreachable => exact turning_pure ()
  | branch =>
    refine Turning.bind ?_ fun ds => turning_forM (turning_leaveAt x) ds
    intro s ds s' h
    rw [(filterMapM_lift_eq_ok h).1]

/-! ## Instructions -/

theorem turning_visitInstr {certain : Bool} {inst : Instr} (x : Snapshot)
    (hinst : w.program.Holds scope.context inst)
    (hcall : ∀ site, inst.op = .call site → site.callee = none) :
    Turning w (visitInstr w scope certain inst x) := by
  unfold visitInstr
  split
  · next hread => exact fun _ _ _ h => .single (.read hinst hread h)
  split
  · exact turning_pure x
  cases hop : inst.op with
  | call site =>
    dsimp only
    split
    · have hkept (f : Findings) : ¬ Lost w f site := by
        rintro ⟨callee, _, hcallee, -⟩
        cases (hcall site hop).symm.trans hcallee
      refine Turning.bind (fun s _ _ h => .single (.promote hinst hop (hkept _) h)) fun _ => ?_
      exact turning_tick.bind fun _ => turning_pure _
    · exact turning_tick.bind fun _ => turning_pure _
  | _ => exact turning_tick.bind fun _ => turning_pure _

theorem turning_walkFunction (hinner : ∀ scope, Turning w (inner scope)) (c : ContextId)
    (loops : List ActiveLoop) (suppressed : Bool) (x : Snapshot) :
    Turning w (walkFunction w inner c loops suppressed x) :=
  (turning_lift _).bind fun _ => turning_modify_bind (fun _ => rfl) fun _ =>
    turning_tick.bind fun _ => (turning_leaveFor _ _ _).bind fun _ =>
      (hinner _).bind fun _ => turning_pickUpReturns c

theorem turning_applyCondition (hinner : ∀ scope, Turning w (inner scope)) (x : Snapshot)
    (cond : PathCondition) : Turning w (applyCondition w inner scope x cond) := by
  unfold applyCondition
  cases cond.fact with
  | bytes ptr offset len => exact turning_tick.bind fun _ => turning_pure _
  | checker c =>
    refine (turning_walkFunction hinner _ _ _ _).bind fun out => ?_
    cases out with
    | some y => exact turning_pure y
    | none => exact turning_tick.bind fun _ => turning_pure _

theorem turning_walkCall (hinner : ∀ scope, Turning w (inner scope)) {certain : Bool} {inst : Instr}
    {site : CallSite} {c callee : ContextId} (x : Snapshot)
    (hinst : w.program.Holds c inst) (hop : inst.op = .call site)
    (hcallee : site.callee = some callee) :
    Turning w (walkCall w inner scope certain inst.id site callee x) := by
  intro s out s' h
  cases walkCall_cases h with
  | shared => exact .single (.quiet rfl)
  | stuck _ _ hfunction =>
    refine .head ?_ (turning_walkFunction hinner _ _ _ _ _ _ _ hfunction)
    exact .quiet rfl
  | @returned context _ _ _ s₁ _ _ hcontext hfunction hlost hafter =>
    refine .head ?_ ((turning_walkFunction hinner _ _ _ _ _ _ _ hfunction).trans ?_)
    · exact .quiet rfl
    have hlost_iff : Lost w s₁.findings site ↔
        context.materialized = false ∧ w.program.isTentative s₁.findings callee = .ok true := by
      constructor
      · rintro ⟨callee', context', hcallee', hcontext', hlost⟩
        cases hcallee.symm.trans hcallee'
        cases hcontext.symm.trans hcontext'
        exact hlost
      · exact fun hlost => ⟨callee, context, hcallee, hcontext, hlost⟩
    obtain ⟨rfl, b, s₂, hsilence, -, rfl⟩ | ⟨rfl, -, rfl | ⟨u, hpromote⟩⟩ := afterCall_cases hafter
    · exact .head (.silence hinst hop (hlost_iff.2 (hlost.1 rfl)) hsilence) (.single (.quiet rfl))
    · exact .refl
    · refine .single (.promote hinst hop (fun hk => ?_) hpromote)
      cases hlost.2 (hlost_iff.1 hk)

theorem turning_after {f : Snapshot → Step (Option Snapshot)} (hf : ∀ y, Turning w (f y))
    (after : Option Snapshot) : Turning w (match after with
      | some x => f x
      | none => return none) := by
  cases after with
  | none => exact turning_pure none
  | some y => exact hf y

theorem turning_walkInstrs (hinner : ∀ scope, Turning w (inner scope)) {certain : Bool}
    {insts : List Instr} (x : Snapshot) (hinsts : ∀ i ∈ insts, w.program.Holds scope.context i) :
    Turning w (walkInstrs w inner scope certain insts x) := by
  induction insts generalizing x with
  | nil => exact turning_pure _
  | cons inst rest ih =>
    obtain ⟨hinst, hrest⟩ := List.forall_mem_cons.1 hinsts
    have hvisit (hcall : ∀ site, inst.op = .call site → site.callee = none) :
        Turning w (some <$> visitInstr w scope certain inst x) :=
      (turning_visitInstr x hinst hcall).map some
    have hend := turning_after fun y => ih y hrest
    unfold walkInstrs
    dsimp only
    split
    · next site hop =>
      split
      · next callee hcallee => exact (turning_walkCall hinner x hinst hop hcallee).bind hend
      · next hcallee =>
        refine (hvisit fun site' hop' => ?_).bind hend
        cases hop.symm.trans hop'
        exact hcallee
    · next hop => exact (hvisit fun site hop' => (hop site hop').elim).bind hend

theorem turning_walkBlock (hinner : ∀ scope, Turning w (inner scope)) (b : BlockId) :
    Turning w (walkBlock w inner scope b) := by
  unfold walkBlock
  refine turning_lift_bind fun block hblock => (turning_pickUp _ _).bind fun entering => ?_
  cases entering with
  | none => exact turning_pure ()
  | some x =>
    refine (turning_lift _).bind fun conditions => ?_
    refine (turning_foldlM (turning_applyCondition hinner) conditions x).bind fun x => ?_
    refine (turning_walkInstrs hinner x fun i hi => ⟨b, block, hblock, hi⟩).bind fun after => ?_
    cases after with
    | none => exact turning_pure ()
    | some y => exact turning_finishBlock block y

/-! ## Loops -/

theorem turning_walkIterations (hinner : ∀ scope, Turning w (inner scope)) (cs : List ContextId)
    (entering : Option Snapshot) : Turning w (walkIterations w inner scope cs entering) := by
  induction cs generalizing entering with
  | nil => cases entering <;> exact turning_pure ()
  | cons c cs ih =>
    cases entering with
    | none => exact turning_pure ()
    | some x =>
      exact (turning_lift _).bind fun _ => turning_modify_bind (fun _ => rfl) fun _ =>
        (turning_leaveFor _ _ _).bind fun _ => (hinner _).bind fun _ =>
          (turning_pickUpBackEdge c).bind ih

mutual

theorem turning_walkRegion (hinner : ∀ scope, Turning w (inner scope)) (scope : Scope) :
    ∀ r, Turning w (walkRegion w inner scope r)
  | .block b => by
    rw [walkRegion]
    exact turning_walkBlock hinner b
  | .loop info body => by
    have hbody (scope : Scope) := turning_walkRegions hinner scope body
    rw [walkRegion]
    refine (turning_pickUp _ _).bind fun entering => ?_
    split
    · exact turning_walkIterations hinner _ _
    · exact turning_pure ()
    · next x _ =>
      refine (turning_lift _).bind fun latch => ?_
      split
      · exact (turning_leaveFor _ _ _).bind fun _ => hbody scope
      refine (turning_leaveFor _ _ _).bind fun _ => (hbody _).bind fun _ =>
        (turning_pickUp _ _).bind fun back => (turning_meet _).bind fun second => ?_
      cases second with
      | none => exact turning_pure ()
      | some second =>
        exact (turning_leaveFor _ _ _).bind fun _ => (hbody _).bind fun _ =>
          (turning_takeClosing _ _).bind fun _ => turning_modify fun _ => rfl

theorem turning_walkRegions (hinner : ∀ scope, Turning w (inner scope)) (scope : Scope) :
    ∀ rs, Turning w (walkRegions w inner scope rs)
  | [] => by
    rw [walkRegions]
    exact turning_pure ()
  | r :: rs => by
    rw [walkRegions]
    exact (turning_walkRegion hinner scope r).bind fun _ => turning_walkRegions hinner scope rs

end

/-! ## Runs -/

theorem turning_walkContext (depth : Nat) (scope : Scope) :
    Turning w (walkContext w depth scope) := by
  induction depth generalizing scope with
  | zero =>
    intro s u s' h
    cases h
  | succ depth ih => exact (turning_lift _).bind fun _ => turning_walkRegions ih scope _

/-- A run consists of turns. -/
theorem turns_of_run {x : Snapshot} {out : Option Snapshot} {s s' : State}
    (h : run w x s = .ok (out, s')) : ReflTransGen (Turn w) s s' := by
  obtain ⟨depth, hrun⟩ := run_eq_ok_iff.1 h
  have hturning : Turning w (runTo w depth x) :=
    (turning_lift _).bind fun _ => turning_walkFunction (turning_walkContext _) _ _ _ _
  exact hturning s out s' hrun

/-- What each turn keeps holds after a run. -/
theorem run_induction {P : State → Prop} {x : Snapshot} {out : Option Snapshot} {s s' : State}
    (h : run w x s = .ok (out, s')) (hs : P s) (hturn : ∀ s s', Turn w s s' → P s → P s') :
    P s' := by
  have hturns := turns_of_run h
  clear h
  induction hturns with
  | refl => exact hs
  | tail _ hstep ih => exact hturn _ _ hstep ih

/-- Runs of the walk one after the other, each at its time and from a snapshot of its own. -/
def runAll (w : Setting) : List (Stamp × Snapshot) → State → Except Fault State
  | [], s => .ok s
  | (now, x) :: rest, s => do
    let (_, s) ← run w x { s with clock := now }
    runAll w rest s

/-- The same, each run to a depth. -/
def runAllTo (w : Setting) (depth : Nat) : List (Stamp × Snapshot) → State → Except Fault State
  | [], s => .ok s
  | (now, x) :: rest, s => do
    let (_, s) ← runTo w depth x { s with clock := now }
    runAllTo w depth rest s

/-- What runs to some depth yield, the runs yield. -/
theorem yields_runAll {P : State → Prop} {entries : List (Stamp × Snapshot)} {s : State}
    (depth : Nat) (h : Yields (runAllTo w depth entries s) P) : Yields (runAll w entries s) P := by
  obtain ⟨s', hs', hP⟩ := h
  refine ⟨s', ?_, hP⟩
  induction entries generalizing s with
  | nil => exact hs'
  | cons e rest ih =>
    obtain ⟨now, x⟩ := e
    obtain ⟨⟨out, s₁⟩, hrun, hrest⟩ := bind_eq_ok.1 hs'
    exact bind_eq_ok.2 ⟨(out, s₁), run_eq_ok_iff.2 ⟨depth, hrun⟩, ih hrest⟩

/-- What each turn keeps holds after any number of runs. -/
theorem runAll_induction {P : State → Prop} {entries : List (Stamp × Snapshot)} {s s' : State}
    (h : runAll w entries s = .ok s') (hs : P s) (hturn : ∀ s s', Turn w s s' → P s → P s') :
    P s' := by
  induction entries generalizing s with
  | nil => exact Except.ok.inj h ▸ hs
  | cons e rest ih =>
    obtain ⟨now, x⟩ := e
    obtain ⟨⟨out, s₁⟩, hrun, hrest⟩ := bind_eq_ok.1 h
    refine ih hrest ?_
    have hclock : P { s with clock := now } := hturn s _ (.quiet rfl) hs
    exact run_induction hrun hclock hturn

end Walk

end ByteTrust
