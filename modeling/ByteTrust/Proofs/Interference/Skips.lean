import ByteTrust.Proofs.Interference.Course

/-!
# Calls that a run passes over

A function is walked for the call that came to it first. Any other call of it is passed over, and
the run marks that. `Skips w x s q y` says that a run comes to such a call, and with which snapshot
`y`. Every call that a run marks is one of them, and its callee is walked on the way
(`skips_of_run`).

`Marks` is the judgement behind it: what a step marks, it marks below the stage at which it is done.
For each part of a stage, the course of the run says how it comes there.
-/

namespace ByteTrust

namespace Walk

open Relation Snapshot

/-- Below a stage, the walk comes with `y` to the call `q.2` of `q.1`, and passes it over: `q.1`
was walked from another call before. -/
inductive Passes (w : Setting) (g : Stage) (q : ContextId × InstId) (y : Snapshot) : Prop
  | intro {depth : Nat} {scope : Scope} {b : BlockId} {inst : Instr} {other : InstId}
      {s s' : State} (hparts : ReflTransGen (Part w) g ⟨depth, .region scope (.block b), s⟩)
      (harrive : Arrives w depth scope b s inst y s') (hcallee : inst.op.callee? = some q.1)
      (hinst : inst.id = q.2) (hother : s'.firstCalls.get? q.1 = some other) (hne : other ≠ q.2)

/-- A run from `x` comes with `y` to the call `q.2` of `q.1`, and passes it over. -/
def Skips (w : Setting) (x : Snapshot) (s : State) (q : ContextId × InstId) (y : Snapshot) : Prop :=
  ∃ depth c, w.program.context w.program.root = .ok c ∧ Passes w (.root depth c x s) q y

/-- A run from `x` walks the function `c` from `z`, beginning in the state `s₁`. -/
def WalksFunction (w : Setting) (x : Snapshot) (s : State) (c : ContextId)
    (loops : List ActiveLoop) (suppressed : Bool) (z : Snapshot) (s₁ : State) : Prop :=
  ∃ depth, Comes w x s ⟨depth, .function c loops suppressed z, s₁⟩

/-- The function `c` was entered from a call before, or it is walked below the stage `g`. -/
def Entered (w : Setting) (g : Stage) (s : State) (c : ContextId) : Prop :=
  (∃ i, s.firstCalls.get? c = some i) ∨ ∃ depth loops suppressed z s₁,
    ReflTransGen (Part w) g ⟨depth, .function c loops suppressed z, s₁⟩

variable {w : Setting} {g g' : Stage} {depth : Nat} {scope : Scope} {b : BlockId} {inst : Instr}
  {conds : List PathCondition} {block : Block} {x y z : Snapshot} {s s' s₁ : State}
  {H : List Snapshot} {q : ContextId × InstId}

theorem Passes.above (h : Passes w g' q y) (hpart : Part w g g') : Passes w g q y := by
  obtain ⟨hparts, harrive, hcallee, hinst, hother, hne⟩ := h
  exact ⟨hparts.head hpart, harrive, hcallee, hinst, hother, hne⟩

theorem Skips.canonical (h : Skips w x s q y) (hH : Kept s H) (hx : x ∈ H) : y.Canonical := by
  obtain ⟨depth, c, hc, hparts, harrive, -⟩ := h
  obtain ⟨H₁, hkept, -⟩ := Comes.kept ⟨depth, c, hc, hparts⟩ hH hx
  obtain ⟨H₂, -, hkept₂, hy⟩ := harrive.kept hkept
  exact hkept₂.canonical (hy y rfl)

/-! ## What a step marks -/

/-- The calls that were entered first, and those that were passed over. -/
def State.marked (s : State) : Table ContextId InstId × List (ContextId × InstId) :=
  (s.firstCalls, s.findings.sharedCalls)

/-- Between two states, calls were entered and passed over below the stage `g` only. -/
structure Marked (w : Setting) (g : Stage) (s s' : State) : Prop where
  first : ∀ {c i}, s'.firstCalls.get? c = some i → Entered w g s c
  shared : ∀ {q}, q ∈ s'.findings.sharedCalls →
    q ∈ s.findings.sharedCalls ∨ (∃ y, Passes w g q y) ∧ Entered w g s q.1

namespace Marked

theorem of_eq (h : s'.marked = s.marked) : Marked w g s s' := by
  obtain ⟨hfirst, hshared⟩ := Prod.mk.inj h
  exact ⟨fun {_ i} hi => .inl ⟨i, hfirst ▸ hi⟩, fun hq => .inl (hshared ▸ hq)⟩

theorem trans (h : Marked w g s s₁) (h' : Marked w g s₁ s') : Marked w g s s' := by
  have hentered {c : ContextId} (hc : Entered w g s₁ c) : Entered w g s c := by
    rcases hc with ⟨i, hi⟩ | hwalked
    · exact h.first hi
    · exact .inr hwalked
  refine ⟨fun hi => hentered (h'.first hi), fun hq => ?_⟩
  rcases h'.shared hq with hq | ⟨hpasses, hcallee⟩
  · exact h.shared hq
  · exact .inr ⟨hpasses, hentered hcallee⟩

/-- What is marked below a part of a stage is marked below the stage. -/
theorem above (h : Marked w g' s s') (hpart : Part w g g') : Marked w g s s' := by
  have hentered {c : ContextId} : Entered w g' s c → Entered w g s c :=
    Or.imp_right fun ⟨depth, loops, suppressed, z, s₁, hparts⟩ =>
      ⟨depth, loops, suppressed, z, s₁, hparts.head hpart⟩
  refine ⟨fun hi => hentered (h.first hi), fun hq => (h.shared hq).imp_right ?_⟩
  rintro ⟨⟨y, hy⟩, hcallee⟩
  exact ⟨⟨y, hy.above hpart⟩, hentered hcallee⟩

end Marked

/-- What the step `m` marks, it marks below the stage `g`. -/
def Marks (w : Setting) (g : Stage) {α : Type} (m : Step α) (s : State) : Prop :=
  ∀ a s', m s = .ok (a, s') → Marked w g s s'

section Rules

variable {α β : Type} {m : Step α} {f : α → Step β}

theorem Marks.bind (hm : Marks w g m s) (hf : ∀ a s₁, m s = .ok (a, s₁) → Marks w g (f a) s₁) :
    Marks w g (m >>= f) s := by
  intro b s' h
  obtain ⟨a, s₁, ha, hb⟩ := step_bind_eq_ok.1 h
  exact (hm a s₁ ha).trans (hf a s₁ ha b s' hb)

theorem Marks.above (hm : Marks w g' m s) (hpart : Part w g g') : Marks w g m s :=
  fun a s' h => (hm a s' h).above hpart

/-- A step that marks nothing. -/
theorem marks_of_eq (h : ∀ a s', m s = .ok (a, s') → s'.marked = s.marked) : Marks w g m s :=
  fun a s' hm => .of_eq (h a s' hm)

theorem marks_pure (a : α) : Marks w g (pure a) s :=
  marks_of_eq fun _ _ h => by rw [(step_pure_eq_ok.1 h).2]

theorem marks_lift_bind {r : Except Fault α} (hf : ∀ a, r = .ok a → Marks w g (f a) s) :
    Marks w g (liftM r >>= f) s := by
  refine Marks.bind (marks_of_eq fun _ _ h => by rw [(step_lift_eq_ok.1 h).2]) fun a s₁ h => ?_
  obtain ⟨ha, rfl⟩ := step_lift_eq_ok.1 h
  exact hf a ha

/-- A first step that marks nothing. -/
theorem marks_step_bind {a : α} (hm : m s = .ok (a, s₁))
    (hsame : s₁.marked = s.marked) (hf : Marks w g (f a) s₁) : Marks w g (m >>= f) s := by
  refine Marks.bind (marks_of_eq fun _ _ h => ?_) fun _ _ h => ?_
  all_goals cases hm.symm.trans h
  · exact hsame
  · exact hf

theorem marks_tick : Marks w g tick s := by
  refine marks_of_eq fun _ _ h => ?_
  obtain ⟨-, rfl⟩ := tick_eq_ok.1 h
  rfl

theorem marks_meet (xs : List Snapshot) : Marks w g (meet xs) s :=
  marks_tick.bind fun _ _ _ => marks_of_eq fun _ _ h => by rw [(step_lift_eq_ok.1 h).2]

theorem marked_clear (s : State) (k : Bin) : (s.clear k).marked = s.marked := by cases k <;> rfl

theorem marks_pickUp (c : ContextId) (b : BlockId) : Marks w g (pickUp c b) s := by
  intro a s' h
  rw [pickUp_eq] at h
  exact (Marked.of_eq (marked_clear ..)).trans (marks_meet _ a s' h)

theorem marks_pickUpBackEdge (c : ContextId) : Marks w g (pickUpBackEdge c) s := by
  intro a s' h
  rw [pickUpBackEdge_eq] at h
  exact (Marked.of_eq (marked_clear ..)).trans (marks_meet _ a s' h)

theorem marks_pickUpReturns (c : ContextId) : Marks w g (pickUpReturns c) s := by
  intro a s' h
  rw [pickUpReturns_eq] at h
  exact (Marked.of_eq (marked_clear ..)).trans (marks_meet _ a s' h)

end Rules

theorem silence_marked {i : InstId} {values : List SpecValue} {lost : Bool}
    (h : silence w i values s = .ok (lost, s')) : s'.marked = s.marked := by
  obtain ⟨-, rfl⟩ | ⟨objects, -, -, -, -, rfl⟩ := silence_cases h <;> rfl

theorem promote_marked {i : InstId} {result : ReadValue} {u : Unit}
    (h : promote w i result s = .ok (u, s')) : s'.marked = s.marked := by
  obtain rfl | ⟨o, promotions, -, -, -, -, rfl⟩ := promote_cases h <;> rfl

theorem marks_visitInstr (certain : Bool) (x : Snapshot) :
    Marks w g (visitInstr w scope certain inst x) s := by
  have hpure (op : Operation) {s₁ : State} : Marks w g (do
      return w.program.transfer w.settings (← tick) op none scope.suppressed x) s₁ :=
    marks_tick.bind fun _ _ _ => marks_pure _
  unfold visitInstr
  split
  · refine marks_of_eq fun y s' h => ?_
    obtain ⟨s₁, recorded, hdecides, -, rfl⟩ := visitRead_cases h
    cases hdecides with
    | checked _ hsilence =>
      have hsame := silence_marked hsilence
      exact hsame
    | promoted _ _ hpromote =>
      have hsame := promote_marked hpromote
      exact hsame
    | safe => rfl
  split
  · exact marks_pure x
  cases inst.op with
  | call site =>
    dsimp only
    split
    · exact Marks.bind (marks_of_eq fun _ _ h => promote_marked h) fun _ _ _ => hpure _
    · exact hpure _
  | _ => exact hpure _

theorem marked_foldl_leave (ds : List Destination) (x : Snapshot) (s : State) :
    (ds.foldl (fun s d => s.leave x d.bin) s).marked = s.marked := by
  induction ds generalizing s with
  | nil => rfl
  | cons d ds ih =>
    rw [List.foldl_cons, ih]
    cases d <;> rfl

theorem marks_finishBlock (block : Block) (x : Snapshot) :
    Marks w g (finishBlock w scope block x) s := by
  unfold finishBlock
  cases block.terminator with
  | ret =>
    dsimp only
    split
    · exact marks_pure ()
    · refine marks_tick.bind fun _ _ _ => marks_lift_bind fun _ _ => ?_
      refine marks_of_eq fun _ _ h => ?_
      obtain rfl := step_modify_eq_ok.1 h
      rfl
  | unreachable => exact marks_pure ()
  | branch =>
    refine Marks.bind (marks_of_eq fun _ _ h => by rw [(filterMapM_lift_eq_ok h).1]) ?_
    refine fun ds s₁ _ => marks_of_eq fun _ _ h => ?_
    rw [← forM_leaveAt_eq_ok h, marked_foldl_leave]

/-! ## Blocks -/

/-- Every function that is walked with this depth marks only what is passed over in it. -/
def MarksFunctions (w : Setting) (depth : Nat) : Prop :=
  ∀ c loops suppressed x s, Marks w ⟨depth, .function c loops suppressed x, s⟩
    (walkFunction w (walkContext w depth) c loops suppressed x) s

theorem Applies.snoc {cond : PathCondition} (h : Applies w depth scope b s conds block y s')
    (hcond : applyCondition w (walkContext w depth) scope y cond s' = .ok (z, s₁)) :
    Applies w depth scope b s (conds ++ [cond]) block z s₁ := by
  obtain ⟨hblock, hpick, hconds⟩ := h
  refine ⟨hblock, hpick, ?_⟩
  rw [List.foldlM_append, step_bind_eq_ok]
  refine ⟨y, s', hconds, ?_⟩
  rw [List.foldlM_cons, step_bind_eq_ok]
  exact ⟨z, s₁, hcond, rfl⟩

theorem marks_conditions (hfunctions : MarksFunctions w depth) {rest : List PathCondition}
    (happly : Applies w depth scope b s conds block y s₁)
    (hconds : conditionsAt w scope.context b = .ok (conds ++ rest)) :
    Marks w ⟨depth, .region scope (.block b), s⟩
      (rest.foldlM (applyCondition w (walkContext w depth) scope) y) s₁ := by
  induction rest generalizing conds y s₁ with
  | nil => exact marks_pure y
  | cons cond rest ih =>
    rw [List.foldlM_cons]
    refine Marks.bind ?_ fun z s₂ hcond => ih (happly.snoc hcond) (by simpa using hconds)
    unfold applyCondition
    cases hfact : cond.fact with
    | bytes ptr offset len => exact marks_tick.bind fun _ _ _ => marks_pure _
    | checker c =>
      have hpart := Part.checker hconds happly hfact
      refine ((hfunctions _ _ _ _ _).above hpart).bind fun out _ _ => ?_
      cases out with
      | none => exact marks_tick.bind fun _ _ _ => marks_pure _
      | some z => exact marks_pure z

/-- A call is entered, and the walk of its callee is a part of the stage. -/
theorem marked_call {callee : ContextId} {i : InstId} {loops : List ActiveLoop} {suppressed : Bool}
    (hpart : Part w g ⟨depth, .function callee loops suppressed z, s₁⟩) :
    Marked w g s { s with firstCalls := s.firstCalls.insert callee i } := by
  refine ⟨fun {c j} hj => ?_, .inl⟩
  rw [Table.get?_insert] at hj
  split at hj
  · next hc =>
    cases hc
    exact .inr ⟨_, _, _, _, _, .single hpart⟩
  · exact .inl ⟨j, hj⟩

/-- A call that is passed over is marked, and one that is not is walked. -/
theorem marks_walkCall {site : CallSite} {callee : ContextId} {certain : Bool}
    (hfunctions : MarksFunctions w depth) (harrive : Arrives w depth scope b s inst y s₁)
    (hcallee : inst.op.callee? = some callee) :
    Marks w ⟨depth, .region scope (.block b), s⟩
      (walkCall w (walkContext w depth) scope certain inst.id site callee y) s₁ := by
  intro out s' h
  cases walkCall_cases h with
  | shared hother hne =>
    refine ⟨fun {_ i} hi => .inl ⟨i, hi⟩, fun hq => ?_⟩
    rcases List.mem_append.1 hq with hq | hq
    · exact .inl hq
    · obtain rfl := List.mem_singleton.1 hq
      exact .inr ⟨⟨y, .refl, harrive, hcallee, rfl, hother, hne⟩, .inl ⟨_, hother⟩⟩
  | stuck hown hc hfunction =>
    have hpart := Part.call harrive hcallee hown hc
    exact (marked_call hpart).trans ((hfunctions _ _ _ _ _).above hpart _ _ hfunction)
  | returned hown hc hfunction _ hafter =>
    have hpart := Part.call harrive hcallee hown hc
    refine ((marked_call hpart).trans ((hfunctions _ _ _ _ _).above hpart _ _ hfunction)).trans
      (.of_eq ?_)
    obtain ⟨-, _, _, hsilence, -, rfl⟩ | ⟨-, -, rfl | ⟨u, hpromote⟩⟩ := afterCall_cases hafter
    · have hsame := silence_marked hsilence
      exact hsame
    · rfl
    · exact promote_marked hpromote

theorem marks_walkInstrs (hfunctions : MarksFunctions w depth)
    (hconds : conditionsAt w scope.context b = .ok conds)
    (happly : Applies w depth scope b s conds block x s₁) {insts rest : List Instr}
    (hinsts : block.insts = insts ++ rest)
    (hwalk : walkInstrs w (walkContext w depth) scope block.certain insts x s₁ = .ok (some y, s')) :
    Marks w ⟨depth, .region scope (.block b), s⟩
      (walkInstrs w (walkContext w depth) scope block.certain rest y) s' := by
  -- the walk comes to each call through the instructions before it, so these stay in view
  induction rest generalizing insts y s' with
  | nil => exact marks_pure _
  | cons inst rest ih =>
    rw [← List.singleton_append, walkInstrs_append]
    refine Marks.bind ?_ fun out s₂ hinst => ?_
    · cases hcallee : inst.op.callee? with
      | none =>
        rw [walkInstrs_instr hcallee]
        exact (marks_visitInstr _ _).bind fun _ _ _ => marks_pure _
      | some callee =>
        obtain ⟨site, heq⟩ : ∃ site, ∀ insts x,
            walkInstrs w (walkContext w depth) scope block.certain (inst :: insts) x = _ :=
          walkInstrs_call hcallee
        rw [heq]
        refine (marks_walkCall hfunctions ⟨hconds, happly, hinsts, hwalk⟩ hcallee).bind ?_
        rintro (_ | z) _ - <;> exact marks_pure _
    · cases out with
      | none => exact marks_pure none
      | some z =>
        have hnext : walkInstrs w (walkContext w depth) scope block.certain (insts ++ [inst]) x s₁ =
            .ok (some z, s₂) := by
          rw [walkInstrs_append, step_bind_eq_ok]
          exact ⟨some y, s', hwalk, hinst⟩
        exact ih (by simpa using hinsts) hnext

theorem marks_walkBlock (hfunctions : MarksFunctions w depth) (scope : Scope) (b : BlockId)
    (s : State) : Marks w ⟨depth, .region scope (.block b), s⟩
      (walkBlock w (walkContext w depth) scope b) s := by
  unfold walkBlock
  refine marks_lift_bind fun block hblock => (marks_pickUp _ _).bind fun entering s₁ hpick => ?_
  cases entering with
  | none => exact marks_pure ()
  | some x =>
    refine marks_lift_bind fun conds hconds => ?_
    have hfirst : Applies w depth scope b s [] block x s₁ := ⟨hblock, hpick, rfl⟩
    refine (marks_conditions hfunctions hfirst hconds).bind fun y s₂ happly => ?_
    have hall : Applies w depth scope b s conds block y s₂ := ⟨hblock, hpick, happly⟩
    have hnone : walkInstrs w (walkContext w depth) scope block.certain [] y s₂ = .ok (some y, s₂) :=
      rfl
    refine (marks_walkInstrs hfunctions hconds hall rfl hnone).bind fun after s₃ _ => ?_
    cases after with
    | none => exact marks_pure ()
    | some z => exact marks_finishBlock block z

/-! ## Loops and functions -/

/-- The regions that are walked with this depth mark only what is passed over in them. -/
def MarksRegions (w : Setting) (depth : Nat) : Prop :=
  ∀ scope rs s, Marks w ⟨depth, .regions scope rs, s⟩
    (walkRegions w (walkContext w depth) scope rs) s

section Contexts

variable (hbelow : ∀ f, depth = f + 1 → MarksRegions w f)

include hbelow

/-- A context marks what its regions do, with less depth. -/
theorem marks_walkContext {c : Context} (hc : w.program.context scope.context = .ok c)
    (hpart : ∀ f, depth = f + 1 → Part w g ⟨f, .regions scope c.regions, s⟩) :
    Marks w g (walkContext w depth scope) s := by
  cases depth with
  | zero => intro a s' h; cases h
  | succ f =>
    rw [walkContext]
    refine marks_lift_bind fun c' hc' => ?_
    cases hc.symm.trans hc'
    exact (hbelow f rfl scope c.regions s).above (hpart f rfl)

theorem marksFunctions : MarksFunctions w depth := by
  intro k loops suppressed x s
  unfold walkFunction
  refine marks_lift_bind fun c hc => marks_step_bind rfl rfl ?_
  refine marks_step_bind rfl rfl (marks_step_bind rfl rfl ?_)
  refine Marks.bind (marks_walkContext hbelow hc ?_) fun _ _ _ => marks_pickUpReturns k
  rintro f rfl
  exact .body hc

theorem marks_walkIterations (scope : Scope) (ks : List ContextId) (entering : Option Snapshot)
    (s : State) : Marks w ⟨depth, .iterations scope ks entering, s⟩
      (walkIterations w (walkContext w depth) scope ks entering) s := by
  induction ks generalizing entering s with
  | nil => cases entering <;> exact marks_pure ()
  | cons k ks ih =>
    cases entering with
    | none => exact marks_pure ()
    | some x =>
      rw [walkIterations]
      refine marks_lift_bind fun c hc => marks_step_bind rfl rfl (marks_step_bind rfl rfl ?_)
      refine Marks.bind (marks_walkContext hbelow hc ?_) fun _ s₁ hbody => ?_
      · rintro f rfl
        exact .iteration hc
      · refine (marks_pickUpBackEdge k).bind fun y s₂ hpick => ?_
        exact (ih y s₂).above (.nextIteration hc hbody hpick)

end Contexts

mutual

theorem marks_walkRegion (hbelow : ∀ f, depth = f + 1 → MarksRegions w f) (scope : Scope) :
    ∀ r s, Marks w ⟨depth, .region scope r, s⟩ (walkRegion w (walkContext w depth) scope r) s
  | .block b, s => by
    rw [walkRegion]
    exact marks_walkBlock (marksFunctions hbelow) scope b s
  | .loop info body, s => by
    have hbody (scope : Scope) (s : State) :
        Marks w ⟨depth, .regions scope body, s⟩ (walkRegions w (walkContext w depth) scope body) s :=
      marks_walkRegions hbelow scope [] body s s rfl
    rw [walkRegion]
    refine (marks_pickUp _ _).bind fun entering s₁ hpick => ?_
    split
    · next peel _ hpeel => exact (marks_walkIterations hbelow _ _ _ _).above (.peel hpeel hpick)
    · exact marks_pure ()
    · next x hpeel =>
      refine marks_lift_bind fun latch hlatch => ?_
      split
      · next hback =>
        have henter : EntersLoop w scope info s false x _ :=
          ⟨hpeel, hpick, hlatch, by simpa using hback⟩
        exact marks_step_bind rfl rfl ((hbody _ _).above (.once henter))
      · next hback =>
        have henter : EntersLoop w scope info s true x _ :=
          ⟨hpeel, hpick, hlatch, by simpa using hback⟩
        refine marks_step_bind rfl rfl (Marks.bind ((hbody _ _).above (.firstPass henter)) ?_)
        refine fun _ s₂ hfirst => (marks_pickUp _ _).bind fun again s₃ hagain => ?_
        refine (marks_meet _).bind fun second s₄ hmeet => ?_
        cases second with
        | none => exact marks_pure ()
        | some second =>
          refine marks_step_bind rfl rfl (Marks.bind
            ((hbody _ _).above (.secondPass henter hfirst hagain hmeet)) fun _ s₅ _ => ?_)
          refine marks_step_bind rfl rfl (marks_of_eq fun _ _ h => ?_)
          obtain rfl := note_eq_ok.1 h
          rfl

theorem marks_walkRegions (hbelow : ∀ f, depth = f + 1 → MarksRegions w f) (scope : Scope) :
    ∀ before rs s s₁, walkRegions w (walkContext w depth) scope before s = .ok ((), s₁) →
      Marks w ⟨depth, .regions scope (before ++ rs), s⟩
        (walkRegions w (walkContext w depth) scope rs) s₁
  | _, [], _, _, _ => by
    rw [walkRegions]
    exact marks_pure ()
  | before, r :: rs, s, s₁, hbefore => by
    rw [walkRegions]
    refine Marks.bind ((marks_walkRegion hbelow scope r s₁).above (.region hbefore)) ?_
    intro _ s₂ hr
    have hsnoc : walkRegions w (walkContext w depth) scope (before ++ [r]) s = .ok ((), s₂) := by
      rw [walkRegions_append, step_bind_eq_ok]
      refine ⟨(), s₁, hbefore, ?_⟩
      rw [walkRegions, step_bind_eq_ok]
      exact ⟨(), s₂, hr, by rw [walkRegions]; rfl⟩
    have hrest := marks_walkRegions hbelow scope (before ++ [r]) rs s s₂ hsnoc
    rwa [List.append_assoc, List.singleton_append] at hrest

end

theorem marksRegions (w : Setting) (depth : Nat) : MarksRegions w depth := by
  -- a context is entered with less depth, and without depth none is entered
  induction depth with
  | zero => exact fun scope rs s => marks_walkRegions (by simp) scope [] rs s s rfl
  | succ depth ih =>
    have hbelow : ∀ f, depth + 1 = f + 1 → MarksRegions w f := by
      intro f hf
      cases hf
      exact ih
    exact fun scope rs s => marks_walkRegions hbelow scope [] rs s s rfl

/-- Every call that a run marks as passed over is one that it comes to and passes over, and it comes
to walk the callee. -/
theorem skips_of_run {out : Option Snapshot} (hs : s.marked = (∅, []))
    (h : run w x s = .ok (out, s')) (hq : q ∈ s'.findings.sharedCalls) :
    (∃ y, Skips w x s q y) ∧
      ∃ loops suppressed z s₁, WalksFunction w x s q.1 loops suppressed z s₁ := by
  obtain ⟨hfirst, hshared⟩ := Prod.mk.inj hs
  obtain ⟨n, h⟩ := run_eq_ok_iff.1 h
  simp only [runTo, step_bind_eq_ok, step_lift_eq_ok] at h
  obtain ⟨c, _, ⟨hc, rfl⟩, h⟩ := h
  have hmarked := marksFunctions (fun f _ => marksRegions w f) _ _ _ _ _ _ _ h
  rcases hmarked.shared hq with hq | ⟨⟨y, hy⟩, ⟨i, hi⟩ | hwalked⟩
  · simp [hshared] at hq
  · simp [hfirst] at hi
  · obtain ⟨depth, loops, suppressed, z, s₁, hparts⟩ := hwalked
    exact ⟨⟨y, n, c, hc, hy⟩, loops, suppressed, z, s₁, depth, n, c, hc, hparts⟩

end Walk

end ByteTrust
