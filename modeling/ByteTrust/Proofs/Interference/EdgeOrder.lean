import ByteTrust.Interference.Checks
import ByteTrust.Proofs.Interference.Walks
import ByteTrust.Proofs.Program.EdgeOrder

/-!
# The order of edges in a walk

A block leaves one and the same snapshot at the end of all its edges. In whatever order it does so,
each place comes to the same list of waiting snapshots; only the tables in which they wait may list
the places in another order. So two walks through programs that differ in the order of edges go on
in lock step: their states are the same but for the order of these tables (`Same`), and where both
succeed they have found the same (`mimics_run`). `Mimics` says this of two steps and is carried
through the functions of the walk one by one. The checks that follow from what was found are then
equal as well.
-/

namespace ByteTrust.Walk

/-- The same was found, and the same snapshots wait in every place. -/
structure Same (s t : State) : Prop where
  clock : s.clock = t.clock
  findings : s.findings = t.findings
  references : s.references = t.references
  firstCalls : s.firstCalls = t.firstCalls
  visits : s.visits = t.visits
  bin : ∀ k, s.bin k = t.bin k

/-- From states that are the same, both steps come to the same result, if they succeed. -/
def Mimics {α : Type} (m n : Step α) : Prop :=
  ∀ s t a b s' t', Same s t → m s = .ok (a, s') → n t = .ok (b, t') → a = b ∧ Same s' t'

/-- The step does not depend on the order of tables. -/
abbrev Steady {α : Type} (m : Step α) : Prop := Mimics m m

variable {w : Setting} {σ : EdgeOrder} {s t : State} {x : Snapshot}

/-- The setting with the edges in another order. -/
def Setting.reorder (σ : EdgeOrder) (w : Setting) : Setting :=
  { w with program := w.program.reorder σ }

theorem Setting.context_reorder (c : ContextId) : (w.reorder σ).program.context c =
    (w.program.context c).map (Context.reorder σ c) := Program.context_reorder

theorem Setting.block_reorder (c : ContextId) (b : BlockId) : (w.reorder σ).program.block c b =
    (w.program.block c b).map (Block.reorder σ c) := Program.block_reorder b

namespace Same

theorem refl (s : State) : Same s s := ⟨rfl, rfl, rfl, rfl, rfl, fun _ => rfl⟩

theorem leave (h : Same s t) (x : Snapshot) (k : Bin) : Same (s.leave x k) (t.leave x k) where
  clock := by simpa using h.clock
  findings := by simpa using h.findings
  references := by simpa using h.references
  firstCalls := by simpa using h.firstCalls
  visits := by cases k <;> exact h.visits
  bin j := by rw [bin_leave, bin_leave, h.bin]

theorem clear (h : Same s t) (k : Bin) : Same (s.clear k) (t.clear k) where
  clock := by simpa using h.clock
  findings := by simpa using h.findings
  references := by simpa using h.references
  firstCalls := by simpa using h.firstCalls
  visits := by cases k <;> exact h.visits
  bin j := by rw [bin_clear, bin_clear, h.bin]

end Same

/-! ## Rules for steps -/

section Rules

variable {α β : Type} {m n : Step α} {f g : α → Step β}

theorem Mimics.bind (hm : Mimics m n) (hf : ∀ a, Mimics (f a) (g a)) :
    Mimics (m >>= f) (n >>= g) := by
  intro s t b b' s' t' h hs ht
  obtain ⟨a, s₁, ha, hs⟩ := step_bind_eq_ok.1 hs
  obtain ⟨a', t₁, ha', ht⟩ := step_bind_eq_ok.1 ht
  obtain ⟨rfl, h₁⟩ := hm s t a a' s₁ t₁ h ha ha'
  exact hf a s₁ t₁ b b' s' t' h₁ hs ht

theorem steady_pure (a : α) : Steady (pure a) := by
  intro s t b b' s' t' h hs ht
  obtain ⟨rfl, rfl⟩ := step_pure_eq_ok.1 hs
  obtain ⟨rfl, rfl⟩ := step_pure_eq_ok.1 ht
  exact ⟨rfl, h⟩

theorem steady_lift (z : Except Fault α) : Steady (liftM z : Step α) := by
  intro s t b b' s' t' h hs ht
  obtain ⟨hb, rfl⟩ := step_lift_eq_ok.1 hs
  obtain ⟨hb', rfl⟩ := step_lift_eq_ok.1 ht
  cases hb.symm.trans hb'
  exact ⟨rfl, h⟩

theorem mimics_map_bind {z : Except Fault α} {e : α → α} (hf : ∀ a, Mimics (f a) (g (e a))) :
    Mimics ((liftM z : Step α) >>= f) ((liftM (z.map e) : Step α) >>= g) := by
  intro s t b b' s' t' h hs ht
  obtain ⟨a, s₁, ha, hs⟩ := step_bind_eq_ok.1 hs
  obtain ⟨a', t₁, ha', ht⟩ := step_bind_eq_ok.1 ht
  obtain ⟨rfl, rfl⟩ := step_lift_eq_ok.1 ha
  obtain ⟨ha', rfl⟩ := step_lift_eq_ok.1 ha'
  cases ha'
  exact hf a s t b b' s' t' h hs ht

theorem mimics_get_bind {f g : State → Step β} (hf : ∀ s t, Same s t → Mimics (f s) (g t)) :
    Mimics ((get : Step State) >>= f) ((get : Step State) >>= g) :=
  fun s t b b' s' t' h hs ht => hf s t h s t b b' s' t' h hs ht

theorem steady_modify {e : State → State} (he : ∀ s t, Same s t → Same (e s) (e t)) :
    Steady (modify e) := by
  intro s t b b' s' t' h hs ht
  rw [← step_modify_eq_ok.1 hs, ← step_modify_eq_ok.1 ht]
  exact ⟨rfl, he s t h⟩

theorem steady_note (e : Findings → Findings) : Steady (note e) :=
  steady_modify (e := fun s => { s with findings := e s.findings }) fun _ _ h =>
    { h with findings := congrArg e h.findings }

theorem steady_tick : Steady tick := by
  intro s t b b' s' t' h hs ht
  obtain ⟨rfl, rfl⟩ := tick_eq_ok.1 hs
  obtain ⟨rfl, rfl⟩ := tick_eq_ok.1 ht
  exact ⟨h.clock, { h with clock := congrArg (· + 1) h.clock }⟩

theorem mimics_foldlM {γ : Type} {f g : α → γ → Step α} (hf : ∀ a c, Mimics (f a c) (g a c))
    (cs : List γ) (a : α) : Mimics (cs.foldlM f a) (cs.foldlM g a) := by
  induction cs generalizing a with
  | nil => exact steady_pure a
  | cons c cs ih =>
    rw [List.foldlM_cons, List.foldlM_cons]
    exact (hf a c).bind ih

end Rules

/-! ## Leaving and picking up snapshots -/

theorem steady_leaveFor (c : ContextId) (b : BlockId) (x : Snapshot) : Steady (leaveFor c b x) :=
  steady_modify fun _ _ h => h.leave x (.block c b)

theorem steady_meet (xs : List Snapshot) : Steady (meet xs) :=
  steady_tick.bind fun _ => steady_lift _

theorem steady_pick (k : Bin) {m : Step (Option Snapshot)}
    (hm : ∀ s, m s = meet (s.bin k) (s.clear k)) : Steady m := by
  intro s t out out' s' t' h hs ht
  rw [hm] at hs ht
  rw [← h.bin k] at ht
  exact steady_meet _ _ _ _ _ _ _ (h.clear k) hs ht

theorem steady_takeClosing (c : ContextId) (header : BlockId) : Steady (takeClosing c header) := by
  intro s t out out' s' t' h hs ht
  rw [takeClosing_eq] at hs ht
  cases hs
  cases ht
  exact ⟨h.bin _, h.clear _⟩

/-! ## Instructions -/

theorem steady_silence (inst : InstId) (values : List SpecValue) :
    Steady (silence w inst values) := by
  unfold silence
  refine mimics_get_bind fun s t h => ?_
  rw [h.references]
  dsimp only
  split
  · exact steady_pure false
  · refine (steady_modify fun s t h => ?_).bind fun _ => (steady_note _).bind fun _ =>
      steady_pure true
    exact { h with references := by rw [h.references] }

theorem steady_promote (inst : InstId) (result : ReadValue) : Steady (promote w inst result) := by
  unfold promote
  cases namedObject? result with
  | none => exact steady_pure ()
  | some object =>
    dsimp only
    refine mimics_get_bind fun s t h => ?_
    rw [h.references]
    split
    · refine (steady_modify fun s t h => ?_).bind fun _ => steady_note _
      exact { h with references := by rw [h.references] }
    · exact steady_pure ()

theorem steady_visitRead (scope : Scope) (certain : Bool) (inst : Instr) (x : Snapshot) :
    Steady (visitRead w scope certain inst x) := by
  unfold visitRead
  refine mimics_get_bind fun s t h => ?_
  rw [h.findings]
  generalize needNow w inst x (t.findings.needs.get? inst.id) = need
  have hend (recorded : Need) : Steady (do
      note fun f => { f with needs := f.needs.insert inst.id recorded }
      let after := w.program.transfer w.settings (← tick) inst.op (some need) scope.suppressed x
      modify fun s => { s with visits := ⟨scope.context, inst, x, after⟩ :: s.visits }
      return after) := by
    refine (steady_note _).bind fun _ => steady_tick.bind fun now => ?_
    refine (steady_modify fun s t h => ?_).bind fun _ => steady_pure _
    exact { h with visits := by rw [h.visits] }
  dsimp only
  split
  · refine (steady_note _).bind fun _ => (steady_silence _ _).bind fun given => ?_
    split <;> exact (steady_pure _).bind hend
  · split
    · split
      · exact (steady_promote _ _).bind fun _ => (steady_pure _).bind hend
      · exact (steady_pure _).bind hend
    · exact (steady_pure _).bind hend

theorem steady_visitInstr (scope : Scope) (certain : Bool) (inst : Instr) (x : Snapshot) :
    Steady (visitInstr w scope certain inst x) := by
  have htransfer (op : Operation) :
      Steady (do return w.program.transfer w.settings (← tick) op none scope.suppressed x) :=
    steady_tick.bind fun _ => steady_pure _
  unfold visitInstr
  split
  · exact steady_visitRead scope certain inst x
  split
  · exact steady_pure x
  cases inst.op with
  | call site =>
    dsimp only
    split
    · exact (steady_promote _ _).bind fun _ => htransfer _
    · exact htransfer _
  | _ => exact htransfer _

theorem mimics_after {f g : Snapshot → Step (Option Snapshot)} (h : ∀ x, Mimics (f x) (g x))
    (after : Option Snapshot) : Mimics
      (match after with
        | some x => f x
        | none => return none)
      (match after with
        | some x => g x
        | none => return none) := by
  cases after with
  | none => exact steady_pure none
  | some x => exact h x

/-! ## The end of a block -/

theorem route_reorder (scope : Scope) (source target : BlockId) :
    route (w.reorder σ) scope source target = route w scope source target := by
  have howner : w.layout.edgeOwner? (w.program.reorder σ) scope.context target =
      w.layout.edgeOwner? w.program scope.context target := Layout.edgeOwner?_dress _ _ _
  simp only [route, Setting.reorder, howner, Program.context_reorder]
  cases w.program.context scope.context <;> rfl

theorem bin_foldl_leave (ds : List Destination) (s : State) (k : Bin) :
    (ds.foldl (fun s d => s.leave x d.bin) s).bin k =
      s.bin k ++ List.replicate ((ds.map Destination.bin).count k) x := by
  induction ds generalizing s with
  | nil => simp
  | cons d ds ih =>
    rw [List.foldl_cons, ih, bin_leave, List.map_cons, List.count_cons]
    by_cases hk : k = d.bin
    · simp [hk, List.replicate_succ]
    · simp [hk, Ne.symm hk]

/-- A snapshot is left at several places, in any order. -/
theorem Same.foldl_leave {ds ds' : List Destination} (hperm : ds'.Perm ds) (h : Same s t) :
    Same (ds.foldl (fun s d => s.leave x d.bin) s) (ds'.foldl (fun s d => s.leave x d.bin) t) := by
  have hrest {α : Type} (e : State → α) (he : ∀ s k, e (s.leave x k) = e s) (ds : List Destination)
      (s : State) : e (ds.foldl (fun s d => s.leave x d.bin) s) = e s := by
    induction ds generalizing s with
    | nil => rfl
    | cons d ds ih => rw [List.foldl_cons, ih, he]
  refine ⟨?_, ?_, ?_, ?_, ?_, fun k => ?_⟩
  · rw [hrest State.clock (by simp), hrest State.clock (by simp), h.clock]
  · rw [hrest State.findings (by simp), hrest State.findings (by simp), h.findings]
  · rw [hrest State.references (by simp), hrest State.references (by simp), h.references]
  · rw [hrest State.firstCalls (by simp), hrest State.firstCalls (by simp), h.firstCalls]
  · have hvisits (s : State) (k : Bin) : (s.leave x k).visits = s.visits := by cases k <;> rfl
    rw [hrest State.visits hvisits, hrest State.visits hvisits, h.visits]
  · rw [bin_foldl_leave, bin_foldl_leave, h.bin, (hperm.map Destination.bin).count_eq]

theorem filterMapM_lift_eq_filterMap {α β : Type} {f : α → Except Fault (Option β)} {as : List α}
    {bs : List β} {s s' : State}
    (h : as.filterMapM (fun a => (liftM (f a) : Step (Option β))) s = .ok (bs, s')) :
    bs = as.filterMap (fun a => (f a).toOption.join) ∧ s = s' := by
  induction as generalizing bs with
  | nil =>
    rw [List.filterMapM_nil, step_pure_eq_ok] at h
    exact ⟨h.1.symm, h.2⟩
  | cons a as ih =>
    rw [List.filterMapM_cons, step_bind_eq_ok] at h
    obtain ⟨o, _, hlift, h⟩ := h
    obtain ⟨ho, rfl⟩ := step_lift_eq_ok.1 hlift
    rw [List.filterMap_cons, ho]
    cases o with
    | none => exact ih h
    | some b =>
      obtain ⟨bs', _, htail, hbs⟩ := step_bind_eq_ok.1 h
      obtain ⟨rfl, rfl⟩ := step_pure_eq_ok.1 hbs
      obtain ⟨rfl, rfl⟩ := ih htail
      exact ⟨rfl, rfl⟩

theorem mimics_finishBlock (scope : Scope) (block : Block) (x : Snapshot) :
    Mimics (finishBlock w scope block x)
      (finishBlock (w.reorder σ) scope (block.reorder σ scope.context) x) := by
  unfold finishBlock
  have hend : (block.reorder σ scope.context).terminator = block.terminator := rfl
  rw [hend]
  cases block.terminator with
  | ret =>
    change Steady _
    dsimp only
    split
    · exact steady_pure ()
    · exact steady_tick.bind fun _ => (steady_lift _).bind fun e =>
        steady_modify fun _ _ h => h.leave e.2 (.returns (w.layout.functionRoot scope.context))
  | unreachable => exact steady_pure ()
  | branch =>
    intro s t u u' s' t' h hs ht
    obtain ⟨ds, s₁, hds, hs⟩ := step_bind_eq_ok.1 hs
    obtain ⟨ds', t₁, hds', ht⟩ := step_bind_eq_ok.1 ht
    simp only [route_reorder] at hds'
    obtain ⟨rfl, rfl⟩ := filterMapM_lift_eq_filterMap hds
    obtain ⟨rfl, rfl⟩ := filterMapM_lift_eq_filterMap hds'
    rw [← forM_leaveAt_eq_ok hs, ← forM_leaveAt_eq_ok ht]
    exact ⟨rfl, h.foldl_leave ((Program.liveSuccs_reorder block).filterMap _)⟩

/-! ## Functions, calls and blocks -/

/-- What walks the regions of contexts in the one order and in the other. -/
def Mimicking (inner inner' : Scope → Step Unit) : Prop :=
  ∀ scope, Mimics (inner scope) (inner' scope)

section

variable {inner inner' : Scope → Step Unit} (hinner : Mimicking inner inner')

include hinner

theorem Mimicking.function (c : ContextId) (loops : List ActiveLoop) (suppressed : Bool)
    (x : Snapshot) : Mimics (walkFunction w inner c loops suppressed x)
      (walkFunction (w.reorder σ) inner' c loops suppressed x) := by
  unfold walkFunction
  rw [Setting.context_reorder]
  exact mimics_map_bind fun context => (steady_note _).bind fun _ => steady_tick.bind fun _ =>
    (steady_leaveFor c context.entry _).bind fun _ => (hinner _).bind fun _ =>
      steady_pick (.returns c) (pickUpReturns_eq c)

omit hinner in
theorem conditionsAt_reorder (c : ContextId) (b : BlockId) :
    conditionsAt (w.reorder σ) c b = conditionsAt w c b := by
  simp only [conditionsAt, Setting.reorder, Program.context_reorder]
  cases w.program.context (w.layout.functionRoot c) <;> rfl

theorem Mimicking.condition (scope : Scope) (x : Snapshot) (cond : PathCondition) :
    Mimics (applyCondition w inner scope x cond)
      (applyCondition (w.reorder σ) inner' scope x cond) := by
  unfold applyCondition
  cases cond.fact with
  | bytes ptr offset len => exact steady_tick.bind fun _ => steady_pure _
  | checker c =>
    refine (hinner.function c scope.loops false x).bind fun out => ?_
    cases out with
    | some x => exact steady_pure x
    | none => exact steady_tick.bind fun _ => steady_pure _

omit hinner in
theorem steady_afterCall (scope : Scope) (certain : Bool) (inst : InstId) (site : CallSite)
    (lost : Bool) (x : Snapshot) : Steady (afterCall w scope certain inst site lost x) := by
  unfold afterCall
  split
  · exact ((steady_silence _ _).bind fun _ => steady_pure _).bind fun _ => steady_tick.bind fun _ =>
      steady_pure _
  · dsimp only
    split
    · exact (steady_promote _ _).bind fun _ => steady_pure _
    · exact steady_pure _

theorem Mimicking.call (scope : Scope) (certain : Bool) (inst : InstId) (site : CallSite)
    (callee : ContextId) (x : Snapshot) :
    Mimics (walkCall w inner scope certain inst site callee x)
      (walkCall (w.reorder σ) inner' scope certain inst site callee x) := by
  unfold walkCall
  refine mimics_get_bind fun s t h => ?_
  rw [h.firstCalls, Setting.context_reorder,
    show (w.reorder σ).program.isTentative = _ from funext Program.isTentative_dress]
  split
  · exact (steady_note _).bind fun _ => steady_tick.bind fun _ => steady_pure _
  · refine (steady_modify fun s t h => ?_).bind fun _ => mimics_map_bind fun c => ?_
    · exact { h with firstCalls := by rw [h.firstCalls] }
    refine (hinner.function callee scope.loops _ x).bind fun out => ?_
    cases out with
    | none => exact steady_pure none
    | some x =>
      refine mimics_get_bind fun s t h => ?_
      rw [h.findings, show (c.reorder σ callee).materialized = c.materialized from rfl]
      dsimp only
      split
      · exact steady_afterCall scope certain inst site false x
      · exact (steady_lift _).bind fun lost => steady_afterCall scope certain inst site lost x

theorem Mimicking.instrs (scope : Scope) (certain : Bool) (insts : List Instr) (x : Snapshot) :
    Mimics (walkInstrs w inner scope certain insts x)
      (walkInstrs (w.reorder σ) inner' scope certain insts x) := by
  induction insts generalizing x with
  | nil => exact steady_pure (some x)
  | cons inst insts ih =>
    have hrest := mimics_after ih
    have hvisit : Steady (some <$> visitInstr w scope certain inst x) := by
      rw [map_eq_pure_bind]
      exact (steady_visitInstr scope certain inst x).bind fun _ => steady_pure _
    rw [walkInstrs, walkInstrs]
    split
    · split
      · exact (hinner.call scope certain _ _ _ x).bind hrest
      · exact hvisit.bind hrest
    · exact hvisit.bind hrest

theorem Mimicking.block (scope : Scope) (b : BlockId) :
    Mimics (walkBlock w inner scope b) (walkBlock (w.reorder σ) inner' scope b) := by
  unfold walkBlock
  rw [Setting.block_reorder, conditionsAt_reorder]
  refine mimics_map_bind fun block => (steady_pick (.block _ _) (pickUp_eq _ _)).bind fun out => ?_
  cases out with
  | none => exact steady_pure ()
  | some x =>
    refine (steady_lift _).bind fun conds => ?_
    refine (mimics_foldlM (fun x cond => hinner.condition scope x cond) conds x).bind fun x => ?_
    refine (hinner.instrs scope block.certain block.insts x).bind fun out => ?_
    cases out with
    | none => exact steady_pure ()
    | some x => exact mimics_finishBlock scope block x

/-! ## Loops -/

theorem Mimicking.iterations (scope : Scope) (cs : List ContextId) (out : Option Snapshot) :
    Mimics (walkIterations w inner scope cs out)
      (walkIterations (w.reorder σ) inner' scope cs out) := by
  induction cs generalizing out with
  | nil => cases out <;> exact steady_pure ()
  | cons c cs ih =>
    cases out with
    | none => exact steady_pure ()
    | some x =>
      unfold walkIterations
      rw [Setting.context_reorder]
      exact mimics_map_bind fun context => (steady_note _).bind fun _ =>
        (steady_leaveFor c context.entry x).bind fun _ => (hinner _).bind fun _ =>
          (steady_pick (.back c) (pickUpBackEdge_eq c)).bind ih

end

mutual

theorem Mimicking.region {inner inner' : Scope → Step Unit} (hinner : Mimicking inner inner')
    (scope : Scope) :
    ∀ r, Mimics (walkRegion w inner scope r) (walkRegion (w.reorder σ) inner' scope r)
  | .block b => by
    rw [walkRegion, walkRegion]
    exact hinner.block scope b
  | .loop info body => by
    have hbody (scope : Scope) : Mimics (walkRegions w inner scope body)
        (walkRegions (w.reorder σ) inner' scope body) := hinner.regions scope body
    have hpick : Steady (pickUp scope.context info.header) :=
      steady_pick (.block _ _) (pickUp_eq _ _)
    rw [walkRegion, walkRegion, Setting.block_reorder]
    refine hpick.bind fun entering => ?_
    cases info.terminatedPeel? with
    | some peel => exact hinner.iterations scope peel.iterations entering
    | none =>
      cases entering with
      | none => exact steady_pure ()
      | some x =>
        refine mimics_map_bind fun latch => ?_
        rw [Program.hasLiveEdgeTo_reorder]
        split
        · exact (steady_leaveFor _ _ x).bind fun _ => hbody scope
        · refine (steady_leaveFor _ _ x).bind fun _ => (hbody _).bind fun _ => hpick.bind
            fun again => (steady_meet _).bind fun second => ?_
          cases second with
          | none => exact steady_pure ()
          | some second =>
            exact (steady_leaveFor _ _ second).bind fun _ => (hbody _).bind fun _ =>
              (steady_takeClosing _ _).bind fun _ => steady_note _

theorem Mimicking.regions {inner inner' : Scope → Step Unit} (hinner : Mimicking inner inner')
    (scope : Scope) :
    ∀ rs, Mimics (walkRegions w inner scope rs) (walkRegions (w.reorder σ) inner' scope rs)
  | [] => by
    rw [walkRegions, walkRegions]
    exact steady_pure ()
  | r :: rs => by
    rw [walkRegions, walkRegions]
    exact (hinner.region scope r).bind fun _ => hinner.regions scope rs

end

theorem mimicking_walkContext (w : Setting) (σ : EdgeOrder) (depth : Nat) :
    Mimicking (walkContext w depth) (walkContext (w.reorder σ) depth) := by
  induction depth with
  | zero =>
    intro scope s t u u' s' t' h hs
    cases hs
  | succ depth ih =>
    intro scope
    rw [walkContext, walkContext, Setting.context_reorder]
    exact mimics_map_bind fun c => ih.regions scope c.regions

/-- The whole walk does not depend on the order of edges. -/
theorem mimics_run (x : Snapshot) : Mimics (run w x) (run (w.reorder σ) x) := by
  have hdepth (depth : Nat) : Mimics (runTo w depth x) (runTo (w.reorder σ) depth x) := by
    unfold runTo
    rw [Setting.context_reorder]
    exact mimics_map_bind fun root =>
      (mimicking_walkContext w σ depth).function root.id [] (!root.materialized) x
  intro s t out out' s' t' h hs ht
  obtain ⟨depth, hs, ht⟩ := exists_common_depth hs ht
  exact hdepth depth s t out out' s' t' h hs ht

/-! ## Checks -/

section Checks

variable {f : Findings}

theorem callNeedsCheck_reorder (site : CallSite) :
    callNeedsCheck (w.reorder σ) f site = callNeedsCheck w f site := by
  have htentative : (w.program.reorder σ).isTentative f = w.program.isTentative f :=
    Program.isTentative_dress f
  unfold callNeedsCheck
  cases site.callee with
  | none => rfl
  | some callee =>
    simp only [Setting.reorder, Program.context_reorder, htentative]
    cases w.program.context callee <;> rfl

theorem hiddenPeel?_reorder (c : ContextId) (pred : BlockId) :
    hiddenPeel? (w.reorder σ) c pred = hiddenPeel? w c pred := by
  simp only [hiddenPeel?, Setting.reorder, Program.context_reorder]
  cases w.layout.owner? (w.layout.functionRoot c) pred with
  | none => rfl
  | some owner =>
    dsimp only
    cases w.program.context owner <;> rfl

theorem phiNeedsCheck_reorder (c : ContextId) (value : ReadValue) (preds : List BlockId) :
    phiNeedsCheck (w.reorder σ) f c value preds = phiNeedsCheck w f c value preds := by
  have htentative : (w.reorder σ).program.anyTentative f = w.program.anyTentative f :=
    funext (Program.anyTentative_dress f)
  induction preds with
  | nil => rfl
  | cons pred preds ih =>
    rw [phiNeedsCheck, phiNeedsCheck, hiddenPeel?_reorder, ih, htentative]

theorem interferes_reorder (inst : InstId) (place : Place) (op : Operation) :
    interferes (w.reorder σ) f inst place op = interferes w f inst place op := by
  cases op with
  | call site => exact callNeedsCheck_reorder site
  | phi value =>
    simp only [interferes, phiNeedsCheck_reorder]
    rw [Setting.block_reorder]
    cases w.program.block place.context place.block <;> rfl
  | _ => rfl

theorem needsCheck_reorder (inst : InstId) (special : Bool) :
    needsCheck (w.reorder σ) f inst special = needsCheck w f inst special := by
  have hinstr : (w.reorder σ).program.instruction = w.program.instruction :=
    funext Program.instruction_dress
  have hlayout : (w.reorder σ).layout = w.layout := rfl
  have hsettings : (w.reorder σ).settings = w.settings := rfl
  simp only [needsCheck, hinstr, hlayout, hsettings, interferes_reorder]

theorem countHere_reorder (insts : List Instr) :
    countHere (w.reorder σ) f insts = countHere w f insts := by
  induction insts with
  | nil => rfl
  | cons inst insts ih => simp only [countHere, needsCheck_reorder, ih]

theorem tally_reorder (fuel : Nat) (t : Tally) (c : ContextId) :
    tally (w.reorder σ) f fuel t c = tally w f fuel t c := by
  have hchildren : (w.reorder σ).program.children = w.program.children := Program.children_dress
  induction fuel generalizing t c with
  | zero => rfl
  | succ fuel ih =>
    simp only [tally, countHere_reorder, hchildren, ih]
    rw [Setting.context_reorder]
    cases w.program.context c with
    | error fault => rfl
    | ok context =>
      have hinstrs : (context.reorder σ c).instructions = context.instructions :=
        Context.instructions_dress ..
      simp only [Except.map, ok_bind, hinstrs]

theorem checkCounts_reorder : checkCounts (w.reorder σ) f = checkCounts w f := by
  have hbound : (w.reorder σ).program.climbBound = w.program.climbBound := Program.climbBound_dress
  simp only [checkCounts, hbound, tally_reorder]
  rfl

theorem addChecked_reorder (checked : IdentSet .inst) (insts : List Instr) :
    addChecked (w.reorder σ) f checked insts = addChecked w f checked insts := by
  induction insts generalizing checked with
  | nil => rfl
  | cons inst insts ih => simp only [addChecked, needsCheck_reorder, ih]

theorem runtimeChecks_reorder : runtimeChecks (w.reorder σ) f = runtimeChecks w f := by
  unfold runtimeChecks
  congr 1
  funext checked c
  rw [Setting.context_reorder]
  cases w.program.context c with
  | error fault => rfl
  | ok context =>
    have hinstrs : (context.reorder σ c).instructions = context.instructions :=
      Context.instructions_dress ..
    simp only [Except.map, ok_bind, hinstrs, addChecked_reorder]

end Checks

end ByteTrust.Walk
