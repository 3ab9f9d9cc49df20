import ByteTrust.Interference.Walk
import ByteTrust.Proofs.Except
import Mathlib.Tactic.ByContra

/-!
# Walks without a bound

How deep contexts enter each other is not known before a walk, and a run looks for a depth that is
enough. Which one it finds makes no difference: a walk that comes to an end, with an answer or with
a fault of the program, comes to the same end at any greater depth (`Deepens`, `runTo_of_le`). So a
run answers what some depth answers (`run_eq_ok_iff`), it fails as some depth fails
(`run_eq_error_iff`), and it is without end only if every depth is exceeded
(`run_eq_endless_iff`).
-/

namespace ByteTrust.Walk

variable {w : Setting} {x : Snapshot} {s : State} {depth depth' : Nat}
  {r : Option Snapshot × State}

/-! ## Steps -/

/-- Unless the step `m` goes too deep, `m'` does the same. -/
def Deepens {α : Type} (m m' : Step α) : Prop :=
  ∀ s, m s ≠ .error .endless → m' s = m s

section Steps

variable {α β : Type} {m m' : Step α} {f f' : α → Step β}

theorem Deepens.refl (m : Step α) : Deepens m m := fun _ _ => rfl

theorem Deepens.eq_ok {s' : State} {a : α} (h : Deepens m m') (hs : m s = .ok (a, s')) :
    m' s = .ok (a, s') := by
  rw [h s (by simp [hs]), hs]

theorem Deepens.bind (hm : Deepens m m') (hf : ∀ a, Deepens (f a) (f' a)) :
    Deepens (m >>= f) (m' >>= f') := by
  intro s h
  have hbind (n : Step α) (g : α → Step β) : (n >>= g) s = n s >>= fun r => g r.1 r.2 := rfl
  rw [hbind] at h ⊢
  have hne : m s ≠ .error .endless := by
    intro hs
    rw [hs] at h
    exact h rfl
  rw [hbind, hm s hne]
  cases hs : m s with
  | error fault => rfl
  | ok r =>
    rw [hs] at h
    exact hf r.1 r.2 h

theorem Deepens.foldlM {γ : Type} {g g' : α → γ → Step α} (hg : ∀ a c, Deepens (g a c) (g' a c))
    (cs : List γ) (a : α) : Deepens (cs.foldlM g a) (cs.foldlM g' a) := by
  induction cs generalizing a with
  | nil => exact .refl _
  | cons c cs ih =>
    rw [List.foldlM_cons, List.foldlM_cons]
    exact (hg a c).bind ih

theorem Deepens.unlessStuck {f f' : Snapshot → Step (Option Snapshot)}
    (hf : ∀ x, Deepens (f x) (f' x)) (after : Option Snapshot) : Deepens
      (match after with
        | some x => f x
        | none => return none)
      (match after with
        | some x => f' x
        | none => return none) := by
  cases after with
  | none => exact .refl _
  | some x => exact hf x

/-- The same step before two others. -/
theorem Deepens.after (hf : ∀ a, Deepens (f a) (f' a)) : Deepens (m >>= f) (m >>= f') :=
  (Deepens.refl m).bind hf

end Steps

/-! ## From the inside out -/

section Walks

variable {inner inner' : Scope → Step Unit} (hinner : ∀ scope, Deepens (inner scope) (inner' scope))

include hinner

theorem deepens_walkFunction (c : ContextId) (loops : List ActiveLoop) (suppressed : Bool)
    (x : Snapshot) :
    Deepens (walkFunction w inner c loops suppressed x)
      (walkFunction w inner' c loops suppressed x) :=
  .after fun _ => .after fun _ => .after fun _ => .after fun _ => (hinner _).bind fun _ => .refl _

theorem deepens_applyCondition (scope : Scope) (x : Snapshot) (cond : PathCondition) :
    Deepens (applyCondition w inner scope x cond) (applyCondition w inner' scope x cond) := by
  unfold applyCondition
  cases cond.fact with
  | bytes ptr offset len => exact .refl _
  | checker c => exact (deepens_walkFunction hinner c _ _ x).bind fun _ => .refl _

theorem deepens_walkCall (scope : Scope) (certain : Bool) (inst : InstId) (site : CallSite)
    (callee : ContextId) (x : Snapshot) :
    Deepens (walkCall w inner scope certain inst site callee x)
      (walkCall w inner' scope certain inst site callee x) := by
  unfold walkCall
  refine .after fun s => ?_
  split
  · exact .refl _
  · refine .after fun _ => .after fun c => ?_
    exact (deepens_walkFunction hinner callee _ _ x).bind fun _ => .refl _

theorem deepens_walkInstrs (scope : Scope) (certain : Bool) (insts : List Instr) (x : Snapshot) :
    Deepens (walkInstrs w inner scope certain insts x)
      (walkInstrs w inner' scope certain insts x) := by
  induction insts generalizing x with
  | nil => exact .refl _
  | cons inst insts ih =>
    have hrest := Deepens.unlessStuck ih
    rw [walkInstrs, walkInstrs]
    split
    · split
      · exact (deepens_walkCall hinner scope certain _ _ _ x).bind hrest
      · exact .after hrest
    · exact .after hrest

theorem deepens_walkBlock (scope : Scope) (b : BlockId) :
    Deepens (walkBlock w inner scope b) (walkBlock w inner' scope b) := by
  refine .after fun block => .after fun entering => ?_
  cases entering with
  | none => exact .refl _
  | some x =>
    refine .after fun conditions => ?_
    refine (Deepens.foldlM (deepens_applyCondition hinner scope) conditions x).bind fun x => ?_
    exact (deepens_walkInstrs hinner scope _ _ x).bind fun _ => .refl _

theorem deepens_walkIterations (scope : Scope) (cs : List ContextId) (entering : Option Snapshot) :
    Deepens (walkIterations w inner scope cs entering)
      (walkIterations w inner' scope cs entering) := by
  induction cs generalizing entering with
  | nil => cases entering <;> exact .refl _
  | cons c cs ih =>
    cases entering with
    | none => exact .refl _
    | some x =>
      exact .after fun _ => .after fun _ => .after fun _ => (hinner _).bind fun _ => .after ih

end Walks

mutual

theorem deepens_walkRegion {inner inner' : Scope → Step Unit}
    (hinner : ∀ scope, Deepens (inner scope) (inner' scope)) (scope : Scope) :
    ∀ r, Deepens (walkRegion w inner scope r) (walkRegion w inner' scope r)
  | .block b => by
    rw [walkRegion, walkRegion]
    exact deepens_walkBlock hinner scope b
  | .loop info body => by
    have hbody (scope : Scope) : Deepens (walkRegions w inner scope body)
        (walkRegions w inner' scope body) := deepens_walkRegions hinner scope body
    rw [walkRegion, walkRegion]
    refine .after fun entering => ?_
    split
    · exact deepens_walkIterations hinner scope _ _
    · exact .refl _
    · refine .after fun latch => ?_
      split
      · exact .after fun _ => hbody scope
      · refine .after fun _ => (hbody _).bind fun _ => .after fun again => .after fun second => ?_
        cases second with
        | none => exact .refl _
        | some second => exact .after fun _ => (hbody _).bind fun _ => .refl _

theorem deepens_walkRegions {inner inner' : Scope → Step Unit}
    (hinner : ∀ scope, Deepens (inner scope) (inner' scope)) (scope : Scope) :
    ∀ rs, Deepens (walkRegions w inner scope rs) (walkRegions w inner' scope rs)
  | [] => by
    rw [walkRegions, walkRegions]
    exact .refl _
  | r :: rs => by
    rw [walkRegions, walkRegions]
    exact (deepens_walkRegion hinner scope r).bind fun _ => deepens_walkRegions hinner scope rs

end

theorem deepens_walkContext (h : depth ≤ depth') (scope : Scope) :
    Deepens (walkContext w depth scope) (walkContext w depth' scope) := by
  induction depth generalizing depth' scope with
  | zero =>
    intro s hs
    exact absurd rfl hs
  | succ depth ih =>
    obtain ⟨depth', rfl⟩ : ∃ n, depth' = n + 1 := ⟨depth' - 1, by omega⟩
    rw [walkContext, walkContext]
    exact .after fun c => deepens_walkRegions (ih (by omega)) scope c.regions

/-! ## Runs -/

/-- A walk that comes to its end does so at any greater depth. -/
theorem runTo_of_le (h : depth ≤ depth') (hend : runTo w depth x s ≠ .error .endless) :
    runTo w depth' x s = runTo w depth x s := by
  have hdeepens : Deepens (runTo w depth x) (runTo w depth' x) :=
    .after fun root => deepens_walkFunction (deepens_walkContext h) root.id _ _ x
  exact hdeepens s hend

/-- Two walks that come to their end agree, whatever their depths. -/
theorem runTo_unique (h : runTo w depth x s ≠ .error .endless)
    (h' : runTo w depth' x s ≠ .error .endless) : runTo w depth x s = runTo w depth' x s := by
  rcases Nat.le_total depth depth' with hle | hle
  · exact (runTo_of_le hle h).symm
  · exact runTo_of_le hle h'

theorem deepen_of_ne (h : runTo w depth x s ≠ .error .endless) :
    w.deepen x s depth = some (runTo w depth x s) := by
  rw [Setting.deepen]
  split
  · next hendless => exact absurd hendless h
  · rfl

/-- The search for a depth finds the end of the walk, if there is one. -/
theorem deepen_eq_some (h : runTo w depth x s ≠ .error .endless) (n : Nat) :
    w.deepen x s n = some (runTo w depth x s) := by
  by_cases hn : runTo w n x s = .error .endless
  · -- too small a depth: the distance to `depth` gets smaller
    have hlt : n < depth := by
      by_contra hle
      rw [runTo_of_le (Nat.not_lt.1 hle) h] at hn
      exact h hn
    rw [Setting.deepen, hn]
    exact deepen_eq_some h (n + 1)
  · rw [deepen_of_ne hn, runTo_unique hn h]
termination_by depth - n

/-- What a search for a depth answers is the end of a walk. -/
theorem exists_of_deepen {n : Nat} {answer : Except Fault (Option Snapshot × State)}
    (h : w.deepen x s n = some answer) :
    ∃ depth, runTo w depth x s = answer ∧ answer ≠ .error .endless := by
  refine Setting.deepen.partial_correctness w x s
    (fun _ answer => ∃ depth, runTo w depth x s = answer ∧ answer ≠ .error .endless) ?_ n answer h
  intro deepen ih n answer h
  split at h
  · exact ih (n + 1) answer h
  · next hne =>
    obtain rfl := Option.some.inj h
    exact ⟨n, rfl, hne⟩

/-- A run ends as the walk to any depth that is enough. -/
theorem run_eq_runTo (h : runTo w depth x s ≠ .error .endless) :
    run w x s = runTo w depth x s := by
  rw [run, deepen_eq_some h, Option.getD_some]

/-- A run that ends is the walk to some depth. -/
theorem exists_runTo_of_run (h : run w x s ≠ .error .endless) :
    ∃ depth, runTo w depth x s = run w x s := by
  cases hdeepen : w.deepen x s (w.program.contexts.size + 1) with
  | none =>
    rw [run, hdeepen] at h
    exact absurd rfl h
  | some answer =>
    obtain ⟨depth, hdepth, -⟩ := exists_of_deepen hdeepen
    refine ⟨depth, ?_⟩
    rw [run, hdeepen, hdepth, Option.getD_some]

/-- A run has the answer that some depth has. -/
theorem run_eq_ok_iff : run w x s = .ok r ↔ ∃ depth, runTo w depth x s = .ok r := by
  constructor
  · intro h
    obtain ⟨depth, hdepth⟩ := exists_runTo_of_run (w := w) (x := x) (s := s) (by simp [h])
    exact ⟨depth, hdepth.trans h⟩
  · rintro ⟨depth, h⟩
    have hend : runTo w depth x s ≠ .error .endless := by simp [h]
    rw [run_eq_runTo hend, h]

/-- A run fails as some depth fails. -/
theorem run_eq_error_iff {fault : Fault} (hfault : fault ≠ .endless) :
    run w x s = .error fault ↔ ∃ depth, runTo w depth x s = .error fault := by
  constructor
  · intro h
    obtain ⟨depth, hdepth⟩ := exists_runTo_of_run (w := w) (x := x) (s := s) (by simp [h, hfault])
    exact ⟨depth, hdepth.trans h⟩
  · rintro ⟨depth, h⟩
    have hend : runTo w depth x s ≠ .error .endless := by simp [h, hfault]
    rw [run_eq_runTo hend, h]

/-- A run is without end only where every depth is exceeded. -/
theorem run_eq_endless_iff :
    run w x s = .error .endless ↔ ∀ depth, runTo w depth x s = .error .endless := by
  constructor
  · intro h depth
    by_contra hne
    rw [run_eq_runTo hne] at h
    exact hne h
  · intro h
    by_contra hne
    obtain ⟨depth, hdepth⟩ := exists_runTo_of_run hne
    exact hne (hdepth.symm.trans (h depth))

/-- Two runs that succeed are walks to one depth. -/
theorem exists_common_depth {w' : Setting} {x' : Snapshot} {s' : State}
    {r' : Option Snapshot × State} (h : run w x s = .ok r) (h' : run w' x' s' = .ok r') :
    ∃ depth, runTo w depth x s = .ok r ∧ runTo w' depth x' s' = .ok r' := by
  obtain ⟨n, hn⟩ := run_eq_ok_iff.1 h
  obtain ⟨n', hn'⟩ := run_eq_ok_iff.1 h'
  refine ⟨max n n', ?_, ?_⟩
  · rw [runTo_of_le (Nat.le_max_left n n') (by simp [hn]), hn]
  · rw [runTo_of_le (Nat.le_max_right n n') (by simp [hn']), hn']

/-- What a walk to some depth yields, a run yields. -/
theorem yields_run {P : Option Snapshot × State → Prop} (depth : Nat)
    (h : Yields (runTo w depth x s) P) : Yields (run w x s) P := by
  obtain ⟨r, hr, hP⟩ := h
  exact ⟨r, run_eq_ok_iff.2 ⟨depth, hr⟩, hP⟩

end ByteTrust.Walk
