import Mathlib.Algebra.BigOperators.Group.List.Basic
import ByteTrust.Interference.Findings
import ByteTrust.Proofs.Interference.Order

/-!
# The search for tentative contexts

The search expands each context once, and a child waits once for each place that names it. So the
children of the contexts that were not seen yet, with those that wait, are as many as the steps
still to come, and the search ends within its bound (`Grounded.isTentative_eq_ok`).
-/

namespace ByteTrust

namespace Program

variable {p : Program} {l : Layout} {k : ContextId} {c : Context}

/-- All these contexts exist. -/
def Exist (p : Program) (ks : List ContextId) : Prop := ∀ k ∈ ks, ∃ c, p.contexts.get? k = some c

/-- The calls of every context name contexts that exist, and its regions are in order. -/
structure Grounded (p : Program) : Prop where
  callee : ∀ {k c b block i f}, p.contexts.get? k = some c → c.blocks.get? b = some block →
    i ∈ block.insts → i.op.callee? = some f → ∃ d, p.contexts.get? f = some d
  regions : ∀ {k c}, p.contexts.get? k = some c →
    ∃ covered, p.checkRegions c ∅ c.regions = .ok covered

theorem regions_of_checkShape (h : p.checkShape l c = .ok ()) :
    ∃ covered, p.checkRegions c ∅ c.regions = .ok covered := by
  rw [checkShape, bind_eq_ok] at h
  obtain ⟨⟨⟩, -, h⟩ := h
  obtain ⟨covered, hcovered, -⟩ := bind_eq_ok.1 h
  exact ⟨covered, hcovered⟩

theorem Linked.grounded (h : p.Linked l) : p.Grounded where
  callee hc hb hi hf := by
    obtain ⟨d, hd, -⟩ := h.callee hc hb hi hf
    exact ⟨d, hd⟩
  regions hc := regions_of_checkShape (h.shape hc)

/-- A linked program is grounded, also when two of its contexts bear one name. -/
theorem grounded_of_link {p₀ : Program} (h : p₀.link = .ok p) : p.Grounded := by
  obtain ⟨hnames, l, -, hshape, -⟩ := link_eq_ok h
  obtain ⟨-, hcontexts⟩ := checkNames_eq_ok hnames
  refine ⟨fun hc hb hi hf => ?_, fun hc =>
    regions_of_checkShape (hshape _ (Table.mem_values_of_get? hc))⟩
  obtain ⟨d, hd, -⟩ := checkOperation_callee
    (((hcontexts _ (Table.mem_values_of_get? hc)).blocks _ (Table.mem_entries.2 hb)).2 _ hi) hf
  exact ⟨d, hd⟩

/-- The iterations of a terminated peel exist. -/
theorem iterations_of_checkLoop {info : Loop} {body : List Region} {peel : PeelAttempt}
    (h : p.checkLoop c info body = .ok ()) (hpeel : info.terminatedPeel? = some peel) :
    p.Exist peel.iterations := by
  simp only [checkLoop, bind_eq_ok, hpeel, throw_eq_error, error_bind, ite_error_eq_ok,
    checkPeel, ite_else_error_eq_ok] at h
  obtain ⟨preheader, -, -, -, -, ⟨⟩, hiterations, -⟩ := h
  intro it hit
  obtain ⟨i, hi⟩ := List.mem_iff_getElem?.1 hit
  have hcheck := forM_eq_ok.1 hiterations (it, i) (List.mem_zipIdx_iff_getElem?.2 hi)
  rw [checkIteration, bind_eq_ok] at hcheck
  obtain ⟨d, hd, -⟩ := hcheck
  exact ⟨d, context_eq_ok.1 hd⟩

namespace Grounded

mutual

theorem childrenOf_eq_ok (h : p.Grounded) (hc : p.contexts.get? k = some c)
    {covered covered' : IdentSet .block} :
    ∀ {r : Region}, p.checkRegion c covered r = .ok covered' →
      ∃ ks, childrenOf c r = .ok ks ∧ p.Exist ks
  | .block b, hr => by
    rw [checkRegion, bind_eq_ok] at hr
    obtain ⟨⟨⟩, hblock, -⟩ := hr
    obtain ⟨block, hblock⟩ := discard_eq_ok hblock
    refine ⟨block.callees, ?_, fun g hg => ?_⟩
    · rw [childrenOf, bind_eq_ok]
      exact ⟨block, hblock, rfl⟩
    · obtain ⟨inst, hinst, hg⟩ := List.mem_filterMap.1 hg
      exact h.callee hc (Context.block_eq_ok.1 hblock) hinst hg
  | .loop info body, hr => by
    rw [checkRegion, bind_eq_ok] at hr
    obtain ⟨⟨⟩, hloop, hbody⟩ := hr
    rw [childrenOf]
    cases hpeel : info.terminatedPeel? with
    | some peel => exact ⟨peel.iterations, rfl, iterations_of_checkLoop hloop hpeel⟩
    | none => exact childrenOfAll_eq_ok h hc hbody

theorem childrenOfAll_eq_ok (h : p.Grounded) (hc : p.contexts.get? k = some c)
    {covered covered' : IdentSet .block} :
    ∀ {rs : List Region}, p.checkRegions c covered rs = .ok covered' →
      ∃ ks, childrenOfAll c rs = .ok ks ∧ p.Exist ks
  | [], _ => ⟨[], rfl, by simp [Exist]⟩
  | r :: rs, hrs => by
    rw [checkRegions, bind_eq_ok] at hrs
    obtain ⟨between, hr, hrs⟩ := hrs
    obtain ⟨ks, hks, hexist⟩ := childrenOf_eq_ok h hc hr
    obtain ⟨ks', hks', hexist'⟩ := childrenOfAll_eq_ok h hc hrs
    refine ⟨ks ++ ks', ?_, List.forall_mem_append.2 ⟨hexist, hexist'⟩⟩
    rw [childrenOfAll, hks, hks']
    rfl

end

theorem children_eq_ok (h : p.Grounded) (hc : p.contexts.get? k = some c) :
    ∃ ks, p.children k = .ok ks ∧ p.Exist ks := by
  obtain ⟨covered, hcovered⟩ := h.regions hc
  obtain ⟨ks, hks, hexist⟩ := h.childrenOfAll_eq_ok hc hcovered
  refine ⟨ks, ?_, hexist⟩
  rw [children, bind_eq_ok]
  exact ⟨c, context_eq_ok.2 hc, hks⟩

end Grounded

/-- The children of a context, counted. -/
def childCount (p : Program) (k : ContextId) : Nat := ((p.children k).toOption.getD []).length

/-- The children of the contexts that were not seen, counted. -/
def unseenChildren (p : Program) (seen : IdentSet .context) : Nat :=
  (p.contexts.keys.flatMap fun k =>
    if seen.contains k then [] else (p.children k).toOption.getD []).length

theorem searchBound_eq (p : Program) : p.searchBound = 1 + p.unseenChildren ∅ := rfl

/-- A context that is seen for the first time has its children counted no longer. -/
theorem unseenChildren_insert {seen : IdentSet .context} (hc : p.contexts.get? k = some c)
    (hk : k ∉ seen) :
    p.unseenChildren (seen.insert k) + p.childCount k = p.unseenChildren seen := by
  have hperm : p.contexts.keys.Perm (k :: p.contexts.keys.erase k) :=
    List.perm_cons_erase (Table.mem_keys.2 ⟨c, hc⟩)
  have hrest : (p.contexts.keys.erase k).flatMap (fun j =>
        if (seen.insert k).contains j then [] else (p.children j).toOption.getD []) =
      (p.contexts.keys.erase k).flatMap fun j =>
        if seen.contains j then [] else (p.children j).toOption.getD [] := by
    refine List.flatMap_congr fun j hj => ?_
    have hne : j ≠ k := ((List.Nodup.mem_erase_iff p.contexts.distinct).1 hj).1
    simp [IdentSet.contains_iff, IdentSet.mem_insert, hne]
  rw [unseenChildren, unseenChildren, (hperm.flatMap_right _).length_eq,
    (hperm.flatMap_right _).length_eq, List.flatMap_cons, List.flatMap_cons, hrest,
    List.length_append, List.length_append, childCount]
  simp [IdentSet.contains_iff, hk, Nat.add_comm]

theorem Grounded.reaches_eq_ok (h : p.Grounded) (goal : IdentSet .context) {fuel : Nat}
    {seen : IdentSet .context} {stack : List ContextId} (hstack : p.Exist stack)
    (hfuel : stack.length + p.unseenChildren seen ≤ fuel) :
    ∃ found, p.reaches goal fuel seen stack = .ok found := by
  induction fuel generalizing seen stack with
  | zero =>
    obtain rfl : stack = [] := List.length_eq_zero_iff.1 (by omega)
    exact ⟨false, rfl⟩
  | succ fuel ih =>
    cases stack with
    | nil => exact ⟨false, rfl⟩
    | cons k stack =>
      obtain ⟨⟨c, hc⟩, hstack⟩ := List.forall_mem_cons.1 hstack
      rw [List.length_cons] at hfuel
      rw [reaches]
      split
      · exact ih hstack (by omega)
      · next hk =>
        split
        · exact ⟨true, rfl⟩
        · obtain ⟨ks, hks, hexist⟩ := h.children_eq_ok hc
          have hcount : p.childCount k = ks.length := by
            rw [childCount, hks]
            rfl
          have hunseen := unseenChildren_insert hc hk
          rw [hks]
          refine ih (List.forall_mem_append.2
            ⟨fun j hj => hexist j (List.mem_reverse.1 hj), hstack⟩) ?_
          rw [List.length_append, List.length_reverse]
          omega

/-- The search for a tentative context comes to an end. -/
theorem Grounded.isTentative_eq_ok (h : p.Grounded) (hc : p.contexts.get? k = some c)
    (f : Findings) : ∃ found, p.isTentative f k = .ok found :=
  h.reaches_eq_ok f.tentative (by simpa [Exist] using ⟨c, hc⟩) (by rw [searchBound_eq]; simp)

/-- A search that ends at a goal ends at one of more goals. -/
theorem reaches_mono {goal goal' : IdentSet .context}
    (hgoal : ∀ c ∈ goal, c ∈ goal') {fuel : Nat} {seen : IdentSet .context} {stack : List ContextId}
    (h : p.reaches goal fuel seen stack = .ok true) : p.reaches goal' fuel seen stack = .ok true := by
  induction fuel generalizing seen stack with
  | zero => cases stack <;> simp [reaches] at h
  | succ fuel ih =>
    cases stack with
    | nil => simp [reaches] at h
    | cons c stack =>
      rw [reaches] at h ⊢
      split at h
      · next hseen => rw [if_pos hseen, ih h]
      · next hseen =>
        rw [if_neg hseen]
        split
        · rfl
        · next hc =>
          have hc' : ¬ goal.contains c = true := fun hin =>
            hc (IdentSet.contains_iff.2 (hgoal c (IdentSet.contains_iff.1 hin)))
          rw [if_neg hc'] at h
          obtain ⟨children, hchildren, hrest⟩ := bind_eq_ok.1 h
          rw [hchildren, ok_bind]
          exact ih hrest

end Program

end ByteTrust
