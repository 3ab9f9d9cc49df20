import ByteTrust.Proofs.Interference.Counts
import ByteTrust.Proofs.Program.Shape

/-!
# Tentative contexts are found by reachability

A context is tentative when a context with a read that needs a check can be reached from it, through
the calls in the blocks of its regions, at any depth, and through the iterations of its terminated
peels. The search decides this for every context of a linked program, whether or not contexts call
each other in circles (`isTentative_exact`).

The children that the search goes on to are exactly these callees and iterations
(`Grounded.child_iff`). A search that ends at a goal has come to it through children
(`exists_of_reaches`). One that ends without a goal has made a survey: no context that it has seen
is a goal, and nothing is left waiting, so all children of what it has seen it has seen too
(`surveyed_of_reaches`).
-/

namespace ByteTrust

open Relation Region

namespace Program

variable {p : Program} {k j : ContextId} {c : Context}

/-! ## Callees and iterations -/

/-- A block among `bs` has an inlined call of `j`. -/
def CallsFrom (c : Context) (bs : List BlockId) (j : ContextId) : Prop :=
  ∃ b ∈ bs, ∃ block, c.blocks.get? b = some block ∧
    ∃ inst ∈ block.insts, ∃ site, inst.op = .call site ∧ site.callee = some j

/-- A loop among `infos` is a terminated peel, and `j` is one of its iterations. -/
def Unrolls (infos : List Loop) (j : ContextId) : Prop :=
  ∃ info ∈ infos, ∃ peel, info.terminatedPeel? = some peel ∧ j ∈ peel.iterations

/-- The context `k` calls `j` from a block of its regions, or iterates it. -/
def Invokes (p : Program) (k j : ContextId) : Prop :=
  ∃ c, p.contexts.get? k = some c ∧
    (CallsFrom c (blocksAll c.regions) j ∨ Unrolls c.loops j)

theorem callsFrom_append {bs bs' : List BlockId} :
    CallsFrom c (bs ++ bs') j ↔ CallsFrom c bs j ∨ CallsFrom c bs' j := by
  simp only [CallsFrom, List.mem_append, or_and_right, exists_or]

theorem unrolls_append {infos infos' : List Loop} :
    Unrolls (infos ++ infos') j ↔ Unrolls infos j ∨ Unrolls infos' j := by
  simp only [Unrolls, List.mem_append, or_and_right, exists_or]

theorem not_callsFrom_nil : ¬ CallsFrom c [] j := by
  rintro ⟨b, hb, -⟩
  cases hb

theorem not_unrolls_nil : ¬ Unrolls [] j := by
  rintro ⟨info, hinfo, -⟩
  cases hinfo

theorem mem_callees {block : Block} :
    j ∈ block.callees ↔ ∃ inst ∈ block.insts, ∃ site, inst.op = .call site ∧
      site.callee = some j := by
  rw [Block.callees, List.mem_filterMap]
  refine exists_congr fun inst => and_congr_right fun _ => ?_
  cases inst.op <;> simp [Operation.callee?]

theorem callsFrom_block {b : BlockId} {block : Block} (hb : c.blocks.get? b = some block) :
    CallsFrom c [b] j ↔ j ∈ block.callees := by
  rw [mem_callees]
  constructor
  · rintro ⟨b', hb', block', hblock, hcall⟩
    cases List.mem_singleton.1 hb'
    cases hb.symm.trans hblock
    exact hcall
  · exact fun hcall => ⟨b, List.mem_singleton_self b, block, hb, hcall⟩

theorem unrolls_cons {info : Loop} {infos : List Loop} :
    Unrolls (info :: infos) j ↔
      (∃ peel, info.terminatedPeel? = some peel ∧ j ∈ peel.iterations) ∨ Unrolls infos j := by
  simp only [Unrolls, List.mem_cons, or_and_right, exists_or, exists_eq_left]

/-- A terminated peel keeps no body. -/
theorem body_of_checkLoop {info : Loop} {body : List Region} {peel : PeelAttempt}
    (h : p.checkLoop c info body = .ok ()) (hpeel : info.terminatedPeel? = some peel) :
    body = [] := by
  simp only [checkLoop, bind_eq_ok, hpeel, throw_eq_error, error_bind, ite_error_eq_ok,
    checkPeel, ite_else_error_eq_ok, Bool.and_eq_true, List.isEmpty_iff] at h
  obtain ⟨preheader, -, -, ⟨hbody, -⟩, -⟩ := h
  exact hbody

mutual

theorem mem_childrenOf_iff {covered covered' : IdentSet .block} :
    ∀ {r : Region} {ks : List ContextId}, p.checkRegion c covered r = .ok covered' →
      childrenOf c r = .ok ks → (j ∈ ks ↔ CallsFrom c r.blocks j ∨ Unrolls r.loops j)
  | .block b, ks, _, hks => by
    rw [childrenOf, bind_eq_ok] at hks
    obtain ⟨block, hblock, hks⟩ := hks
    cases hks
    rw [Region.blocks, Region.loops, callsFrom_block (Context.block_eq_ok.1 hblock),
      or_iff_left not_unrolls_nil]
  | .loop info body, ks, hr, hks => by
    rw [checkRegion, bind_eq_ok] at hr
    obtain ⟨⟨⟩, hloop, hbody⟩ := hr
    rw [childrenOf] at hks
    rw [Region.blocks, Region.loops, unrolls_cons]
    cases hpeel : info.terminatedPeel? with
    | some peel =>
      cases body_of_checkLoop hloop hpeel
      rw [hpeel] at hks
      cases hks
      rw [blocksAll, loopsAll, or_iff_right not_callsFrom_nil, or_iff_left not_unrolls_nil]
      simp
    | none =>
      rw [hpeel] at hks
      rw [mem_childrenOfAll_iff hbody hks]
      simp

theorem mem_childrenOfAll_iff {covered covered' : IdentSet .block} :
    ∀ {rs : List Region} {ks : List ContextId}, p.checkRegions c covered rs = .ok covered' →
      childrenOfAll c rs = .ok ks →
        (j ∈ ks ↔ CallsFrom c (blocksAll rs) j ∨ Unrolls (loopsAll rs) j)
  | [], ks, _, hks => by
    cases hks
    rw [blocksAll, loopsAll, or_iff_right not_callsFrom_nil]
    simpa using not_unrolls_nil
  | r :: rs, ks, hrs, hks => by
    rw [checkRegions, bind_eq_ok] at hrs
    obtain ⟨between, hr, hrs⟩ := hrs
    rw [childrenOfAll, bind_eq_ok] at hks
    obtain ⟨ks₁, hks₁, hks⟩ := hks
    obtain ⟨ks₂, hks₂, hks⟩ := bind_eq_ok.1 hks
    cases hks
    rw [List.mem_append, mem_childrenOf_iff hr hks₁, mem_childrenOfAll_iff hrs hks₂, blocksAll,
      loopsAll, callsFrom_append, unrolls_append]
    exact or_or_or_comm

end

/-- The children of a context are its callees and its iterations. -/
theorem Grounded.child_iff (h : p.Grounded) : p.Child k j ↔ p.Invokes k j := by
  constructor
  · rintro ⟨ks, hks, hj⟩
    obtain ⟨c, hc, hall⟩ := bind_eq_ok.1 hks
    rw [context_eq_ok] at hc
    obtain ⟨covered, hcovered⟩ := h.regions hc
    exact ⟨c, hc, (mem_childrenOfAll_iff hcovered hall).1 hj⟩
  · rintro ⟨c, hc, hj⟩
    obtain ⟨covered, hcovered⟩ := h.regions hc
    obtain ⟨ks, hks, -⟩ := h.children_eq_ok hc
    obtain ⟨c', hc', hall⟩ := bind_eq_ok.1 hks
    cases hc.symm.trans (context_eq_ok.1 hc')
    exact ⟨ks, hks, (mem_childrenOfAll_iff hcovered hall).2 hj⟩

/-! ## The search -/

variable {goal seen : IdentSet .context} {stack : List ContextId} {fuel : Nat}

/-- A search that ends at a goal has come to it from a context that waited. -/
theorem exists_of_reaches (h : p.reaches goal fuel seen stack = .ok true) :
    ∃ k ∈ stack, ∃ j ∈ goal, p.Beneath k j := by
  induction fuel generalizing seen stack with
  | zero => cases stack <;> simp [reaches] at h
  | succ fuel ih =>
    cases stack with
    | nil => simp [reaches] at h
    | cons k stack =>
      rw [reaches] at h
      split at h
      · obtain ⟨k', hk', hfound⟩ := ih h
        exact ⟨k', List.mem_cons_of_mem k hk', hfound⟩
      split at h
      · next hgoal => exact ⟨k, List.mem_cons_self, k, IdentSet.contains_iff.1 hgoal, .refl⟩
      obtain ⟨ks, hks, h⟩ := bind_eq_ok.1 h
      obtain ⟨k', hk', j, hj, hbeneath⟩ := ih h
      rcases List.mem_append.1 hk' with hk' | hk'
      · have hchild : p.Child k k' := ⟨ks, hks, List.mem_reverse.1 hk'⟩
        exact ⟨k, List.mem_cons_self, j, hj, .head hchild hbeneath⟩
      · exact ⟨k', List.mem_cons_of_mem k hk', j, hj, hbeneath⟩

/-- No context that was seen is a goal, and their children were seen or wait. -/
structure Surveyed (p : Program) (goal seen : IdentSet .context) (stack : List ContextId) :
    Prop where
  not_goal : ∀ k ∈ seen, k ∉ goal
  child : ∀ k ∈ seen, ∀ j, p.Child k j → j ∈ seen ∨ j ∈ stack

theorem Surveyed.skip (h : p.Surveyed goal seen (k :: stack)) (hk : k ∈ seen) :
    p.Surveyed goal seen stack where
  not_goal := h.not_goal
  child i hi j hj := by
    rcases h.child i hi j hj with hj | hj
    · exact .inl hj
    · rcases List.mem_cons.1 hj with rfl | hj
      · exact .inl hk
      · exact .inr hj

theorem Surveyed.expand (h : p.Surveyed goal seen (k :: stack)) (hk : k ∉ goal)
    {ks : List ContextId} (hks : p.children k = .ok ks) :
    p.Surveyed goal (seen.insert k) (ks.reverse ++ stack) where
  not_goal i hi := by
    rcases IdentSet.mem_insert.1 hi with rfl | hi
    · exact hk
    · exact h.not_goal i hi
  child i hi j hj := by
    rw [IdentSet.mem_insert, List.mem_append, List.mem_reverse]
    rcases IdentSet.mem_insert.1 hi with rfl | hi
    · obtain ⟨ks', hks', hj⟩ := hj
      cases hks.symm.trans hks'
      exact .inr (.inl hj)
    · rcases h.child i hi j hj with hj | hj
      · exact .inl (.inr hj)
      · exact (List.mem_cons.1 hj).imp .inl .inr

/-- A search that ends without a goal has seen all that waited, and leaves nothing waiting. -/
theorem surveyed_of_reaches (h : p.reaches goal fuel seen stack = .ok false)
    (hseen : p.Surveyed goal seen stack) :
    ∃ seen', p.Surveyed goal seen' [] ∧ (∀ k ∈ seen, k ∈ seen') ∧ ∀ k ∈ stack, k ∈ seen' := by
  induction fuel generalizing seen stack with
  | zero =>
    cases stack with
    | nil => exact ⟨seen, hseen, fun _ hk => hk, by simp⟩
    | cons k stack => cases h
  | succ fuel ih =>
    cases stack with
    | nil => exact ⟨seen, hseen, fun _ hk => hk, by simp⟩
    | cons k stack =>
      rw [reaches] at h
      split at h
      · next hk =>
        have hk := IdentSet.contains_iff.1 hk
        obtain ⟨seen', hsurvey, hgrows, hwaited⟩ := ih h (hseen.skip hk)
        exact ⟨seen', hsurvey, hgrows, List.forall_mem_cons.2 ⟨hgrows k hk, hwaited⟩⟩
      split at h
      · cases h
      next hgoal =>
      obtain ⟨ks, hks, h⟩ := bind_eq_ok.1 h
      obtain ⟨seen', hsurvey, hgrows, hwaited⟩ :=
        ih h (hseen.expand (fun hk => hgoal (IdentSet.contains_iff.2 hk)) hks)
      refine ⟨seen', hsurvey, fun i hi => hgrows i (IdentSet.mem_insert.2 (.inr hi)), ?_⟩
      refine List.forall_mem_cons.2 ⟨hgrows k (IdentSet.mem_insert.2 (.inl rfl)), fun i hi => ?_⟩
      exact hwaited i (List.mem_append_right _ hi)

/-- Where nothing waits, no goal is below a context that was seen. -/
theorem Surveyed.not_goal_of_beneath (h : p.Surveyed goal seen []) (hk : k ∈ seen)
    (hj : p.Beneath k j) : j ∉ goal := by
  suffices j ∈ seen from h.not_goal j this
  induction hj with
  | refl => exact hk
  | tail _ hchild ih => exact (h.child _ ih _ hchild).resolve_right List.not_mem_nil

/-- The answer of a search from one context. -/
theorem reaches_iff {found : Bool} (h : p.reaches goal fuel ∅ [k] = .ok found) :
    found = true ↔ ∃ j ∈ goal, p.Beneath k j := by
  cases found with
  | true =>
    obtain ⟨k', hk', hfound⟩ := exists_of_reaches h
    cases List.mem_singleton.1 hk'
    exact iff_of_true rfl hfound
  | false =>
    have hempty : p.Surveyed goal ∅ [k] :=
      ⟨fun i hi => absurd hi (IdentSet.not_mem_empty i),
        fun i hi => absurd hi (IdentSet.not_mem_empty i)⟩
    obtain ⟨seen', hsurvey, -, hwaited⟩ := surveyed_of_reaches h hempty
    refine iff_of_false Bool.false_ne_true ?_
    rintro ⟨j, hj, hbeneath⟩
    exact hsurvey.not_goal_of_beneath (hwaited k (List.mem_singleton_self k)) hbeneath hj

/-- Of every context of a linked program it is found out whether it is tentative: it is when a
context that has a read that needs a check can be reached from it, through calls from the blocks of
its regions and through the iterations of terminated peels. -/
theorem isTentative_exact {p₀ : Program} (hlink : p₀.link = .ok p)
    (hk : p.contexts.get? k = some c) (f : Findings) :
    ∃ found, p.isTentative f k = .ok found ∧
      (found = true ↔ ∃ j ∈ f.tentative, ReflTransGen p.Invokes k j) := by
  have hground := grounded_of_link hlink
  obtain ⟨found, hfound⟩ := hground.isTentative_eq_ok hk f
  have hchild : p.Child = p.Invokes := by
    funext k j
    exact propext hground.child_iff
  refine ⟨found, hfound, ?_⟩
  rw [reaches_iff hfound, ← hchild]

/-- The unrolled loop of `nestedLoops`, which stands in the body of another one, calls a function in
its last iteration. This function and the one that it calls go round in a circle, and a third one
that calls into the circle is not called itself. -/
def calledInPeel : Program :=
  { nestedLoops with
    contexts := .ofList (nestedLoops.contexts.entries ++ [
      (⟨2⟩,
        { id := ⟨2⟩
          kind := .iteration ⟨2⟩ 1 ⟨7⟩ ⟨7⟩
          parent := some ⟨0⟩
          blocks := .ofList [
            (⟨7⟩,
              { id := ⟨7⟩
                insts := [Walk.callOf 0 ⟨3⟩]
                succs := [⟨⟨7⟩, false⟩, ⟨⟨4⟩, true⟩] })]
          regions := [.block ⟨7⟩]
          entry := ⟨7⟩ }),
      Walk.oneBlock 3 [Walk.callOf 1 ⟨4⟩],
      Walk.oneBlock 4 [Walk.callOf 2 ⟨3⟩, Walk.callOf 3 ⟨4⟩],
      Walk.oneBlock 5 [Walk.callOf 4 ⟨3⟩]]) }

/-- From the main function the circle is reached, and the search through it ends without the
function that is not called. -/
theorem isTentative_exact_calledInPeel : Yields calledInPeel.link fun p =>
    (p.isTentative { tentative := .ofList [⟨4⟩] } ⟨0⟩ = .ok true ∧
      ReflTransGen p.Invokes ⟨0⟩ ⟨4⟩) ∧
    p.isTentative { tentative := .ofList [⟨5⟩] } ⟨0⟩ = .ok false ∧
      ¬ ReflTransGen p.Invokes ⟨0⟩ ⟨5⟩ := by
  have hyields : Yields calledInPeel.link fun p => (p.contexts.get? ⟨0⟩).isSome = true ∧
      p.isTentative { tentative := .ofList [⟨4⟩] } ⟨0⟩ = .ok true ∧
      p.isTentative { tentative := .ofList [⟨5⟩] } ⟨0⟩ = .ok false := by
    decide +kernel
  obtain ⟨p, hlink, hmain, hcircle, hapart⟩ := hyields
  obtain ⟨c, hc⟩ := Option.isSome_iff_exists.1 hmain
  have hexact (g : ContextId) {answer : Bool}
      (h : p.isTentative { tentative := .ofList [g] } ⟨0⟩ = .ok answer) :
      answer = true ↔ ReflTransGen p.Invokes ⟨0⟩ g := by
    obtain ⟨found, hfound, hiff⟩ := isTentative_exact hlink hc { tentative := .ofList [g] }
    cases h.symm.trans hfound
    simpa using hiff
  refine ⟨p, hlink, ⟨hcircle, (hexact ⟨4⟩ hcircle).1 rfl⟩, hapart, fun hreached => ?_⟩
  exact Bool.false_ne_true ((hexact ⟨5⟩ hapart).2 hreached)

end Program

end ByteTrust
