import Mathlib.Logic.Relation
import ByteTrust.Interference.Checks
import ByteTrust.Proofs.Interference.Promotions
import ByteTrust.Proofs.Interference.Reported
import ByteTrust.Proofs.Interference.Tentative

/-!
# Check counts roll up

The checks of a program are counted from the root down. A context that is counted already is not
counted again, and one whose count is under way counts as zero, which would be wrong. As long as no
context below the root calls or iterates itself, the counts are right all the same
(`checkCounts_rollUp`): there is one for each context below the root, and the total of a context is
its own number with the totals of its children, each as often as it occurs.

The contexts under way that have no count yet are those from which the present one was reached
(`tally_spec`), so it is not among them, and a count is final when it is noted: the counts of all
children have been noted before. The search goes no deeper than there are contexts, so it does not
run out of fuel (`tally_eq_ok`).
-/

namespace ByteTrust

open Relation

namespace Program

variable {p : Program} {l : Layout} {k j : ContextId}

/-- The context `k` calls or iterates `j`. -/
def Child (p : Program) (k j : ContextId) : Prop := ∃ ks, p.children k = .ok ks ∧ j ∈ ks

/-- The context `j` is `k`, or a child of a child and so on. -/
abbrev Beneath (p : Program) : ContextId → ContextId → Prop := ReflTransGen p.Child

/-- No context below the root is below itself. -/
def Unwound (p : Program) : Prop := ∀ k, p.Beneath p.root k → ¬ TransGen p.Child k k

/-- A program is unwound if contexts call and iterate only such of a higher number. -/
theorem unwound_of_lt (h : ∀ k ∈ p.contexts.keys,
    Yields (p.children k) fun ks => ∀ j ∈ ks, k.number < j.number) : p.Unwound := by
  have hchild {k j : ContextId} : p.Child k j → k.number < j.number := by
    rintro ⟨ks, hks, hj⟩
    obtain ⟨c, hc, -⟩ := bind_eq_ok.1 hks
    obtain ⟨ks', hks', hall⟩ := h k (Table.mem_keys.2 ⟨c, context_eq_ok.1 hc⟩)
    cases hks.symm.trans hks'
    exact hall j hj
  have hbelow {k j : ContextId} (hkj : TransGen p.Child k j) : k.number < j.number := by
    induction hkj with
    | single hj => exact hchild hj
    | tail _ hj ih => exact ih.trans (hchild hj)
  exact fun k _ hk => Nat.lt_irrefl _ (hbelow hk)

theorem Grounded.anyTentative_eq_ok (h : p.Grounded) (f : Findings) {ks : List ContextId}
    (hks : p.Exist ks) : ∃ found, p.anyTentative f ks = .ok found := by
  induction ks with
  | nil => exact ⟨false, rfl⟩
  | cons k ks ih =>
    obtain ⟨⟨c, hc⟩, hks⟩ := List.forall_mem_cons.1 hks
    obtain ⟨found, hfound⟩ := h.isTentative_eq_ok hc f
    rw [anyTentative, hfound]
    cases found with
    | true => exact ⟨true, rfl⟩
    | false => exact ih hks

end Program

namespace Walk

variable {w : Setting} {f : Findings}

/-! ## The question is answered -/

section Answered

variable (h : w.program.Linked w.layout)

include h

theorem callNeedsCheck_eq_ok {site : CallSite}
    (hcallee : ∀ g, site.callee = some g → ∃ d, w.program.contexts.get? g = some d) :
    ∃ needed, callNeedsCheck w f site = .ok needed := by
  unfold callNeedsCheck
  split
  · exact ⟨false, rfl⟩
  · next g hg =>
    obtain ⟨d, hd⟩ := hcallee g hg
    obtain ⟨found, hfound⟩ := h.grounded.isTentative_eq_ok hd f
    rw [Program.context_eq_ok.2 hd, hfound]
    dsimp only [ok_bind]
    split
    · exact ⟨_, rfl⟩
    · split <;> exact ⟨_, rfl⟩

theorem hiddenPeel?_eq_ok (k : ContextId) (pred : BlockId) :
    ∃ peel, hiddenPeel? w k pred = .ok peel ∧
      ∀ attempt ∈ peel, w.program.Exist attempt.iterations := by
  have hnone : ∃ peel : Option PeelAttempt, (Except.ok none : Except Fault _) = .ok peel ∧
      ∀ attempt ∈ peel, w.program.Exist attempt.iterations := ⟨none, rfl, by simp⟩
  unfold hiddenPeel?
  split
  · exact hnone
  · next owner howner =>
    split
    · exact hnone
    obtain ⟨d, hd, -⟩ := h.owner_spec howner
    rw [Program.context_eq_ok.2 hd]
    dsimp only [ok_bind]
    split
    · exact hnone
    · next loop _ _ _ _ =>
      split
      · exact hnone
      · refine ⟨_, rfl, fun attempt hattempt j hj => ?_⟩
        exact h.iteration_exists (Option.mem_filter_iff.1 hattempt).1 hj

theorem phiNeedsCheck_eq_ok (k : ContextId) (value : ReadValue) (preds : List BlockId) :
    ∃ needed, phiNeedsCheck w f k value preds = .ok needed := by
  induction preds with
  | nil => exact ⟨false, rfl⟩
  | cons pred preds ih =>
    obtain ⟨peel, hpeel, hexist⟩ := hiddenPeel?_eq_ok h k pred
    rw [phiNeedsCheck, hpeel]
    cases peel with
    | none => exact ih
    | some attempt =>
      obtain ⟨found, hfound⟩ := h.grounded.anyTentative_eq_ok f (hexist attempt rfl)
      dsimp only [ok_bind]
      rw [hfound]
      cases found with
      | true => exact ⟨_, rfl⟩
      | false => exact ih

/-- Of every instruction of a linked program it is said whether it needs a check. -/
theorem needsCheck_eq_ok {inst : Instr} (hinst : inst ∈ w.program.instrs) (special : Bool) :
    ∃ needed, needsCheck w f inst.id special = .ok needed := by
  obtain ⟨place, hplace, hfound⟩ := h.instruction_found hinst
  have hanswer : ∃ needed, interferes w f inst.id place inst.op = .ok needed := by
    unfold interferes
    split
    · exact ⟨_, rfl⟩
    · exact ⟨_, rfl⟩
    · exact ⟨_, rfl⟩
    · next site hop =>
      refine callNeedsCheck_eq_ok h fun g hg => ?_
      obtain ⟨k, c, b, block, hc, hb, hmem⟩ := (Program.mem_instrs h.own).1 hinst
      refine h.grounded.callee hc hb hmem ?_
      rw [hop]
      exact hg
    · next value hop =>
      obtain ⟨block, hblock, -⟩ := bind_eq_ok.1 hfound
      rw [hblock]
      exact phiNeedsCheck_eq_ok h _ value _
    · exact ⟨_, rfl⟩
  simp only [needsCheck, hplace, hfound, ok_bind]
  split
  · exact ⟨false, rfl⟩
  split
  · exact ⟨false, rfl⟩
  cases inst.runtimeCheck with
  | asExpected => exact ⟨true, rfl⟩
  | fileRead | comparison =>
    cases special with
    | true => exact ⟨true, rfl⟩
    | false => exact hanswer
  | none => exact hanswer

end Answered

/-! ## The count of one context -/

/-- The instruction needs a check that was not asked for before. -/
def isCounted (w : Setting) (f : Findings) (inst : Instr) : Bool :=
  inst.runtimeCheck = .none &&
    match needsCheck w f inst.id false with
    | .ok needed => needed
    | .error _ => false

theorem isCounted_iff {inst : Instr} : isCounted w f inst = true ↔
    inst.runtimeCheck = .none ∧ needsCheck w f inst.id false = .ok true := by
  unfold isCounted
  cases needsCheck w f inst.id false <;> simp

theorem countHere_eq {insts : List Instr} {n : Nat} (h : countHere w f insts = .ok n) :
    n = insts.countP (isCounted w f) := by
  induction insts generalizing n with
  | nil =>
    cases h
    rfl
  | cons inst rest ih =>
    rw [countHere] at h
    split at h
    · next hnone =>
      obtain ⟨needed, hneeded, h⟩ := bind_eq_ok.1 h
      obtain ⟨m, hm, h⟩ := bind_eq_ok.1 h
      cases h
      have hinst : isCounted w f inst = needed := by
        rw [Bool.eq_iff_iff, isCounted_iff, hneeded]
        simp [hnone]
      rw [List.countP_cons, hinst, ← ih hm, Nat.add_comm]
    · next hsome =>
      obtain ⟨_, hfalse, h⟩ := bind_eq_ok.1 h
      cases hfalse
      obtain ⟨m, hm, h⟩ := bind_eq_ok.1 h
      cases h
      have hinst : ¬ isCounted w f inst = true := fun hcounted =>
        hsome (isCounted_iff.1 hcounted).1
      rw [List.countP_cons_of_neg hinst, ← ih hm]
      exact Nat.zero_add m

theorem countHere_eq_ok {insts : List Instr}
    (h : ∀ inst ∈ insts, ∃ needed, needsCheck w f inst.id false = .ok needed) :
    ∃ n, countHere w f insts = .ok n := by
  induction insts with
  | nil => exact ⟨0, rfl⟩
  | cons inst rest ih =>
    obtain ⟨hinst, hrest⟩ := List.forall_mem_cons.1 h
    rw [countHere]
    split
    · exact exists_bind hinst fun _ => exists_bind (ih hrest) fun _ => ⟨_, rfl⟩
    · exact exists_bind ⟨false, rfl⟩ fun _ => exists_bind (ih hrest) fun _ => ⟨_, rfl⟩

/-! ## The counts of all contexts -/

/-- The sum of a measure over a list of contexts, each as often as it occurs. -/
def sumOver (g : ContextId → Nat) : List ContextId → Nat
  | [] => 0
  | k :: ks => g k + sumOver g ks

theorem sumOver_congr {g g' : ContextId → Nat} {ks : List ContextId} (h : ∀ k ∈ ks, g k = g' k) :
    sumOver g ks = sumOver g' ks := by
  induction ks with
  | nil => rfl
  | cons k ks ih =>
    rw [List.forall_mem_cons] at h
    rw [sumOver, sumOver, h.1, ih h.2]

theorem sumOver_concat (g : ContextId → Nat) (ks : List ContextId) (k : ContextId) :
    sumOver g (ks ++ [k]) = sumOver g ks + g k := by
  induction ks with
  | nil => simp [sumOver]
  | cons j ks ih => rw [List.cons_append, sumOver, sumOver, ih, Nat.add_assoc]

/-- The total noted for a context, zero if there is none. -/
def totalIn (counts : IdentMap .context CheckCount) (k : ContextId) : Nat :=
  match counts.get? k with
  | some n => n.total
  | none => 0

theorem totalIn_eq {counts : IdentMap .context CheckCount} {k : ContextId} {n : CheckCount}
    (h : counts.get? k = some n) : totalIn counts k = n.total := by
  rw [totalIn, h]

/-- The context has a count. -/
def HasCount (counts : IdentMap .context CheckCount) (k : ContextId) : Prop :=
  ∃ n, counts.get? k = some n

/-- All counts are final: each gives the checks of its own context, and its total adds the totals
of the children, which are counted too. -/
structure Final (w : Setting) (f : Findings) (counts : IdentMap .context CheckCount) : Prop where
  here : ∀ k n, counts.get? k = some n → ∃ c, w.program.contexts.get? k = some c ∧
    n.here = (c.instructions.map fun i => i.2.2).countP (isCounted w f)
  total : ∀ k n, counts.get? k = some n → ∃ ks, w.program.children k = .ok ks ∧
    (∀ j ∈ ks, HasCount counts j) ∧ n.total = n.here + sumOver (totalIn counts) ks

/-- The counts of `counts` are those of `counts'`, which may have more. -/
def Grows (counts counts' : IdentMap .context CheckCount) : Prop :=
  ∀ k n, counts.get? k = some n → counts'.get? k = some n

variable {counts counts' counts'' : IdentMap .context CheckCount} {k : ContextId} {n : CheckCount}

theorem Grows.trans (h : Grows counts counts') (h' : Grows counts' counts'') :
    Grows counts counts'' := fun k n hk => h' k n (h k n hk)

theorem Grows.hasCount (h : Grows counts counts') (hk : HasCount counts k) : HasCount counts' k :=
  hk.imp (h k)

theorem Grows.sumOver (h : Grows counts counts') {ks : List ContextId}
    (hks : ∀ j ∈ ks, HasCount counts j) :
    sumOver (totalIn counts') ks = sumOver (totalIn counts) ks := by
  refine sumOver_congr fun j hj => ?_
  obtain ⟨m, hm⟩ := hks j hj
  rw [totalIn_eq hm, totalIn_eq (h j m hm)]

theorem grows_insert (hk : ¬ HasCount counts k) : Grows counts (counts.insert k n) := by
  intro j m hj
  have hne : j ≠ k := by
    rintro rfl
    exact hk ⟨m, hj⟩
  rw [IdentMap.get?_insert, if_neg hne, hj]

/-- A first count that is right leaves the counts final. -/
theorem Final.insert (h : Final w f counts) (hk : ¬ HasCount counts k) {c : Context}
    (hc : w.program.contexts.get? k = some c)
    (hhere : n.here = (c.instructions.map fun i => i.2.2).countP (isCounted w f))
    {ks : List ContextId} (hks : w.program.children k = .ok ks) (hall : ∀ j ∈ ks, HasCount counts j)
    (htotal : n.total = n.here + sumOver (totalIn counts) ks) : Final w f (counts.insert k n) := by
  have hgrows : Grows counts (counts.insert k n) := grows_insert hk
  refine ⟨fun j m hj => ?_, fun j m hj => ?_⟩ <;> rw [IdentMap.get?_insert] at hj
  · split at hj
    · next hkj =>
      cases hj
      exact ⟨c, hkj ▸ hc, hhere⟩
    · exact h.here j m hj
  · split at hj
    · next hkj =>
      cases hj
      refine ⟨ks, hkj ▸ hks, fun i hi => hgrows.hasCount (hall i hi), ?_⟩
      rw [hgrows.sumOver hall, htotal]
    · obtain ⟨js, hjs, hall, htotal⟩ := h.total j m hj
      refine ⟨js, hjs, fun i hi => hgrows.hasCount (hall i hi), ?_⟩
      rw [hgrows.sumOver hall, htotal]

/-- What counting a context with all below it does: `n` is the total that is now noted for it, the
counts are final still, each new one is of a context below, and the contexts that were taken up in
between all have a count. -/
structure Counted (w : Setting) (f : Findings) (t : Tally) (k : ContextId) (n : Nat) (t' : Tally) :
    Prop where
  grows : Grows t.counts t'.counts
  final : Final w f t'.counts
  self : ∃ m, t'.counts.get? k = some m ∧ m.total = n
  active : ∀ a, a ∈ t'.active → a ∈ t.active ∨ HasCount t'.counts a
  below : ∀ j, HasCount t'.counts j → HasCount t.counts j ∨ w.program.Beneath k j

/-- What holds while the children of a context are counted, those of `done` so far. -/
structure Counting (w : Setting) (f : Findings) (t : Tally) (k : ContextId) (here : Nat)
    (done : List ContextId) (acc : Nat × Tally) : Prop where
  grows : Grows t.counts acc.2.counts
  final : Final w f acc.2.counts
  counted : ∀ j ∈ done, HasCount acc.2.counts j
  sum : acc.1 = here + sumOver (totalIn acc.2.counts) done
  active : ∀ a, a ∈ acc.2.active →
    a ∈ t.active ∨ a = k ∨ HasCount acc.2.counts a
  below : ∀ j, HasCount acc.2.counts j → HasCount t.counts j ∨ TransGen w.program.Child k j

/-- Counting one more child. -/
theorem Counting.step {t t' : Tally} {here m : Nat} {done : List ContextId} {acc : Nat × Tally}
    {j : ContextId} (h : Counting w f t k here done acc) (hj : w.program.Child k j)
    (hcounted : Counted w f acc.2 j m t') :
    Counting w f t k here (done ++ [j]) (acc.1 + m, t') where
  grows := h.grows.trans hcounted.grows
  final := hcounted.final
  counted := by
    obtain ⟨e, he, -⟩ := hcounted.self
    intro i hi
    rw [List.mem_append, List.mem_singleton] at hi
    rcases hi with hi | rfl
    · exact hcounted.grows.hasCount (h.counted i hi)
    · exact ⟨e, he⟩
  sum := by
    obtain ⟨e, he, rfl⟩ := hcounted.self
    rw [sumOver_concat, hcounted.grows.sumOver h.counted, totalIn_eq he, h.sum, Nat.add_assoc]
  active a ha := by
    rcases hcounted.active a ha with ha | ha
    · exact (h.active a ha).imp_right (Or.imp_right hcounted.grows.hasCount)
    · exact .inr (.inr ha)
  below i hi := by
    rcases hcounted.below i hi with hi | hi
    · exact h.below i hi
    · exact .inr (.head' hj hi)

/-- When all children are counted, so is the context. -/
theorem Counting.finish {t : Tally} {here : Nat} {ks : List ContextId} {acc : Nat × Tally}
    (h : Counting w f t k here ks acc) (hloop : ¬ TransGen w.program.Child k k)
    (hk : ¬ HasCount t.counts k) {c : Context} (hc : w.program.contexts.get? k = some c)
    (hhere : here = (c.instructions.map fun i => i.2.2).countP (isCounted w f))
    (hks : w.program.children k = .ok ks) :
    Counted w f t k acc.1 { acc.2 with counts := acc.2.counts.insert k ⟨here, acc.1⟩ } := by
  have hnew : ¬ HasCount acc.2.counts k := fun hnoted => (h.below k hnoted).elim hk hloop
  have hgrows : Grows acc.2.counts (acc.2.counts.insert k ⟨here, acc.1⟩) := grows_insert hnew
  have hself : (acc.2.counts.insert k ⟨here, acc.1⟩).get? k = some ⟨here, acc.1⟩ := by
    rw [IdentMap.get?_insert, if_pos rfl]
  refine ⟨h.grows.trans hgrows, h.final.insert hnew hc hhere hks h.counted h.sum,
    ⟨_, hself, rfl⟩, fun a ha => ?_, fun j hj => ?_⟩
  · rcases h.active a ha with ha | rfl | ha
    · exact .inl ha
    · exact .inr ⟨_, hself⟩
    · exact .inr (hgrows.hasCount ha)
  · by_cases hjk : j = k
    · exact .inr (hjk ▸ .refl)
    · obtain ⟨m, hm⟩ := hj
      rw [IdentMap.get?_insert, if_neg hjk] at hm
      exact (h.below j ⟨m, hm⟩).imp_right TransGen.to_reflTransGen

/-- The count of a context below the root is right, if the contexts under way that have no count
yet are all above it. -/
theorem tally_spec (hloops : w.program.Unwound) {fuel : Nat} {t t' : Tally} {m : Nat}
    (hk : w.program.Beneath w.program.root k) (hfinal : Final w f t.counts)
    (hactive : ∀ a, a ∈ t.active →
      HasCount t.counts a ∨ TransGen w.program.Child a k)
    (htally : tally w f fuel t k = .ok (m, t')) : Counted w f t k m t' := by
  induction fuel generalizing t t' k m with
  | zero => cases htally
  | succ fuel ih =>
    rw [tally] at htally
    split at htally
    · next e he =>
      cases htally
      exact ⟨fun _ _ h => h, hfinal, ⟨e, he, rfl⟩, fun _ => .inl, fun _ => .inl⟩
    next hnone =>
    have hnew : ¬ HasCount t.counts k := by
      rintro ⟨e, he⟩
      rw [hnone] at he
      cases he
    split at htally
    · -- a context under way has a count or is above itself
      next hunder =>
      have hunder := hactive k (IdentSet.contains_iff.1 hunder)
      exact absurd hunder (not_or.2 ⟨hnew, hloops k hk⟩)
    obtain ⟨c, hc, htally⟩ := bind_eq_ok.1 htally
    obtain ⟨here, hhere, htally⟩ := bind_eq_ok.1 htally
    obtain ⟨ks, hks, htally⟩ := bind_eq_ok.1 htally
    obtain ⟨acc, hfold, htally⟩ := bind_eq_ok.1 htally
    cases htally
    have hall : Counting w f t k here ks acc := by
      refine foldlM_induction hfold (Counting w f t k here) ?_ ?_
      · exact ⟨fun _ _ h => h, hfinal, fun _ h => absurd h List.not_mem_nil, rfl,
          fun a ha => (IdentSet.mem_insert.1 ha).symm.imp_right .inl, fun _ => .inl⟩
      · intro done acc j acc' hj hstep hcounting
        obtain ⟨⟨m, t₂⟩, htally, hstep⟩ := bind_eq_ok.1 hstep
        cases hstep
        have hchild : w.program.Child k j := ⟨ks, hks, hj⟩
        refine hcounting.step hchild (ih (hk.tail hchild) hcounting.final ?_ htally)
        intro a ha
        rcases hcounting.active a ha with ha | rfl | ha
        · exact (hactive a ha).imp hcounting.grows.hasCount (·.tail hchild)
        · exact .inr (.single hchild)
        · exact .inl ha
    exact hall.finish (hloops k hk) hnew (Program.context_eq_ok.1 hc) (countHere_eq hhere) hks

/-- A context below the root is counted, if its question is answered and the search came to it
along different contexts. -/
theorem tally_eq_ok (hground : w.program.Grounded) (hloops : w.program.Unwound)
    (hhere : ∀ k c, w.program.contexts.get? k = some c →
      ∃ n, countHere w f (c.instructions.map fun i => i.2.2) = .ok n)
    {fuel : Nat} {t : Tally} {path : List ContextId} (hnodup : path.Nodup)
    (habove : ∀ a ∈ path, TransGen w.program.Child a k)
    (hk : w.program.Beneath w.program.root k) (hexists : ∃ c, w.program.contexts.get? k = some c)
    (hfuel : w.program.climbBound ≤ fuel + path.length) :
    ∃ r, tally w f fuel t k = .ok r := by
  induction fuel generalizing t path k with
  | zero =>
    have hle : path.length ≤ w.program.contexts.size := by
      refine Table.length_le_size hnodup fun a ha => ?_
      obtain ⟨j, ⟨ks, hks, -⟩, -⟩ := TransGen.head'_iff.1 (habove a ha)
      obtain ⟨c, hc, -⟩ := bind_eq_ok.1 hks
      exact ⟨c, Program.context_eq_ok.1 hc⟩
    rw [Program.climbBound] at hfuel
    omega
  | succ fuel ih =>
    obtain ⟨c, hc⟩ := hexists
    obtain ⟨here, hhere⟩ := hhere k c hc
    obtain ⟨ks, hks, hexist⟩ := hground.children_eq_ok hc
    rw [tally]
    split
    · exact ⟨_, rfl⟩
    split
    · exact ⟨_, rfl⟩
    rw [Program.context_eq_ok.2 hc, ok_bind, hhere, ok_bind, hks, ok_bind]
    refine exists_bind (exists_foldlM (fun acc j hj => exists_bind ?_ fun r => ⟨_, rfl⟩) _)
      fun acc => ⟨_, rfl⟩
    have hchild : w.program.Child k j := ⟨ks, hks, hj⟩
    have hfresh : k ∉ path := fun hmem => hloops k hk (habove k hmem)
    refine ih (List.nodup_cons.2 ⟨hfresh, hnodup⟩) ?_ (hk.tail hchild) (hexist j hj) ?_
    · exact List.forall_mem_cons.2 ⟨.single hchild, fun a ha => (habove a ha).tail hchild⟩
    · rw [List.length_cons]
      omega

/-- Counts that are returned are final, and there is one for each context below the root. -/
theorem checkCounts_spec (hloops : w.program.Unwound) (h : checkCounts w f = .ok counts) :
    (∀ k, HasCount counts k ↔ w.program.Beneath w.program.root k) ∧ Final w f counts := by
  obtain ⟨⟨total, t⟩, htally, h⟩ := bind_eq_ok.1 h
  cases h
  have hempty (k : ContextId) : ¬ HasCount ({} : Tally).counts k := by
    rintro ⟨n, hn⟩
    cases hn
  have hcounted : Counted w f {} w.program.root total t := by
    refine tally_spec hloops .refl ⟨fun k n hk => ?_, fun k n hk => ?_⟩ (fun a ha => ?_) htally
    · exact absurd ⟨n, hk⟩ (hempty k)
    · exact absurd ⟨n, hk⟩ (hempty k)
    · cases ha
  refine ⟨fun k => ⟨fun hk => ?_, fun hk => ?_⟩, hcounted.final⟩
  · exact (hcounted.below k hk).resolve_left (hempty k)
  · induction hk with
    | refl =>
      obtain ⟨n, hn, -⟩ := hcounted.self
      exact ⟨n, hn⟩
    | tail _ hchild ih =>
      obtain ⟨n, hn⟩ := ih
      obtain ⟨ks, hks, hmem⟩ := hchild
      obtain ⟨ks', hks', hall, -⟩ := hcounted.final.total _ n hn
      cases hks.symm.trans hks'
      exact hall _ hmem

/-- The counts are returned. -/
theorem checkCounts_eq_ok (h : w.program.Linked w.layout) (hloops : w.program.Unwound) :
    ∃ counts, checkCounts w f = .ok counts := by
  have hhere (k : ContextId) (c : Context) (hc : w.program.contexts.get? k = some c) :
      ∃ n, countHere w f (c.instructions.map fun i => i.2.2) = .ok n := by
    refine countHere_eq_ok fun inst hinst => needsCheck_eq_ok h ?_ false
    exact ((Program.mem_map_instructions (Program.context_eq_ok.2 hc)).1 hinst).mem_instrs
  obtain ⟨c, hc, -⟩ := h.root
  exact exists_bind (tally_eq_ok h.grounded hloops hhere List.nodup_nil
    (fun _ ha => absurd ha List.not_mem_nil) .refl ⟨c, hc⟩ (Nat.le_add_right _ _)) fun _ => ⟨_, rfl⟩

/-- If no context below the root is below itself, the checks roll up: a linked program whose
contexts are stored under their own names has its checks counted, and whenever counts are returned,
there is one for each context below the root, which gives the number of its own instructions that
need a check not asked for before, and with it the totals of all its children, each as often as it
is called or iterated. -/
theorem checkCounts_rollUp {p : Program} (hlink : p.link = .ok w.program)
    (hlayout : Layout.ofProgram w.program = .ok w.layout) (hloops : w.program.Unwound)
    (f : Findings) :
    (w.program.OwnNames → ∃ counts, checkCounts w f = .ok counts) ∧
      ∀ counts, checkCounts w f = .ok counts →
        (∀ k, HasCount counts k ↔ w.program.Beneath w.program.root k) ∧ Final w f counts :=
  ⟨fun hown => checkCounts_eq_ok (Program.linked_of_link hlink hlayout hown) hloops,
    fun _ hcounts => checkCounts_spec hloops hcounts⟩

/-- The main function calls two functions, of which the first calls the second twice. Both load
after a fence. -/
def sharedCallee : Program :=
  { straight [] with
    contexts := .ofList
      [oneBlock 0 [callOf 0 ⟨1⟩, callOf 1 ⟨2⟩],
        oneBlock 1 [fenceAt 2, loadAll 3 (.known (.scalar 5)), callOf 4 ⟨2⟩, callOf 5 ⟨2⟩],
        oneBlock 2 [fenceAt 6, loadAll 7 (.known (.scalar 5))]] }

/-- The check in the second function counts twice for the first and three times for the main
function. -/
theorem checkCounts_rollUp_shared :
    let w := linkedSetting sharedCallee
    Yields (run w (.trusting 0) { clock := 1 }) fun r =>
      Yields (checkCounts w r.2.findings) fun counts =>
        (∀ k, HasCount counts k ↔ w.program.Beneath w.program.root k) ∧
          Final w r.2.findings counts ∧
          counts.get? ⟨0⟩ = some ⟨0, 4⟩ ∧ counts.get? ⟨1⟩ = some ⟨1, 3⟩ ∧
          counts.get? ⟨2⟩ = some ⟨1, 1⟩ := by
  intro w
  obtain ⟨hlink, hlayout⟩ := linkedSetting_spec (p := sharedCallee) (by decide +kernel)
  have hown : w.program.OwnNames := Program.ownNames_iff.2 (by decide +kernel)
  have hloops : w.program.Unwound := Program.unwound_of_lt (by decide +kernel)
  have hyields : Yields (run w (.trusting 0) { clock := 1 }) fun r =>
      Yields (checkCounts w r.2.findings) fun counts => counts.get? ⟨0⟩ = some ⟨0, 4⟩ ∧
        counts.get? ⟨1⟩ = some ⟨1, 3⟩ ∧ counts.get? ⟨2⟩ = some ⟨1, 1⟩ :=
    yields_run 4 (by decide +kernel)
  obtain ⟨r, hrun, counts, hget, hgets⟩ := hyields
  obtain ⟨hreturned, hright⟩ := checkCounts_rollUp hlink hlayout hloops r.2.findings
  obtain ⟨counts', hcounts⟩ := hreturned hown
  cases hget.symm.trans hcounts
  obtain ⟨hkeys, hfinal⟩ := hright counts hcounts
  exact ⟨r, hrun, counts, hcounts, hkeys, hfinal, hgets⟩

/-- The main function calls a function that is stored under its number and bears the name of the
main function. -/
def misnamedCallee : Program :=
  { straight [] with
    contexts := .ofList
      [oneBlock 0 [fenceAt 0, callOf 1 ⟨1⟩],
        (⟨1⟩,
          { id := ⟨0⟩
            kind := .function ⟨1⟩ "f" []
            blocks := .ofList
              [(⟨1⟩,
                { id := ⟨1⟩, insts := [loadAll 2 (.known (.scalar 1))], terminator := .ret })]
            regions := [.block ⟨1⟩]
            entry := ⟨1⟩ })] }

/-- Where a context is stored under another name than its own, a linked program may have its checks
not counted: its instructions are looked up in the context of that name. -/
theorem counts_refused_of_misnamed :
    let w := linkedSetting misnamedCallee
    (misnamedCallee.link = .ok w.program ∧ Layout.ofProgram w.program = .ok w.layout ∧
      w.program.Unwound) ∧ w.program.children ⟨0⟩ = .ok [⟨1⟩] ∧
    Yields (run w (.trusting 0) { clock := 1 }) fun r =>
      checkCounts w r.2.findings = .error (.unknownBlock ⟨0⟩ ⟨1⟩) := by
  intro w
  obtain ⟨hlink, hlayout⟩ := linkedSetting_spec (p := misnamedCallee) (by decide +kernel)
  exact ⟨⟨hlink, hlayout, Program.unwound_of_lt (by decide +kernel)⟩, by decide +kernel,
    yields_run 4 (by decide +kernel)⟩

end Walk

end ByteTrust
