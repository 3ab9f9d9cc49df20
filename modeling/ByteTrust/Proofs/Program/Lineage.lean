import Mathlib.Logic.Relation
import ByteTrust.Proofs.Program.Filed

/-!
# Chains of parents

The layout of a program climbs from each context through its parents, and a climb that has taken
more steps than there are contexts is given up. `ofProgram_follows_parents` says that this is right.
A chain of parents that does not go round in a circle has no more contexts than the program
(`Lineage.length_le`), so the climb comes to the end of it, which is at the top or at a name that
the program does not have. A layout that is drawn up has followed all chains to the top, and the
climb to the owner of an edge, which goes along the same chains, ends without a bound of its own
(`climbs_of_ofProgram`).

A chain that ends is written out as the list of its contexts (`Lineage`), and what the climbs find
is read off this list. Putting the contexts in order ends too (`OwnNames.visitOrder_ends`), whether
or not they enter each other in circles: each visit inside another one has put one more name on the
roll of those visited.
-/

namespace ByteTrust

open Relation

/-- The context is not an iteration with a parent: the climb to the function ends here. -/
def Context.isOutermost (c : Context) : Bool := c.isFunction || c.parent.isNone

/-- The context is a function with a parent. -/
def Context.isCalled (c : Context) : Bool := c.isFunction && c.parent.isSome

theorem Context.enclosing?_of_isOutermost {c : Context} (h : c.isOutermost = true) :
    c.enclosing? = none := by
  cases hkind : c.kind <;> simp_all [isOutermost, isFunction, enclosing?]

theorem Context.enclosing?_of_not_isOutermost {c : Context} (h : ¬ c.isOutermost = true) :
    c.enclosing? = c.parent := by
  cases hkind : c.kind <;> simp_all [isOutermost, isFunction, enclosing?]

namespace Program

variable {p : Program} {k o : ContextId} {c : Context} {cs : List Context} {stop : Option ContextId}

/-! ## Chains -/

/-- The context `o` is the parent of `k`. -/
def Parent (p : Program) (k o : ContextId) : Prop :=
  ∃ c, p.contexts.get? k = some c ∧ c.parent = some o

/-- The context `o` is on the chain of parents of `k`, which starts with `k`. -/
abbrev Descends (p : Program) : ContextId → ContextId → Prop := ReflTransGen p.Parent

/-- The chain of parents of `k` goes round in a circle. -/
def Circular (p : Program) (k : ContextId) : Prop := ∃ o, p.Descends k o ∧ TransGen p.Parent o o

/-- The chain of parents of `k` leaves the program. -/
def Strays (p : Program) (k : ContextId) : Prop := ∃ o, p.Descends k o ∧ p.contexts.get? o = none

/-- The chain of parents of `k` ends after the contexts `cs`: at the last of them, which has no
parent, or where it leaves the program, at the name `stop`. -/
inductive Lineage (p : Program) : ContextId → List Context → Option ContextId → Prop
  | missing {k : ContextId} (hk : p.contexts.get? k = none) : Lineage p k [] (some k)
  | top {k : ContextId} {c : Context} (hc : p.contexts.get? k = some c) (htop : c.parent = none) :
    Lineage p k [c] none
  | step {k o : ContextId} {c : Context} {cs : List Context} {stop : Option ContextId}
    (hc : p.contexts.get? k = some c) (hparent : c.parent = some o) (h : Lineage p o cs stop) :
    Lineage p k (c :: cs) stop

theorem Lineage.unique {cs' : List Context} {stop' : Option ContextId} (h : p.Lineage k cs stop)
    (h' : p.Lineage k cs' stop') : cs = cs' ∧ stop = stop' := by
  induction h generalizing cs' with
  | missing hk =>
    cases h' with
    | missing => exact ⟨rfl, rfl⟩
    | top hc' | step hc' => cases hk.symm.trans hc'
  | top hc htop =>
    cases h' with
    | missing hk' => cases hk'.symm.trans hc
    | top hc' =>
      cases hc.symm.trans hc'
      exact ⟨rfl, rfl⟩
    | step hc' hparent' =>
      cases hc.symm.trans hc'
      cases htop.symm.trans hparent'
  | step hc hparent _ ih =>
    cases h' with
    | missing hk' => cases hk'.symm.trans hc
    | top hc' htop' =>
      cases hc.symm.trans hc'
      cases htop'.symm.trans hparent
    | step hc' hparent' h' =>
      cases hc.symm.trans hc'
      cases hparent.symm.trans hparent'
      obtain ⟨rfl, rfl⟩ := ih h'
      exact ⟨rfl, rfl⟩

/-- The chain of the parent is the rest of the chain. -/
theorem Lineage.parent (h : p.Lineage k cs stop) (ho : p.Parent k o) :
    ∃ c cs', cs = c :: cs' ∧ p.Lineage o cs' stop := by
  obtain ⟨d, hd, hparent⟩ := ho
  cases h with
  | missing hk => cases hk.symm.trans hd
  | top hc htop =>
    cases hc.symm.trans hd
    cases htop.symm.trans hparent
  | step hc hparent' h =>
    cases hc.symm.trans hd
    cases hparent.symm.trans hparent'
    exact ⟨_, _, rfl, h⟩

theorem Lineage.of_descends (h : p.Lineage k cs stop) (ho : p.Descends k o) :
    ∃ cs', p.Lineage o cs' stop := by
  induction ho with
  | refl => exact ⟨cs, h⟩
  | tail _ hparent ih =>
    obtain ⟨cs', h'⟩ := ih
    obtain ⟨-, rest, -, hrest⟩ := h'.parent hparent
    exact ⟨rest, hrest⟩

/-- The chains of contexts above are shorter. -/
theorem Lineage.shorter (h : p.Lineage k cs stop) (ho : TransGen p.Parent k o) :
    ∃ cs', p.Lineage o cs' stop ∧ cs'.length < cs.length := by
  induction ho with
  | single hparent =>
    obtain ⟨c, rest, rfl, hrest⟩ := h.parent hparent
    exact ⟨rest, hrest, Nat.lt_succ_self _⟩
  | tail _ hparent ih =>
    obtain ⟨cs', h', hlt⟩ := ih
    obtain ⟨c, rest, rfl, hrest⟩ := h'.parent hparent
    exact ⟨rest, hrest, Nat.lt_of_succ_lt hlt⟩

theorem Lineage.not_circle (h : p.Lineage k cs stop) : ¬ TransGen p.Parent k k := by
  intro hcircle
  obtain ⟨cs', h', hlt⟩ := h.shorter hcircle
  obtain ⟨rfl, -⟩ := h.unique h'
  exact Nat.lt_irrefl _ hlt

/-- A chain that ends does not go round in a circle. -/
theorem Lineage.not_circular (h : p.Lineage k cs stop) : ¬ p.Circular k := by
  rintro ⟨o, ho, hcircle⟩
  obtain ⟨cs', h'⟩ := h.of_descends ho
  exact h'.not_circle hcircle

/-- A chain that ends at the top stays in the program. -/
theorem Lineage.not_strays (h : p.Lineage k cs none) : ¬ p.Strays k := by
  rintro ⟨o, ho, hmissing⟩
  obtain ⟨cs', h'⟩ := h.of_descends ho
  cases h' with
  | top hc | step hc => cases hmissing.symm.trans hc

/-- A chain that leaves the program ends at a name that the program does not have. -/
theorem Lineage.missing_of_stop (h : p.Lineage k cs (some o)) :
    p.Descends k o ∧ p.contexts.get? o = none := by
  generalize hstop : some o = stop at h
  induction h with
  | missing hk =>
    cases hstop
    exact ⟨.refl, hk⟩
  | top => cases hstop
  | step hc hparent _ ih =>
    obtain ⟨hdescends, hmissing⟩ := ih hstop
    exact ⟨.head ⟨_, hc, hparent⟩ hdescends, hmissing⟩

/-- The top of a chain is not called. -/
theorem Lineage.countP_isCalled_lt (h : p.Lineage k cs none) :
    cs.countP Context.isCalled < cs.length := by
  generalize hstop : (none : Option ContextId) = stop at h
  induction h with
  | missing => cases hstop
  | top _ htop => simp [Context.isCalled, htop]
  | @step _ _ c cs _ _ _ _ ih =>
    have hrest := ih hstop
    rw [List.countP_cons, List.length_cons]
    split <;> omega

/-! ## The length of a chain -/

section Length

variable (hown : p.OwnNames)

include hown

theorem Lineage.descends_of_mem (h : p.Lineage k cs stop) (hmem : c ∈ cs) :
    p.Descends k c.id ∧ p.contexts.get? c.id = some c := by
  induction h with
  | missing => cases hmem
  | top hc =>
    cases List.mem_singleton.1 hmem
    exact ⟨hown _ _ hc ▸ .refl, (hown _ _ hc).symm ▸ hc⟩
  | step hc hparent _ ih =>
    rcases List.mem_cons.1 hmem with rfl | hmem
    · exact ⟨hown _ _ hc ▸ .refl, (hown _ _ hc).symm ▸ hc⟩
    · exact ⟨.head ⟨_, hc, hparent⟩ (ih hmem).1, (ih hmem).2⟩

theorem Lineage.nodup (h : p.Lineage k cs stop) : (cs.map Context.id).Nodup := by
  induction h with
  | missing => exact List.nodup_nil
  | top => exact List.nodup_singleton _
  | step hc hparent h ih =>
    refine List.nodup_cons.2 ⟨fun hmem => ?_, ih⟩
    -- a context that comes again is above itself
    obtain ⟨d, hd, hid⟩ := List.mem_map.1 hmem
    have hback := (h.descends_of_mem hown hd).1
    rw [hid, hown _ _ hc] at hback
    exact (Lineage.step hc hparent h).not_circle (.head' ⟨_, hc, hparent⟩ hback)

/-- A chain that ends has no more contexts than the program. -/
theorem Lineage.length_le (h : p.Lineage k cs stop) : cs.length ≤ p.contexts.size := by
  rw [← List.length_map (f := Context.id)]
  refine Table.length_le_size (h.nodup hown) fun i hi => ?_
  obtain ⟨c, hc, rfl⟩ := List.mem_map.1 hi
  exact ⟨c, (h.descends_of_mem hown hc).2⟩

end Length

/-- After the different contexts of `path` a climb has come to `k`, and may take `n` more steps. -/
theorem lineage_of_path {n : Nat} {path : List ContextId} (hk : ¬ p.Circular k)
    (hnodup : path.Nodup) (habove : ∀ a ∈ path, TransGen p.Parent a k)
    (hn : p.climbBound ≤ n + path.length) : ∃ cs stop, p.Lineage k cs stop := by
  induction n generalizing k path with
  | zero =>
    have hle : path.length ≤ p.contexts.size := by
      refine Table.length_le_size hnodup fun a ha => ?_
      obtain ⟨o, ⟨c, hc, -⟩, -⟩ := TransGen.head'_iff.1 (habove a ha)
      exact ⟨c, hc⟩
    rw [climbBound] at hn
    omega
  | succ n ih =>
    cases hc : p.contexts.get? k with
    | none => exact ⟨_, _, .missing hc⟩
    | some c =>
      cases hparent : c.parent with
      | none => exact ⟨_, _, .top hc hparent⟩
      | some o =>
        have hstep : p.Parent k o := ⟨c, hc, hparent⟩
        have ho : ¬ p.Circular o := by
          rintro ⟨i, hi, hcircle⟩
          exact hk ⟨i, .head hstep hi, hcircle⟩
        have hfresh : k ∉ path := fun hmem => hk ⟨k, .refl, habove k hmem⟩
        have hnodup' : (k :: path).Nodup := List.nodup_cons.2 ⟨hfresh, hnodup⟩
        have habove' : ∀ a ∈ k :: path, TransGen p.Parent a o :=
          List.forall_mem_cons.2 ⟨.single hstep, fun a ha => (habove a ha).tail hstep⟩
        obtain ⟨cs, stop, h⟩ := ih ho hnodup' habove' (by rw [List.length_cons]; omega)
        exact ⟨_, _, .step hc hparent h⟩

/-- A chain that does not go round in a circle ends. -/
theorem lineage_of_not_circular (hk : ¬ p.Circular k) : ∃ cs stop, p.Lineage k cs stop :=
  lineage_of_path hk List.nodup_nil (fun _ ha => absurd ha List.not_mem_nil)
    (Nat.le_add_right _ _)

/-! ## What the climbs find -/

variable {n : Nat}

/-- The climb to the top counts the called functions of a chain, unless the chain leaves the
program. -/
theorem Lineage.callDepthFrom_eq (h : p.Lineage k cs stop) (hn : cs.length < n) (depth : Nat) :
    p.callDepthFrom n k depth = stop.elim (.ok (depth + cs.countP Context.isCalled))
      fun o => .error (.unknownContext o) := by
  induction n generalizing k cs depth with
  | zero => exact absurd hn (Nat.not_lt_zero _)
  | succ n ih =>
    rw [callDepthFrom]
    cases h with
    | missing hk =>
      rw [context, hk]
      rfl
    | top hc htop =>
      rw [context_eq_ok.2 hc, ok_bind]
      simp [htop, Context.isCalled]
    | @step _ o c cs _ hc hparent h =>
      have hcalled : c.isCalled = c.isFunction := by simp [Context.isCalled, hparent]
      rw [context_eq_ok.2 hc, ok_bind]
      simp only [hparent]
      rw [ih h (Nat.lt_of_succ_lt_succ hn), List.countP_cons, hcalled]
      congr 2
      split <;> omega

/-- The climb to the function ends at the first context of a chain that is not an iteration with a
parent, or where the chain leaves the program. -/
theorem Lineage.functionRootFrom_eq (hown : p.OwnNames) (h : p.Lineage k cs stop)
    (hn : cs.length < n) :
    (∃ c, cs.find? Context.isOutermost = some c ∧ p.functionRootFrom n k = .ok c.id) ∨
      ∃ o, stop = some o ∧ p.functionRootFrom n k = .error (.unknownContext o) := by
  have hself {k : ContextId} {c : Context} {cs : List Context} (n : Nat)
      (hc : p.contexts.get? k = some c) (houter : c.isOutermost = true) :
      ∃ d, (c :: cs).find? Context.isOutermost = some d ∧
        p.functionRootFrom (n + 1) k = .ok d.id := by
    refine ⟨c, List.find?_cons_of_pos houter, ?_⟩
    rw [hown k c hc, functionRootFrom_self hc (Context.enclosing?_of_isOutermost houter)]
  induction n generalizing k cs with
  | zero => exact absurd hn (Nat.not_lt_zero _)
  | succ n ih =>
    cases h with
    | missing hk =>
      refine .inr ⟨_, rfl, ?_⟩
      rw [functionRootFrom, context, hk]
      rfl
    | top hc htop => exact .inl (hself n hc (by simp [Context.isOutermost, htop]))
    | @step _ o c cs _ hc hparent h =>
      by_cases houter : c.isOutermost = true
      · exact .inl (hself n hc houter)
      · have henc : c.enclosing? = some o := by
          rw [Context.enclosing?_of_not_isOutermost houter, hparent]
        rw [List.find?_cons_of_neg houter, functionRootFrom, context_eq_ok.2 hc, ok_bind]
        simp only [henc]
        exact ih h (Nat.lt_of_succ_lt_succ hn)

/-- A climb that comes to the top has followed the whole chain. -/
theorem lineage_of_callDepthFrom {depth d : Nat} (h : p.callDepthFrom n k depth = .ok d) :
    ∃ cs, p.Lineage k cs none := by
  induction n generalizing k depth with
  | zero => cases h
  | succ n ih =>
    rw [callDepthFrom, bind_eq_ok] at h
    obtain ⟨c, hc, h⟩ := h
    rw [context_eq_ok] at hc
    cases hparent : c.parent with
    | none => exact ⟨_, .top hc hparent⟩
    | some o =>
      simp only [hparent] at h
      obtain ⟨cs, hcs⟩ := ih h
      exact ⟨_, .step hc hparent hcs⟩

/-- The fault names a context on the chain of `k` that the program does not have. -/
def Missing (p : Program) (k : ContextId) (f : Fault) : Prop :=
  ∃ o, f = .unknownContext o ∧ p.Descends k o ∧ p.contexts.get? o = none

/-- On a chain that does not go round in a circle no climb is given up: one that fails has come to
a context that is missing. -/
theorem OwnNames.climbs_end (hown : p.OwnNames) (hk : ¬ p.Circular k) :
    Raises (p.Missing k) (p.functionRootFrom p.climbBound k) ∧
      Raises (p.Missing k) (p.callDepthFrom p.climbBound k 0) := by
  obtain ⟨cs, stop, h⟩ := lineage_of_not_circular hk
  have hlt : cs.length < p.climbBound := Nat.lt_succ_of_le (h.length_le hown)
  have hmissing (o : ContextId) (ho : stop = some o) : p.Missing k (.unknownContext o) := by
    subst ho
    exact ⟨o, rfl, h.missing_of_stop⟩
  constructor
  · rcases h.functionRootFrom_eq hown hlt with ⟨c, -, hroot⟩ | ⟨o, ho, hroot⟩
    · rw [hroot]
      exact raises_ok _
    · rw [hroot]
      exact raises_error (hmissing o ho)
  · rw [h.callDepthFrom_eq hlt]
    cases hstop : stop with
    | none => exact raises_ok _
    | some o => exact raises_error (hmissing o hstop)

/-! ## The order of contexts -/

/-- The names of different contexts of the program. -/
structure Roll (p : Program) (visited : List ContextId) : Prop where
  nodup : visited.Nodup
  exist : ∀ k ∈ visited, ∃ c, p.contexts.get? k = some c

variable {visited visited' : List ContextId}

theorem roll_nil : p.Roll [] := ⟨List.nodup_nil, by simp⟩

theorem Roll.cons (h : p.Roll visited) (hc : p.contexts.get? k = some c)
    (hk : ¬ visited.contains k = true) : p.Roll (k :: visited) where
  nodup := List.nodup_cons.2 ⟨fun hmem => hk (List.contains_iff_mem.2 hmem), h.nodup⟩
  exist := List.forall_mem_cons.2 ⟨⟨c, hc⟩, h.exist⟩

theorem Roll.length_le (h : p.Roll visited) : visited.length ≤ p.contexts.size :=
  Table.length_le_size h.nodup h.exist

/-- The computation does not go on without end, and what it yields is a roll. -/
structure Enrolls (p : Program) (x : Except Fault (List ContextId)) : Prop where
  ends : Raises (· ≠ .endless) x
  roll : ∀ visited, x = .ok visited → p.Roll visited

theorem enrolls_ok (h : p.Roll visited) : p.Enrolls (.ok visited) :=
  ⟨raises_ok _, fun _ hok => Except.ok.inj hok ▸ h⟩

theorem Enrolls.bind {β : Type} {x : Except Fault (List ContextId)}
    {g : List ContextId → Except Fault β} (hx : p.Enrolls x)
    (hg : ∀ visited, p.Roll visited → Raises (· ≠ .endless) (g visited)) :
    Raises (· ≠ .endless) (x >>= g) :=
  hx.ends.bind fun visited hvisited => hg visited (hx.roll visited hvisited)

theorem enrolls_foldlM {γ : Type} {xs : List γ}
    {step : List ContextId → γ → Except Fault (List ContextId)}
    (h : ∀ visited, ∀ x ∈ xs, p.Roll visited → p.Enrolls (step visited x))
    (hroll : p.Roll visited) : p.Enrolls (xs.foldlM step visited) where
  ends := raises_foldlM_of (fun visited x hx hroll => (h visited x hx hroll).ends)
    (fun visited x hx visited' hroll => (h visited x hx hroll).roll visited') hroll
  roll _ hfold := foldlM_induction hfold (fun _ visited => p.Roll visited) hroll
    fun _ visited x visited' hx hstep hroll => (h visited x hx hroll).roll visited' hstep

namespace OwnNames

variable (hown : p.OwnNames)

include hown

/-- A visit of a child that is looked up. -/
theorem visit_child {child : Except Fault ContextId}
    (h : (child >>= fun k => p.context k >>= p.visit n visited) = .ok visited') :
    ∃ d, p.contexts.get? d.id = some d ∧ p.visit n visited d = .ok visited' := by
  obtain ⟨k, -, h⟩ := bind_eq_ok.1 h
  obtain ⟨d, hd, h⟩ := bind_eq_ok.1 h
  rw [context_eq_ok] at hd
  exact ⟨d, (hown k d hd).symm ▸ hd, h⟩

theorem visit_roll (hc : p.contexts.get? c.id = some c) (hroll : p.Roll visited)
    (h : p.visit n visited c = .ok visited') :
    p.Roll visited' ∧ visited.length ≤ visited'.length := by
  induction n generalizing visited visited' c with
  | zero => cases h
  | succ n ih =>
    rw [visit] at h
    split at h
    · cases h
      exact ⟨hroll, Nat.le_refl _⟩
    · next hnew =>
      have hall : p.Roll visited' ∧ (c.id :: visited).length ≤ visited'.length := by
        refine foldlM_induction h
          (fun _ seen => p.Roll seen ∧ (c.id :: visited).length ≤ seen.length)
          ⟨hroll.cons hc hnew, Nat.le_refl _⟩ ?_
        rintro done seen child seen' - hstep ⟨hseen, hle⟩
        obtain ⟨d, hd, hstep⟩ := hown.visit_child hstep
        obtain ⟨hseen', hle'⟩ := ih hd hseen hstep
        exact ⟨hseen', hle.trans hle'⟩
      exact ⟨hall.1, Nat.le_of_succ_le hall.2⟩

/-- Visits enter each other no deeper than there are contexts: each of them has put another name on
the roll. -/
theorem visit_ends (hc : p.contexts.get? c.id = some c) (hroll : p.Roll visited)
    (hn : p.climbBound ≤ n + visited.length) : Raises (· ≠ .endless) (p.visit n visited c) := by
  induction n generalizing visited c with
  | zero =>
    have hle := hroll.length_le
    rw [climbBound] at hn
    omega
  | succ n ih =>
    rw [visit]
    split
    · exact raises_ok _
    · next hnew =>
      refine raises_foldlM_of (I := fun seen => p.Roll seen ∧ visited.length < seen.length)
        ?_ ?_ ⟨hroll.cons hc hnew, Nat.lt_succ_self _⟩
      · rintro seen child hchild ⟨hseen, hlt⟩
        have hblock (b : BlockId) : Raises (· ≠ .endless) (c.block b) :=
          raises_block_of fun _ => by simp
        refine (raises_enteredAll hblock c.regions child hchild).bind fun k _ => ?_
        refine (raises_context (by simp) k).bind fun d hd => ih ?_ hseen (by omega)
        rw [context_eq_ok] at hd
        rwa [hown k d hd]
      · rintro seen child - seen' ⟨hseen, hlt⟩ hstep
        obtain ⟨d, hd, hstep⟩ := hown.visit_child hstep
        obtain ⟨hseen', hle⟩ := hown.visit_roll hd hseen hstep
        exact ⟨hseen', hlt.trans_le hle⟩

theorem enrolls_visit (hc : p.contexts.get? c.id = some c) (hroll : p.Roll visited) :
    p.Enrolls (p.visit p.climbBound visited c) :=
  ⟨hown.visit_ends hc hroll (Nat.le_add_right _ _), fun _ h => (hown.visit_roll hc hroll h).1⟩

theorem enrolls_context (hroll : p.Roll visited) (k : ContextId) :
    p.Enrolls (p.context k >>= p.visit p.climbBound visited) := by
  cases hk : p.context k with
  | error fault =>
    have hends : fault ≠ .endless := raises_context (P := (· ≠ .endless)) (by simp) k fault hk
    exact ⟨raises_error hends, by rintro _ ⟨⟩⟩
  | ok d =>
    rw [context_eq_ok] at hk
    exact hown.enrolls_visit ((hown k d hk).symm ▸ hk) hroll

/-- The contexts are put in order, or a name is not found. -/
theorem visitOrder_ends : Raises (· ≠ .endless) p.visitOrder := by
  rw [visitOrder, ← bind_assoc]
  refine (hown.enrolls_context roll_nil p.root).bind fun visited hroll => ?_
  refine Enrolls.bind (enrolls_foldlM (fun visited cond _ hroll => ?_) hroll)
    fun visited hroll => ?_
  · split
    · exact hown.enrolls_context hroll _
    · exact enrolls_ok hroll
  · refine Enrolls.bind (enrolls_foldlM (fun visited c hc hroll => ?_) hroll)
      fun visited _ => raises_ok _
    exact hown.enrolls_visit (hown.mem_values.1 hc) hroll

end OwnNames

end Program

namespace Layout

variable {p : Program} {l : Layout} {k : ContextId} {c : Context} {target : BlockId}

/-! ## The tables -/

/-- When all tables are drawn up, every climb has come to the top. -/
theorem callDepthFrom_of_foldlM {cs : List Context} {l' : Layout}
    (h : cs.foldlM (addContext p) l = .ok l') :
    ∀ c ∈ cs, ∃ depth, p.callDepthFrom p.climbBound c.id 0 = .ok depth := by
  refine foldlM_induction h
    (fun done _ => ∀ c ∈ done, ∃ depth, p.callDepthFrom p.climbBound c.id 0 = .ok depth)
    (fun _ hc => absurd hc List.not_mem_nil) ?_
  intro done l c l' _ hadd hdone d hd
  rcases List.mem_append.1 hd with hd | hd
  · exact hdone d hd
  · rw [addContext, bind_eq_ok] at hadd
    obtain ⟨root, -, hadd⟩ := hadd
    obtain ⟨depth, hdepth, -⟩ := bind_eq_ok.1 hadd
    exact ⟨depth, List.mem_singleton.1 hd ▸ hdepth⟩

theorem ofProgram_ends (hown : p.OwnNames) : Raises (· ≠ .endless) (ofProgram p) := by
  rw [ofProgram]
  refine Raises.bind (raises_foldlM (fun l c _ => ?_) _) fun l _ => ?_
  · exact Program.raises_addContext (by simp) l c
  · exact hown.visitOrder_ends.bind fun _ _ => raises_ok _

/-- A chain that goes round in a circle or leaves the program is found out. -/
theorem ofProgram_eq_error (hown : p.OwnNames) (hc : p.contexts.get? k = some c)
    (hk : p.Circular k ∨ p.Strays k) : ∃ o, ofProgram p = .error (.unknownContext o) := by
  rw [ofProgram]
  cases hfold : p.contexts.values.foldlM (addContext p) {} with
  | error fault =>
    have hraises : Raises (fun f => ∃ o, f = .unknownContext o)
        (p.contexts.values.foldlM (addContext p) {}) :=
      raises_foldlM (fun l c _ => Program.raises_addContext (fun o => ⟨o, rfl⟩) l c) {}
    obtain ⟨o, rfl⟩ := hraises fault hfold
    exact ⟨o, rfl⟩
  | ok l =>
    obtain ⟨depth, hdepth⟩ := callDepthFrom_of_foldlM hfold c (Table.mem_values_of_get? hc)
    rw [hown k c hc] at hdepth
    obtain ⟨cs, h⟩ := Program.lineage_of_callDepthFrom hdepth
    exact (hk.elim h.not_circular h.not_strays).elim

/-- A layout has followed the chain of every context to the top. -/
theorem lineage_of_ofProgram (hown : p.OwnNames) (hl : ofProgram p = .ok l)
    (hc : p.contexts.get? k = some c) : ∃ cs, p.Lineage k cs none ∧
      (cs.find? Context.isOutermost).map Context.id = some (l.functionRoot k) ∧
      l.callDepth k = cs.countP Context.isCalled := by
  have hlists := lists_of_ofProgram hl
  have hroot := hlists.root c (Table.mem_values_of_get? hc)
  have hdepth := hlists.depth c (Table.mem_values_of_get? hc)
  rw [hown k c hc] at hroot hdepth
  obtain ⟨cs, h⟩ := Program.lineage_of_callDepthFrom hdepth
  have hlt : cs.length < p.climbBound := Nat.lt_succ_of_le (h.length_le hown)
  refine ⟨cs, h, ?_, ?_⟩
  · rcases h.functionRootFrom_eq hown hlt with ⟨d, hd, hroot'⟩ | ⟨o, ho, -⟩
    · rw [hd, Option.map_some, Except.ok.inj (hroot'.symm.trans hroot)]
    · cases ho
  · have hdepth' := h.callDepthFrom_eq hlt 0
    rw [hdepth, Nat.zero_add] at hdepth'
    exact Except.ok.inj hdepth'

/-! ## The climb to the owner of an edge -/

/-- The climb from `k` to the owner of `target` through enclosing iterations, with no bound on its
steps, ends with an answer. -/
inductive Climbs (l : Layout) (p : Program) (target : BlockId) :
    ContextId → Option ContextId → Prop
  | owned {k : ContextId} (howns : l.owns k target = true) : Climbs l p target k (some k)
  | missing {k : ContextId} (howns : ¬ l.owns k target = true) (hk : p.contexts.get? k = none) :
    Climbs l p target k none
  | outermost {k : ContextId} {c : Context} (howns : ¬ l.owns k target = true)
    (hc : p.contexts.get? k = some c) (henc : c.enclosing? = none) : Climbs l p target k none
  | up {k o : ContextId} {c : Context} {answer : Option ContextId}
    (howns : ¬ l.owns k target = true) (hc : p.contexts.get? k = some c)
    (henc : c.enclosing? = some o) (h : Climbs l p target o answer) : Climbs l p target k answer

/-- Where the climb to the function ends, the climb to the owner ends within the same number of
steps. -/
theorem climbs_of_functionRootFrom {n : Nat} {f : ContextId}
    (h : p.functionRootFrom n k = .ok f) :
    l.Climbs p target k (l.edgeOwnerFrom p target n k) := by
  induction n generalizing k with
  | zero => cases h
  | succ n ih =>
    rw [Program.functionRootFrom, bind_eq_ok] at h
    obtain ⟨c, hc, h⟩ := h
    rw [Program.context_eq_ok] at hc
    rw [edgeOwnerFrom]
    split
    · next howns => exact .owned howns
    · next howns =>
      simp only [hc]
      cases henc : c.enclosing? with
      | none => exact .outermost howns hc henc
      | some o =>
        simp only [henc] at h ⊢
        exact .up howns hc henc (ih h)

theorem climbs_of_ofProgram (hown : p.OwnNames) (hl : ofProgram p = .ok l) (k : ContextId)
    (target : BlockId) : l.Climbs p target k (l.edgeOwner? p k target) := by
  cases hc : p.contexts.get? k with
  | some c =>
    have hroot := (lists_of_ofProgram hl).root c (Table.mem_values_of_get? hc)
    rw [hown k c hc] at hroot
    exact climbs_of_functionRootFrom hroot
  | none =>
    rw [edgeOwner?, Program.climbBound, edgeOwnerFrom]
    split
    · next howns => exact .owned howns
    · next howns =>
      simp only [hc]
      exact .missing howns hc

/-- The layout of a program whose contexts are stored under their own names is drawn up or refused,
and it is refused if the parents of some context go round in a circle or leave the program. On any
chain of parents that does not go round in a circle, the climbs are not given up: one that fails has
come to a context that is missing. A layout that is drawn up has for each context the first of its
chain that is not an iteration with a parent, and the number of functions with a parent on it; and
the climb to the owner of any edge, with no bound on its steps, ends with the answer that is
given. -/
theorem ofProgram_follows_parents (hown : p.OwnNames) :
    ofProgram p ≠ .error .endless ∧
    (∀ k c, p.contexts.get? k = some c → p.Circular k ∨ p.Strays k →
      ∃ o, ofProgram p = .error (.unknownContext o)) ∧
    (∀ k, ¬ p.Circular k →
      Raises (p.Missing k) (p.functionRootFrom p.climbBound k) ∧
        Raises (p.Missing k) (p.callDepthFrom p.climbBound k 0)) ∧
    ∀ l, ofProgram p = .ok l →
      (∀ k c, p.contexts.get? k = some c → ∃ cs, p.Lineage k cs none ∧
        cs.length ≤ p.contexts.size ∧
        (cs.find? Context.isOutermost).map Context.id = some (l.functionRoot k) ∧
        l.callDepth k = cs.countP Context.isCalled ∧ l.callDepth k < p.contexts.size) ∧
      ∀ k target, l.Climbs p target k (l.edgeOwner? p k target) := by
  refine ⟨fun hendless => ofProgram_ends hown _ hendless rfl,
    fun k c hc => ofProgram_eq_error hown hc, fun k => hown.climbs_end,
    fun l hl => ⟨fun k c hc => ?_, climbs_of_ofProgram hown hl⟩⟩
  obtain ⟨cs, h, hroot, hdepth⟩ := lineage_of_ofProgram hown hl hc
  have hle := h.length_le hown
  refine ⟨cs, h, hle, hroot, hdepth, ?_⟩
  rw [hdepth]
  exact h.countP_isCalled_lt.trans_le hle

/-- A context of one block, which bears its number. -/
def lone (n : Nat) (kind : ContextKind) (parent : Option ContextId) : ContextId × Context :=
  (⟨n⟩,
    { id := ⟨n⟩
      kind := kind
      parent := parent
      blocks := .ofList [(⟨n⟩, { id := ⟨n⟩, terminator := .ret })]
      regions := [.block ⟨n⟩]
      entry := ⟨n⟩ })

/-- An iteration in an iteration in a function that the main function calls: all contexts are on the
chain of the first one. -/
def tower : Program where
  objects := .ofList []
  contexts := .ofList [
    lone 3 (.iteration ⟨0⟩ 0 ⟨3⟩ ⟨3⟩) (some ⟨2⟩), lone 2 (.iteration ⟨0⟩ 0 ⟨2⟩ ⟨2⟩) (some ⟨1⟩),
    lone 1 (.function ⟨1⟩ "f" []) (some ⟨0⟩), lone 0 (.function ⟨0⟩ "main" []) none]
  root := ⟨0⟩

/-- Two iterations that lie in each other, and are reached from nowhere. -/
def circle : Program where
  objects := .ofList []
  contexts := .ofList [
    lone 0 (.function ⟨0⟩ "main" []) none, lone 1 (.iteration ⟨0⟩ 0 ⟨1⟩ ⟨1⟩) (some ⟨2⟩),
    lone 2 (.iteration ⟨0⟩ 0 ⟨2⟩ ⟨2⟩) (some ⟨1⟩)]
  root := ⟨0⟩

/-- The chain of four contexts is followed to its end, and the circle is found out. -/
theorem ofProgram_follows_parents_tower :
    (tower.OwnNames ∧ tower.contexts.size = 4 ∧ Yields (ofProgram tower) fun l =>
      (∃ cs, tower.Lineage ⟨3⟩ cs none ∧ cs.length ≤ 4 ∧
        (cs.find? Context.isOutermost).map Context.id = some ⟨1⟩ ∧
        cs.countP Context.isCalled = 1) ∧
      l.functionRoot ⟨3⟩ = ⟨1⟩ ∧ l.callDepth ⟨3⟩ = 1 ∧
      l.Climbs tower ⟨1⟩ ⟨3⟩ (some ⟨1⟩) ∧ l.Climbs tower ⟨0⟩ ⟨3⟩ none) ∧
    circle.OwnNames ∧ circle.Circular ⟨1⟩ ∧ ∃ o, ofProgram circle = .error (.unknownContext o) := by
  have htower : tower.OwnNames := by decide +kernel
  have hcircle : circle.OwnNames := by decide +kernel
  have hround : circle.Circular ⟨1⟩ :=
    ⟨⟨1⟩, .refl, .tail (.single ⟨_, rfl, rfl⟩) ⟨_, rfl, rfl⟩⟩
  have hyields : Yields (ofProgram tower) fun l =>
      l.functionRoot ⟨3⟩ = ⟨1⟩ ∧ l.callDepth ⟨3⟩ = 1 ∧
        l.edgeOwner? tower ⟨3⟩ ⟨1⟩ = some ⟨1⟩ ∧ l.edgeOwner? tower ⟨3⟩ ⟨0⟩ = none := by
    decide +kernel
  obtain ⟨l, hl, hroot, hdepth, howner, hnone⟩ := hyields
  obtain ⟨-, -, -, hright⟩ := ofProgram_follows_parents htower
  obtain ⟨hchains, hclimbs⟩ := hright l hl
  obtain ⟨cs, hcs, hlength, hfirst, hcount, -⟩ := hchains ⟨3⟩ _ rfl
  refine ⟨⟨htower, rfl, l, hl, ⟨cs, hcs, hlength, hroot ▸ hfirst, hdepth ▸ hcount.symm⟩, hroot,
    hdepth, howner ▸ hclimbs ⟨3⟩ ⟨1⟩, hnone ▸ hclimbs ⟨3⟩ ⟨0⟩⟩, hcircle, hround, ?_⟩
  exact (ofProgram_follows_parents hcircle).2.1 ⟨1⟩ _ rfl (.inl hround)

end Layout

end ByteTrust
