import ByteTrust.Proofs.DeadStore.Expand
import Mathlib.Data.Set.Card
import Mathlib.Data.Set.Finite.List
import Mathlib.Logic.Hydra

/-!
# The search is exact

The search remembers with which bytes overwritten it has entered a block, and leaves out what it has
seen. It decides the same as following every path for itself, and it ends: only finitely many blocks
can be entered with finitely many pending returns, and between two of them the pending work gets
smaller.

That calls and returns do not go in circles is not enough for it to end. A peel that is not
terminated may list an iteration of another function, and a search that gets there goes on in that
function with all its returns still to come (`isDead_endless_straying`). So these iterations count
as calls (`Program.Calls`).
-/

namespace ByteTrust.DeadStore

open Relation

variable {q : Setting} {w : Write} {k k' : Cursor} {s s' : State} {n : Nat}

/-! ## Finitely many entries -/

/-- Under which a cursor at the start of a block is remembered. -/
def Cursor.key (k : Cursor) : ContextId × BlockId × List Place :=
  (k.place.context, k.place.block, k.stack)

theorem finite_within (q : Setting) : {place | Within q place}.Finite := by
  refine (List.finite_toSet (q.program.contexts.entries.flatMap fun e =>
    e.2.blocks.entries.flatMap fun b => (List.range (b.2.insts.length + 1)).map fun i =>
      (⟨e.1, b.1, i⟩ : Place))).subset ?_
  rintro ⟨key, b, i⟩ ⟨c, block, hc, hb, hi⟩
  refine List.mem_flatMap.2 ⟨(key, c), Table.mem_entries.2 hc, List.mem_flatMap.2
    ⟨(b, block), Table.mem_entries.2 hb, List.mem_map.2 ⟨i, ?_, rfl⟩⟩⟩
  exact List.mem_range.2 (Nat.lt_succ_of_le hi)

theorem finite_canonical (size : Nat) :
    {s : ByteSet | s.Canonical ∧ ∀ b ∈ s, b < size}.Finite := by
  classical
  refine Set.Finite.of_injOn (f := fun s => (Finset.range size).filter (· ∈ s))
    (t := ((Finset.range size).powerset : Set (Finset Nat))) ?_ ?_ (Finset.finite_toSet _)
  · intro s _
    exact Finset.mem_coe.2 (Finset.mem_powerset.2 (Finset.filter_subset _ _))
  · rintro s ⟨hs, hlt⟩ t ⟨ht, hlt'⟩ heq
    refine hs.ext ht fun b => ?_
    have hmem := Finset.ext_iff.1 heq b
    simp only [Finset.mem_filter, Finset.mem_range] at hmem
    constructor
    · exact fun hb => (hmem.1 ⟨hlt b hb, hb⟩).2
    · exact fun hb => (hmem.2 ⟨hlt' b hb, hb⟩).2

theorem finite_fits (w : Write) : {bits | Fits w bits}.Finite := by
  cases hsize : w.size with
  | none =>
    refine (Set.finite_singleton none).subset ?_
    rintro bits (- | ⟨-, h, -⟩)
    · rfl
    · cases hsize.symm.trans h
  | some size =>
    refine (((finite_canonical size).image some).insert none).subset ?_
    rintro bits (- | ⟨hcan, h, hlt⟩)
    · exact Set.mem_insert _ _
    · cases hsize.symm.trans h
      exact Set.mem_insert_of_mem _ ⟨_, ⟨hcan, hlt⟩, rfl⟩

/-- Without recursion there are no more pending returns than contexts. -/
theorem Valid.length_stack_le (hk : Valid q w k)
    (hcalls : ∀ f, ¬ TransGen (q.program.Calls q.layout) f f) :
    k.stack.length ≤ q.program.contexts.size := by
  have hnodup : ((k.place :: k.stack).map (Place.function q)).Nodup := by
    refine List.pairwise_map.2 (hk.calls.imp ?_)
    intro callee caller hpath heq
    rw [heq] at hpath
    exact hcalls _ hpath
  have hsub : (k.place :: k.stack).map (Place.function q) ⊆
      q.program.contexts.keys.map q.layout.functionRoot := by
    intro f hf
    obtain ⟨place, hplace, rfl⟩ := List.mem_map.1 hf
    obtain ⟨c, -, hc, -⟩ := hk.within place hplace
    exact List.mem_map.2 ⟨_, Table.mem_keys.2 ⟨c, hc⟩, rfl⟩
  have hle := (hnodup.subperm hsub).length_le
  simp only [List.length_map, List.length_cons, Table.keys] at hle
  exact Nat.le_of_succ_le hle

/-- What can be remembered: the keys of cursors in the program, with their bytes. -/
def entries (q : Setting) (w : Write) : Set ((ContextId × BlockId × List Place) × Overwritten) :=
  {e | ∃ k, Valid q w k ∧ (k.key, k.bits) = e}

theorem finite_entries (hcalls : ∀ f, ¬ TransGen (q.program.Calls q.layout) f f) :
    (entries q w).Finite := by
  have hstacks : {stack : List Place | stack.length ≤ q.program.contexts.size ∧
      ∀ place ∈ stack, Within q place}.Finite := by
    have : Finite {place // Within q place} := (finite_within q).to_subtype
    refine ((List.finite_length_le {place // Within q place} q.program.contexts.size).image
      (List.map Subtype.val)).subset ?_
    rintro stack ⟨hlen, hwithin⟩
    lift stack to List {place // Within q place} using hwithin
    exact ⟨stack, by simpa using hlen, rfl⟩
  refine (((finite_within q).prod (hstacks.prod (finite_fits w))).image fun e =>
    ((e.1.context, e.1.block, e.2.1), e.2.2)).subset ?_
  rintro _ ⟨k, hk, rfl⟩
  obtain ⟨hplace, hstack⟩ := List.forall_mem_cons.1 hk.within
  exact ⟨(k.place, k.stack, k.bits), ⟨hplace, ⟨hk.length_stack_le hcalls, hstack⟩, hk.bits⟩, rfl⟩

/-! ## Pending work gets smaller -/

/-- The number of functions to return to from `f`, one after the other. -/
noncomputable def height (q : Setting) (f : ContextId) : Nat :=
  {g | TransGen (q.program.ReturnsTo q.layout) f g}.ncard

theorem height_lt (hreturns : ∀ f, ¬ TransGen (q.program.ReturnsTo q.layout) f f)
    {f g : ContextId} (h : q.program.ReturnsTo q.layout f g) : height q g < height q f := by
  refine Set.ncard_lt_ncard ⟨fun g' hg' => .head h hg', fun hsub => ?_⟩ ?_
  · exact hreturns g (hsub (.single h))
  · refine (List.finite_toSet (q.program.contexts.keys.map q.layout.functionRoot)).subset ?_
    intro g' hg'
    obtain ⟨-, -, -, -, k, c, -, -, hc, hroot, -⟩ := TransGen.tail'_iff.1 hg' |>.choose_spec.2
    exact List.mem_map.2 ⟨k, Table.mem_keys.2 ⟨c, hc⟩, hroot⟩

/-- The function that the pending returns lead to. -/
def Cursor.bottom (q : Setting) (k : Cursor) : ContextId :=
  Place.function q (k.stack.getLast?.getD k.place)

/-- How far the returns from a cursor can lead; nothing at the start of a block, which is
remembered. -/
noncomputable def rank (q : Setting) (k : Cursor) : Nat :=
  if k.place.index = 0 then 0 else 1 + k.stack.length + height q (k.bottom q)

theorem Turns.rank_lt (hreturns : ∀ f, ¬ TransGen (q.program.ReturnsTo q.layout) f f)
    (h : Turns q k k') (hk : k.place.index ≠ 0) : rank q k' < rank q k := by
  rw [rank, rank, if_neg hk]
  split
  · omega
  · next hk' =>
    cases h with
    | start hindex => exact absurd hindex hk'
    | resume hstack =>
      have hbottom : k.bottom q = k'.bottom q := by
        rw [Cursor.bottom, Cursor.bottom, hstack, List.getLast?_cons, Option.getD_some]
      rw [hbottom, hstack, List.length_cons]
      omega
    | toCaller hstack hstack' hreturn =>
      have hlt : height q (k'.bottom q) < height q (k.bottom q) := by
        rw [Cursor.bottom, Cursor.bottom, hstack, hstack']
        exact height_lt hreturns hreturn
      rw [hstack, hstack']
      omega

/-! ## The invariant -/

/-- The cursor stands at the start of a block and is remembered. -/
def State.Seen (s : State) (k : Cursor) : Prop :=
  k.place.index = 0 ∧ k.bits ∈ (s.explored.get? k.key).getD []

/-- The cursor is remembered, or still to be followed. -/
def State.Pending (s : State) (k : Cursor) : Prop := s.Seen k ∨ k ∈ s.work

/-- What a search that started at `start` has left out it can make up for: what can be read from a
cursor that is remembered can be read from another one, by a shorter path, and what can be read from
the start can be read from a pending cursor. -/
structure Covers (q : Setting) (w : Write) (start : Cursor) (s : State) : Prop where
  bits : ∀ k, s.Pending k → Fits w k.bits
  seen : ∀ {n k}, s.Seen k → Leaks q w n k → ∃ m < n, ∃ k', s.Pending k' ∧ Leaks q w m k'
  initial : ∀ {n}, Leaks q w n start → ∃ m k', s.Pending k' ∧ Leaks q w m k'

/-- A search that covers the paths from `start`, with cursors that are met on these paths. -/
structure Inv (q : Setting) (w : Write) (start : Cursor) (s : State) : Prop
    extends Covers q w start s where
  valid : ∀ k, s.Pending k → Valid q w k
  path : ∀ k ∈ s.work, ReflTransGen (Moves q w) start k

variable {start : Cursor}

theorem covers_initial (h : Fits w start.bits) : Covers q w start { work := [start] } := by
  have hseen (k : Cursor) : ¬ ({ work := [start] } : State).Seen k := by simp [State.Seen]
  refine ⟨?_, fun hk => absurd hk (hseen _), fun hleak => ?_⟩
  · rintro k (hk | hk)
    · exact absurd hk (hseen k)
    · exact List.mem_singleton.1 hk ▸ h
  · exact ⟨_, start, .inr List.mem_cons_self, hleak⟩

theorem inv_initial (h : Valid q w start) : Inv q w start { work := [start] } := by
  have hseen (k : Cursor) : ¬ ({ work := [start] } : State).Seen k := by simp [State.Seen]
  refine ⟨covers_initial h.bits, ?_, ?_⟩
  · rintro k (hk | hk)
    · exact absurd hk (hseen k)
    · exact List.mem_singleton.1 hk ▸ h
  · intro k hk
    exact List.mem_singleton.1 hk ▸ .refl

/-- When nothing is left to follow, nothing is read. -/
theorem Covers.not_leaks (h : Covers q w start s) (hwork : s.work = []) :
    ¬ ∃ n, Leaks q w n start := by
  have hseen {k : Cursor} (hk : s.Pending k) : s.Seen k := by
    rcases hk with hk | hk
    · exact hk
    · simp [hwork] at hk
  -- a shortest path to a reader from a remembered cursor could be shortened
  have hnone (n : Nat) : ∀ k, s.Seen k → ¬ Leaks q w n k := by
    induction n using Nat.strong_induction_on with
    | _ n ih =>
      intro k hk hleak
      obtain ⟨m, hm, k', hk', hleak'⟩ := h.seen hk hleak
      exact ih m hm k' (hseen hk') hleak'
  rintro ⟨n, hleak⟩
  obtain ⟨m, k', hk', hleak'⟩ := h.initial hleak
  exact hnone m k' (hseen hk') hleak'

/-- The paths are covered after a step if what was pending is not forgotten. -/
theorem Covers.next (h : Covers q w start s) (hbits : ∀ k, s'.Pending k → Fits w k.bits)
    (hkeep : ∀ {n k}, s.Pending k → Leaks q w n k → ∃ m ≤ n, ∃ k', s'.Pending k' ∧ Leaks q w m k')
    (hnew : ∀ {n k}, s'.Seen k → ¬ s.Seen k → Leaks q w n k →
      ∃ m < n, ∃ k', s'.Pending k' ∧ Leaks q w m k') : Covers q w start s' := by
  refine ⟨hbits, fun {n k} hk hleak => ?_, fun hleak => ?_⟩
  · by_cases hold : s.Seen k
    · obtain ⟨m, hm, k', hk', hleak'⟩ := h.seen hold hleak
      obtain ⟨m', hm', k'', hk'', hleak''⟩ := hkeep hk' hleak'
      exact ⟨m', Nat.lt_of_le_of_lt hm' hm, k'', hk'', hleak''⟩
    · exact hnew hk hold hleak
  · obtain ⟨m, k', hk', hleak'⟩ := h.initial hleak
    obtain ⟨m', -, k'', hk'', hleak''⟩ := hkeep hk' hleak'
    exact ⟨m', k'', hk'', hleak''⟩

theorem Valid.path (hq : Searchable q) (hk : Valid q w k) (h : ReflTransGen (Moves q w) k k') :
    Valid q w k' := by
  induction h with
  | refl => exact hk
  | tail _ hmove ih => exact ih.moves hq hmove

theorem State.Pending.of_drop {rest : List Cursor} {k₁ : Cursor} (hwork : s.work = k :: rest)
    (h : State.Pending { s with work := rest } k₁) : s.Pending k₁ :=
  h.imp_right fun hk₁ => hwork ▸ List.mem_cons_of_mem _ hk₁

/-- A cursor that is covered by a remembered one is dropped. -/
theorem Covers.drop {rest : List Cursor} (h : Covers q w start s) (hwork : s.work = k :: rest)
    (hk' : s.Seen k') (hle : Cursor.Le k' k) : Covers q w start { s with work := rest } := by
  refine h.next (fun k₁ hk₁ => h.bits k₁ (hk₁.of_drop hwork)) ?_ (fun hk hold => absurd hk hold)
  rintro n k₁ (hk₁ | hk₁) hleak
  · exact ⟨n, Nat.le_refl _, k₁, .inl hk₁, hleak⟩
  · rw [hwork, List.mem_cons] at hk₁
    rcases hk₁ with rfl | hk₁
    · exact ⟨n, Nat.le_refl _, k', .inl hk', hleak.mono hle⟩
    · exact ⟨n, Nat.le_refl _, k₁, .inr hk₁, hleak⟩

theorem Inv.drop {rest : List Cursor} (h : Inv q w start s) (hwork : s.work = k :: rest)
    (hk' : s.Seen k') (hle : Cursor.Le k' k) : Inv q w start { s with work := rest } where
  toCovers := h.toCovers.drop hwork hk' hle
  valid k₁ hk₁ := h.valid k₁ (hk₁.of_drop hwork)
  path k₁ hk₁ := h.path k₁ (hwork ▸ List.mem_cons_of_mem _ hk₁)

section Expand

variable {rest cursors : List Cursor} (hwork : s.work = k :: rest)
  (hwork' : s'.work = cursors ++ rest) (hseen' : ∀ k', s'.Seen k' → s.Seen k' ∨ k' = k)

include hwork hwork' hseen'

/-- What is pending after a cursor is followed up. -/
theorem State.Pending.of_expand {k₁ : Cursor} (h : s'.Pending k₁) : s.Pending k₁ ∨ k₁ ∈ cursors := by
  rcases h with h | h
  · rcases hseen' k₁ h with h | rfl
    · exact .inl (.inl h)
    · exact .inl (.inr (hwork ▸ List.mem_cons_self))
  · rw [hwork', List.mem_append] at h
    exact h.symm.imp_left fun h => .inr (hwork ▸ List.mem_cons_of_mem _ h)

/-- A cursor that is followed up may be remembered. -/
theorem Covers.expand (h : Covers q w start s) (hbits : ∀ k' ∈ cursors, Fits w k'.bits)
    (hleaks : ∀ {n}, Leaks q w n k → ∃ m < n, ∃ k' ∈ cursors, Leaks q w m k')
    (hseen : ∀ k', s.Seen k' → s'.Seen k') : Covers q w start s' := by
  have hmem {k' : Cursor} : k' ∈ s'.work ↔ k' ∈ cursors ∨ k' ∈ rest := by
    rw [hwork', List.mem_append]
  have hleaks {n : Nat} (hleak : Leaks q w n k) :
      ∃ m < n, ∃ k', s'.Pending k' ∧ Leaks q w m k' := by
    obtain ⟨m, hm, k', hk', hleak⟩ := hleaks hleak
    exact ⟨m, hm, k', .inr (hmem.2 (.inl hk')), hleak⟩
  refine h.next ?_ ?_ ?_
  · intro k' hk'
    rcases hk'.of_expand hwork hwork' hseen' with hk' | hk'
    · exact h.bits k' hk'
    · exact hbits k' hk'
  · rintro n k₁ (hk₁ | hk₁) hleak
    · exact ⟨n, Nat.le_refl _, k₁, .inl (hseen k₁ hk₁), hleak⟩
    · rw [hwork, List.mem_cons] at hk₁
      rcases hk₁ with rfl | hk₁
      · obtain ⟨m, hm, hk'⟩ := hleaks hleak
        exact ⟨m, Nat.le_of_lt hm, hk'⟩
      · exact ⟨n, Nat.le_refl _, k₁, .inr (hmem.2 (.inr hk₁)), hleak⟩
  · intro n k₁ hk₁ hold hleak
    rcases hseen' k₁ hk₁ with hk₁ | rfl
    · exact absurd hk₁ hold
    · exact hleaks hleak

theorem Inv.expand (hq : Searchable q) (h : Inv q w start s) (hexpands : Expands q w k cursors)
    (hseen : ∀ k', s.Seen k' → s'.Seen k') : Inv q w start s' := by
  have hk : s.Pending k := .inr (hwork ▸ List.mem_cons_self)
  have hvalid (k' : Cursor) (hk' : k' ∈ cursors) : Valid q w k' :=
    (h.valid k hk).path hq (hexpands.path k' hk')
  refine ⟨h.toCovers.expand hwork hwork' hseen' (fun k' hk' => (hvalid k' hk').bits)
    hexpands.leaks hseen, ?_, ?_⟩
  · intro k' hk'
    rcases hk'.of_expand hwork hwork' hseen' with hk' | hk'
    · exact h.valid k' hk'
    · exact hvalid k' hk'
  · intro k' hk'
    rw [hwork', List.mem_append] at hk'
    rcases hk' with hk' | hk'
    · exact (h.path k (hwork ▸ List.mem_cons_self)).trans (hexpands.path k' hk')
    · exact h.path k' (hwork ▸ List.mem_cons_of_mem _ hk')

end Expand

/-! ## Every step leaves less to do -/

/-- What may still be remembered. -/
def State.room (q : Setting) (w : Write) (s : State) :
    Set ((ContextId × BlockId × List Place) × Overwritten) :=
  {e | e ∈ entries q w ∧ e.2 ∉ (s.explored.get? e.1).getD []}

/-- Less can be remembered, or a cursor has been replaced by cursors of lower rank. -/
def Smaller (q : Setting) (w : Write) : State → State → Prop :=
  InvImage (Prod.Lex (· < ·) (CutExpand (InvImage (· < ·) (rank q))))
    fun s => ((s.room q w).ncard, (s.work : Multiset Cursor))

theorem wellFounded_smaller (q : Setting) (w : Write) : WellFounded (Smaller q w) :=
  InvImage.wf _ (WellFounded.prod_lex Nat.lt_wfRel.wf
    (InvImage.wf (rank q) Nat.lt_wfRel.wf).cutExpand)

theorem smaller_of_rank {rest cursors : List Cursor} (hwork : s.work = k :: rest)
    (hlt : ∀ k' ∈ cursors, rank q k' < rank q k) :
    Smaller q w { s with work := cursors ++ rest } s := by
  refine Prod.Lex.right _ ⟨cursors, k, hlt, ?_⟩
  rw [hwork, ← Multiset.coe_add, ← Multiset.cons_coe, ← Multiset.singleton_add, add_comm,
    add_comm (cursors : Multiset Cursor), add_assoc]

theorem smaller_of_room (hcalls : ∀ f, ¬ TransGen (q.program.Calls q.layout) f f)
    (hsub : s'.room q w ⊆ s.room q w) {e : (ContextId × BlockId × List Place) × Overwritten}
    (he : e ∈ s.room q w) (he' : e ∉ s'.room q w) : Smaller q w s' s := by
  refine Prod.Lex.left _ _ (Set.ncard_lt_ncard ⟨hsub, fun h => he' (h he)⟩ ?_)
  exact (finite_entries hcalls).subset fun _ h => h.1

theorem enter?_eq_none (h : s.enter? k = none) :
    ∃ bits ∈ (s.explored.get? k.key).getD [], isCoveredBy bits k.bits = true := by
  unfold State.enter? at h
  simp only at h
  split at h
  · next hany => exact List.any_eq_true.1 hany
  · cases h

theorem enter?_eq_some (h : s.enter? k = some s') :
    (∀ bits ∈ (s.explored.get? k.key).getD [], isCoveredBy bits k.bits = false) ∧
      s' = { s with explored :=
        s.explored.insert k.key ((s.explored.get? k.key).getD [] ++ [k.bits]) } := by
  unfold State.enter? at h
  simp only at h
  split at h
  · cases h
  · next hany =>
    rw [Bool.not_eq_true, List.any_eq_false] at hany
    cases h
    exact ⟨fun bits hbits => by simpa using hany bits hbits, rfl⟩

/-- What is remembered after a block is entered. -/
theorem mem_explored_insert (s : State) (k : Cursor)
    (e : (ContextId × BlockId × List Place) × Overwritten) :
    e.2 ∈ ((s.explored.insert k.key ((s.explored.get? k.key).getD [] ++ [k.bits])).get? e.1).getD []
      ↔ e.2 ∈ (s.explored.get? e.1).getD [] ∨ e = (k.key, k.bits) := by
  rw [Table.get?_insert]
  split
  · next hkey => simp [hkey, Prod.ext_iff]
  · next hkey => simp [hkey, Prod.ext_iff]

theorem Cursor.eq_of_key (hk : k.place.index = 0) (hk' : k'.place.index = 0)
    (hkey : (k'.key, k'.bits) = (k.key, k.bits)) : k' = k := by
  obtain ⟨⟨c, b, i⟩, stack, bits⟩ := k
  obtain ⟨⟨c', b', i'⟩, stack', bits'⟩ := k'
  simp_all [Cursor.key]

/-- What is seen once the block at `k` is entered. -/
theorem seen_insert {work : List Cursor} (hk : k.place.index = 0) :
    State.Seen { work := work, explored :=
      s.explored.insert k.key ((s.explored.get? k.key).getD [] ++ [k.bits]) } k' ↔
    s.Seen k' ∨ k' = k := by
  have hmem := mem_explored_insert s k (k'.key, k'.bits)
  constructor
  · rintro ⟨hindex, hk'⟩
    rcases hmem.1 hk' with hk' | hk'
    · exact .inl ⟨hindex, hk'⟩
    · exact .inr (Cursor.eq_of_key hk hindex hk')
  · rintro (⟨hindex, hk'⟩ | rfl)
    · exact ⟨hindex, hmem.2 (.inl hk')⟩
    · exact ⟨hk, hmem.2 (.inr rfl)⟩

/-- A step ends the search rightly, or leaves less to do. -/
theorem step_spec (hq : Searchable q) (hcalls : ∀ f, ¬ TransGen (q.program.Calls q.layout) f f)
    (hreturns : ∀ f, ¬ TransGen (q.program.ReturnsTo q.layout) f f) (h : Inv q w start s) :
    (s.step q w = .ok (.done true) ∧ ¬ ∃ n, Leaks q w n start) ∨
    (s.step q w = .ok (.done false) ∧ ∃ n, Leaks q w n start) ∨
    ∃ s', s.step q w = .ok (.more s') ∧ Inv q w start s' ∧ Smaller q w s' s := by
  unfold State.step
  cases hwork : s.work with
  | nil => exact .inl ⟨rfl, h.not_leaks hwork⟩
  | cons k rest =>
    have hk : Valid q w k := h.valid k (.inr (hwork ▸ List.mem_cons_self))
    have hleaks (hleak : ∃ n, Leaks q w n k) : ∃ n, Leaks q w n start := by
      obtain ⟨k', hpath, hobs⟩ := exists_leaks_iff.1 hleak
      exact exists_leaks_iff.2 ⟨k', (h.path k (hwork ▸ List.mem_cons_self)).trans hpath, hobs⟩
    simp only
    split
    · next hindex =>
      cases henter : State.enter? { s with work := rest } k with
      | none =>
        obtain ⟨bits, hbits, hcovered⟩ := enter?_eq_none henter
        have hseen : s.Seen ⟨k.place, k.stack, bits⟩ := ⟨hindex, hbits⟩
        have hle : Cursor.Le ⟨k.place, k.stack, bits⟩ k :=
          ⟨rfl, rfl, (h.valid _ (.inl hseen)).bits.le_of_isCoveredBy hk.bits hcovered⟩
        have hsmaller : Smaller q w { s with work := [] ++ rest } s :=
          smaller_of_rank hwork (by simp)
        exact .inr (.inr ⟨_, rfl, h.drop hwork hseen hle, hsmaller⟩)
      | some s₁ =>
        obtain ⟨hfresh, rfl⟩ := enter?_eq_some henter
        rcases advance_spec hq hk { s with
            work := rest
            explored := s.explored.insert k.key ((s.explored.get? k.key).getD [] ++ [k.bits]) } with
          ⟨cursors, hadvance, hexpands⟩ | ⟨hadvance, hleak⟩
        · refine .inr (.inr ⟨_, hadvance, h.expand hwork rfl ?_ hq hexpands ?_, ?_⟩)
          · exact fun k' hk' => (seen_insert hindex).1 hk'
          · exact fun k' hk' => (seen_insert hindex).2 (.inl hk')
          · refine smaller_of_room hcalls (e := (k.key, k.bits)) (fun e he => ⟨he.1, fun hold =>
              he.2 ((mem_explored_insert s k e).2 (.inl hold))⟩) ⟨⟨k, hk, rfl⟩, fun hold => ?_⟩
              fun hroom => hroom.2 ((mem_explored_insert s k _).2 (.inr rfl))
            have := hfresh k.bits hold
            rw [hk.bits.isCoveredBy_self] at this
            cases this
        · exact .inr (.inl ⟨hadvance, hleaks hleak⟩)
    · next hindex =>
      rcases advance_spec hq hk { s with work := rest } with
        ⟨cursors, hadvance, hexpands⟩ | ⟨hadvance, hleak⟩
      · exact .inr (.inr ⟨_, hadvance, h.expand hwork rfl (fun _ hk' => .inl hk') hq hexpands
          (fun _ hk' => hk'), smaller_of_rank hwork fun k' hk' =>
            (hexpands.turns k' hk').rank_lt hreturns hindex⟩)
      · exact .inr (.inl ⟨hadvance, hleaks hleak⟩)

/-- The search ends, with the right answer. -/
theorem run_spec (hq : Searchable q) (hcalls : ∀ f, ¬ TransGen (q.program.Calls q.layout) f f)
    (hreturns : ∀ f, ¬ TransGen (q.program.ReturnsTo q.layout) f f) (h : Inv q w start s) :
    ∃ dead, s.run q w = some (.ok dead) ∧ (dead = true ↔ ¬ ∃ n, Leaks q w n start) := by
  induction s using (wellFounded_smaller q w).induction with
  | _ s ih =>
    rw [State.run]
    rcases step_spec hq hcalls hreturns h with
      ⟨hstep, hleak⟩ | ⟨hstep, hleak⟩ | ⟨s', hstep, hinv, hsmaller⟩
    · exact ⟨true, by rw [hstep], by simpa using hleak⟩
    · exact ⟨false, by rw [hstep], by simpa using hleak⟩
    · rw [hstep]
      exact ih s' hsmaller hinv

/-- In a linked program without recursion, also by way of iterations listed in another function, the
search ends, and says that a write is dead exactly when no path from just after it leads to where it
may be read. -/
theorem isDead_exact {p₀ : Program} (hlink : p₀.link = .ok q.program)
    (hlayout : Layout.ofProgram q.program = .ok q.layout) (hown : q.program.OwnNames)
    (hcallers : ∀ f d i, q.program.contexts.get? f = some d → i ∈ d.callers →
      ∃ g inst, q.program.Contains q.layout g inst ∧ inst.id = i)
    (hcalls : ∀ f, ¬ TransGen (q.program.Calls q.layout) f f)
    (hreturns : ∀ f, ¬ TransGen (q.program.ReturnsTo q.layout) f f)
    (w : Write) {place : Place} {inst : Instr} (hplace : q.program.instruction place = .ok inst) :
    ∃ dead, isDead q w place = .ok dead ∧
      (dead = true ↔ ¬ ∃ k, ReflTransGen (Moves q w)
        ⟨{ place with index := place.index + 1 }, [], w.fresh⟩ k ∧ Observes q w k) := by
  have hlinked := Program.linked_of_link hlink hlayout hown
  have hq : Searchable q := by
    refine ⟨hlinked, fun {f d i} hd hi => ?_⟩
    obtain ⟨g, inst, ⟨k, c, b, block, hc, -, hb, hinst⟩, rfl⟩ := hcallers f d i hd hi
    exact hlinked.place_exists hc hb hinst
  have hstart : Valid q w ⟨{ place with index := place.index + 1 }, [], w.fresh⟩ := by
    rw [Program.instruction, bind_eq_ok] at hplace
    obtain ⟨block, hblock, hplace⟩ := hplace
    rw [Program.block, bind_eq_ok] at hblock
    obtain ⟨c, hc, hblock⟩ := hblock
    rw [Program.context_eq_ok] at hc
    rw [Context.block_eq_ok] at hblock
    have hlt : place.index < block.insts.length := by
      cases hinst : block.insts[place.index]? with
      | none => simp [hinst] at hplace
      | some inst => exact (List.getElem?_eq_some_iff.1 hinst).1
    exact ⟨List.forall_mem_cons.2 ⟨⟨c, block, hc, hblock, hlt⟩, by simp⟩, by simp, by simp,
      fits_fresh w⟩
  obtain ⟨dead, hrun, hdead⟩ := run_spec hq hcalls hreturns (inv_initial hstart)
  refine ⟨dead, ?_, hdead.trans (not_congr exists_leaks_iff)⟩
  rw [isDead, hrun]
  rfl

/-- The answer of a search, if it ends within so many steps. -/
def State.answer? (q : Setting) (w : Write) : Nat → State → Option Bool
  | 0, _ => none
  | n + 1, s =>
    match s.step q w with
    | .ok (.done dead) => some dead
    | .ok (.more s) => s.answer? q w n
    | .error _ => none

theorem State.run_of_answer? {q : Setting} {w : Write} {n : Nat} {s : State} {dead : Bool}
    (h : s.answer? q w n = some dead) : s.run q w = some (.ok dead) := by
  induction n generalizing s with
  | zero => cases h
  | succ n ih =>
    rw [answer?] at h
    rw [State.run]
    split at h
    · next hstep =>
      cases h
      rw [hstep]
    · next hstep =>
      rw [hstep]
      exact ih h
    · cases h

/-! ## A search that goes round -/

/-- A relation that leads upwards has no circle. -/
theorem not_transGen_self {R : ContextId → ContextId → Prop} (rank : ContextId → Nat)
    (h : ∀ f g, R f g → rank f < rank g) (f : ContextId) : ¬ TransGen R f f := by
  intro hf
  have hlt : TransGen (· < ·) (rank f) (rank f) := hf.lift rank h
  rw [transGen_eq_self] at hlt
  exact Nat.lt_irrefl _ hlt

/-- What holds of every instruction listed holds of the instructions of every function. -/
theorem of_contains {p : Program} {l : Layout} {P : ContextId → Instr → Prop}
    (h : ∀ e ∈ p.contexts.entries, ∀ b ∈ e.2.blocks.entries, ∀ inst ∈ b.2.insts,
      P (l.functionRoot e.1) inst) : ∀ f inst, p.Contains l f inst → P f inst := by
  rintro f inst ⟨k, c, b, block, hc, rfl, hb, hinst⟩
  exact h _ (Table.mem_entries.2 hc) _ (Table.mem_entries.2 hb) _ hinst

/-- The main function calls `f` and then frees the object. There `f` stores to it and calls `g` in a
loop, as often as it likes, before it returns; and `g` loads what was stored. -/
def circling : Program where
  objects := .ofList [(⟨0⟩, ⟨⟨0⟩, .heap, some 4, none⟩)]
  contexts := .ofList [
    (⟨0⟩, {
      id := ⟨0⟩
      kind := .function ⟨0⟩ "main" []
      blocks := .ofList [(⟨0⟩, {
        id := ⟨0⟩
        insts := [⟨⟨0⟩, .call { callee := some ⟨1⟩ }, false, .none, true⟩,
          ⟨⟨1⟩, .free (.single ⟨0⟩ 0), false, .none, true⟩]
        terminator := .ret })]
      regions := [.block ⟨0⟩]
      entry := ⟨0⟩ }),
    (⟨1⟩, {
      id := ⟨1⟩
      kind := .function ⟨1⟩ "f" [⟨0⟩]
      blocks := .ofList [
        (⟨1⟩, {
          id := ⟨1⟩
          insts := [⟨⟨2⟩, .store (.single ⟨0⟩ 0) 4, false, .none, true⟩]
          succs := [⟨⟨2⟩, true⟩] }),
        (⟨2⟩, {
          id := ⟨2⟩
          insts := [⟨⟨3⟩, .call { callee := some ⟨2⟩ }, false, .none, true⟩]
          succs := [⟨⟨2⟩, true⟩, ⟨⟨3⟩, true⟩]
          preds := [⟨1⟩, ⟨2⟩] }),
        (⟨3⟩, { id := ⟨3⟩, terminator := .ret, preds := [⟨2⟩] })]
      regions := [
        .block ⟨1⟩,
        .loop { id := ⟨0⟩, preheader := ⟨1⟩, header := ⟨2⟩, latch := ⟨2⟩, blocks := .ofList [⟨2⟩] }
          [.block ⟨2⟩],
        .block ⟨3⟩]
      entry := ⟨1⟩ }),
    (⟨2⟩, {
      id := ⟨2⟩
      kind := .function ⟨2⟩ "g" [⟨3⟩]
      blocks := .ofList [(⟨4⟩, {
        id := ⟨4⟩
        insts := [⟨⟨4⟩, .load (.single ⟨0⟩ 0) 4 .plain (.known (.scalar 1)), false, .none, true⟩]
        terminator := .ret })]
      regions := [.block ⟨4⟩]
      entry := ⟨4⟩ })]
  root := ⟨0⟩

/-- The search in this program, where some instructions are checked. -/
def circlingSetting (checked : IdentSet .inst) : Setting :=
  ⟨circling, (Layout.ofProgram circling).toOption.getD {}, ∅, checked⟩

/-- The store of `f`. -/
def circlingWrite : Write := ⟨⟨2⟩, ⟨⟨0⟩, 0⟩, some 4, .heap⟩

theorem link_circling : circling.link = .ok circling :=
  Program.link_iff.2 ⟨by decide +kernel, (circlingSetting ∅).layout, rfl, rfl, by decide +kernel⟩

/-- What the functions of `circling` call, and where the calls are that they return to. -/
theorem contains_circling : ∀ f inst, circling.Contains (circlingSetting ∅).layout f inst →
    (inst.op.callee?.all fun g => f.number < g.number) = true ∧
      (inst.id = ⟨0⟩ → f = ⟨0⟩) ∧ (inst.id = ⟨3⟩ → f = ⟨1⟩) := by
  refine of_contains ?_
  decide +kernel

/-- The paths from the store: around the loop, through the call in it, until the load is reached. -/
theorem moves_circling (checked : IdentSet .inst) :
    Moves (circlingSetting checked) circlingWrite ⟨⟨⟨1⟩, ⟨1⟩, 1⟩, [], some ∅⟩
      ⟨⟨⟨1⟩, ⟨2⟩, 0⟩, [], some ∅⟩ ∧
    Moves (circlingSetting checked) circlingWrite ⟨⟨⟨1⟩, ⟨2⟩, 0⟩, [], some ∅⟩
      ⟨⟨⟨2⟩, ⟨4⟩, 0⟩, [⟨⟨1⟩, ⟨2⟩, 1⟩], some ∅⟩ := by
  have hbegin : Leaves (circlingSetting checked) circlingWrite ⟨⟨⟨1⟩, ⟨1⟩, 1⟩, [], some ∅⟩ _ _
      .branch := ⟨⟨rfl, rfl⟩, by decide, rfl, fun h => absurd rfl h⟩
  have hg : circling.contexts.get? ⟨2⟩ = some _ := rfl
  have henter : Moves (circlingSetting checked) circlingWrite ⟨⟨⟨1⟩, ⟨2⟩, 0⟩, [], some ∅⟩ _ :=
    .enter ⟨rfl, rfl⟩ rfl ⟨_, rfl, rfl, rfl⟩ hg
  exact ⟨.branch hbegin (by decide) (fun _ _ h => by cases h) rfl, henter⟩

/-- Where the load is not checked, the paths go on behind the call: back to the loop, and out of it
to the caller. -/
theorem moves_circling_unchecked :
    ReflTransGen (Moves (circlingSetting ∅) circlingWrite)
      ⟨⟨⟨2⟩, ⟨4⟩, 0⟩, [⟨⟨1⟩, ⟨2⟩, 1⟩], some ∅⟩ ⟨⟨⟨1⟩, ⟨2⟩, 1⟩, [], some ∅⟩ ∧
    Moves (circlingSetting ∅) circlingWrite ⟨⟨⟨1⟩, ⟨2⟩, 1⟩, [], some ∅⟩
      ⟨⟨⟨1⟩, ⟨2⟩, 0⟩, [], some ∅⟩ ∧
    ReflTransGen (Moves (circlingSetting ∅) circlingWrite) ⟨⟨⟨1⟩, ⟨2⟩, 1⟩, [], some ∅⟩
      ⟨⟨⟨0⟩, ⟨0⟩, 1⟩, [], some ∅⟩ := by
  have hload : Leaves (circlingSetting ∅) circlingWrite
      ⟨⟨⟨2⟩, ⟨4⟩, 1⟩, [⟨⟨1⟩, ⟨2⟩, 1⟩], some ∅⟩ _ _ .ret :=
    ⟨⟨rfl, rfl⟩, by decide, rfl, fun _ h => by cases h⟩
  have hlatch : Leaves (circlingSetting ∅) circlingWrite ⟨⟨⟨1⟩, ⟨2⟩, 1⟩, [], some ∅⟩ _ _
      .branch := ⟨⟨rfl, rfl⟩, by decide, rfl, fun h => absurd rfl h⟩
  have hret : Leaves (circlingSetting ∅) circlingWrite ⟨⟨⟨1⟩, ⟨3⟩, 0⟩, [], some ∅⟩ _ _
      .ret := ⟨⟨rfl, rfl⟩, by decide, rfl, fun _ h => by cases h⟩
  have hf : circling.contexts.get? ⟨1⟩ = some _ := rfl
  have hplace : (circlingSetting ∅).layout.places.get? ⟨0⟩ = some ⟨⟨0⟩, ⟨0⟩, 0⟩ := by
    decide +kernel
  have hexit : Moves (circlingSetting ∅) circlingWrite ⟨⟨⟨1⟩, ⟨2⟩, 1⟩, [], some ∅⟩
      ⟨⟨⟨1⟩, ⟨3⟩, 0⟩, [], some ∅⟩ :=
    .branch hlatch (by decide) (fun _ _ h => by cases h) rfl
  refine ⟨.head (.past ⟨rfl, rfl⟩ rfl ?_ ?_ ?_ rfl) (.single (.resume hload rfl)),
    .branch hlatch (by decide) (fun _ _ h => by cases h) rfl,
    .head hexit (.single (.toCaller hret rfl hf (.head _) hplace))⟩
  · rintro (⟨hop, -, hkept⟩ | ⟨hop, -, -⟩ | ⟨hop, -⟩ | ⟨hop, -⟩ | ⟨hop, -, -⟩) <;> cases hop
    exact hkept ⟨rfl, rfl, IdentSet.not_mem_empty _⟩
  · exact not_frees rfl (by simp)
  · rintro f ⟨site, hcall, -⟩
    cases hcall

/-- The paths from the store go round the loop for ever, and whenever they leave it they come to the
caller, where the object ends. None of them reads the store, unless the load in the callee is
checked. -/
theorem isDead_exact_circling :
    let start : Cursor := ⟨⟨⟨1⟩, ⟨1⟩, 1⟩, [], circlingWrite.fresh⟩
    (isDead (circlingSetting ∅) circlingWrite ⟨⟨1⟩, ⟨1⟩, 0⟩ = .ok true ∧
      (∃ k, ReflTransGen (Moves (circlingSetting ∅) circlingWrite) start k ∧
        TransGen (Moves (circlingSetting ∅) circlingWrite) k k ∧
        ReflTransGen (Moves (circlingSetting ∅) circlingWrite) k
          ⟨⟨⟨0⟩, ⟨0⟩, 1⟩, [], some ∅⟩) ∧
      ¬ ∃ k, ReflTransGen (Moves (circlingSetting ∅) circlingWrite) start k ∧
        Observes (circlingSetting ∅) circlingWrite k) ∧
    isDead (circlingSetting (.ofList [⟨4⟩])) circlingWrite ⟨⟨1⟩, ⟨1⟩, 0⟩ = .ok false := by
  intro start
  have hown : circling.OwnNames := Program.ownNames_iff.2 (by decide +kernel)
  have hcallers : ∀ e ∈ circling.contexts.entries, ∀ i ∈ e.2.callers,
      e.1 = ⟨1⟩ ∧ i = ⟨0⟩ ∨ e.1 = ⟨2⟩ ∧ i = ⟨3⟩ := by
    decide +kernel
  have hexact (checked : IdentSet .inst) := by
    refine isDead_exact (q := circlingSetting checked) link_circling rfl
      hown ?_ (not_transGen_self (fun f => f.number) ?_)
      (not_transGen_self (fun f => 2 - f.number) ?_) circlingWrite
      (rfl : circling.instruction ⟨⟨1⟩, ⟨1⟩, 0⟩ = .ok _)
    · intro f d i hd hi
      obtain ⟨-, rfl⟩ | ⟨-, rfl⟩ := hcallers _ (Table.mem_entries.2 hd) i hi
      · exact ⟨_, _, ⟨⟨0⟩, _, ⟨0⟩, _, rfl, rfl, rfl, .head _⟩, rfl⟩
      · exact ⟨_, _, ⟨⟨1⟩, _, ⟨2⟩, _, rfl, rfl, rfl, .head _⟩, rfl⟩
    · rintro f g (⟨inst, hinst, hcallee⟩ | ⟨-, k, loop, peel, -, -, hpeel, -⟩)
      · have hless := (contains_circling _ _ hinst).1
        rw [hcallee] at hless
        simpa using hless
      · cases hpeel
    · rintro f g ⟨d, inst, hd, hi, hinst⟩
      obtain ⟨-, hmain, hf⟩ := contains_circling _ _ hinst
      obtain ⟨hkey, hid⟩ | ⟨hkey, hid⟩ := hcallers _ (Table.mem_entries.2 hd) _ hi
      · obtain rfl : f = ⟨1⟩ := hkey
        obtain rfl := hmain hid
        decide
      · obtain rfl : f = ⟨2⟩ := hkey
        obtain rfl := hf hid
        decide
  constructor
  · have hanswer : State.answer? (circlingSetting ∅) circlingWrite 9 { work := [start] } =
        some true := by
      decide +kernel
    have hdead : isDead (circlingSetting ∅) circlingWrite ⟨⟨1⟩, ⟨1⟩, 0⟩ = .ok true := by
      rw [isDead, State.run_of_answer? hanswer, Option.getD_some]
    obtain ⟨hbegin, hcall⟩ := moves_circling ∅
    obtain ⟨hback, hagain, hout⟩ := moves_circling_unchecked
    obtain ⟨dead, hdead', hiff⟩ := hexact ∅
    cases hdead.symm.trans hdead'
    exact ⟨hdead, ⟨_, .single hbegin, .tail' (.head hcall hback) hagain,
      .head hcall (hback.trans hout)⟩, hiff.1 rfl⟩
  · obtain ⟨hbegin, hcall⟩ := moves_circling (.ofList [⟨4⟩])
    obtain ⟨dead, hdead, hiff⟩ := hexact (.ofList [⟨4⟩])
    have hread : Observes (circlingSetting (.ofList [⟨4⟩])) circlingWrite
        ⟨⟨⟨2⟩, ⟨4⟩, 0⟩, [⟨⟨1⟩, ⟨2⟩, 1⟩], some ∅⟩ := by
      refine .read ⟨rfl, rfl⟩ rfl (.load rfl (by decide) ?_)
      rintro ⟨-, -, hunchecked⟩
      exact hunchecked (by decide)
    cases dead with
    | false => exact hdead
    | true => exact absurd ⟨_, .tail (.single hbegin) hcall, hread⟩ (hiff.1 rfl)

/-! ## A search without end -/

/-- Where each state of a kind has a step to a state of that kind, the search does not end. -/
theorem run_eq_none {P : State → Prop}
    (hstep : ∀ s, P s → ∃ s', s.step q w = .ok (.more s') ∧ P s') (hs : P s) :
    s.run q w = none := by
  cases hrun : s.run q w with
  | none => rfl
  | some r =>
    refine (State.run.partial_correctness q w (fun s _ => ¬ P s) ?_ s r hrun hs).elim
    intro run ih s r hr hs
    obtain ⟨s', hs', hP⟩ := hstep s hs
    rw [hs'] at hr
    exact ih s' r hr hP

theorem enter?_of_get?_eq_none (h : s.explored.get? k.key = none) :
    s.enter? k = some { s with explored := s.explored.insert k.key [k.bits] } := by
  unfold State.enter?
  dsimp only
  rw [← Cursor.key, h]
  rfl

/-- A route from block to block that never comes back to pending returns it has had, as a measure
of them shows, is followed for ever. -/
theorem run_eq_none_of_route {Route : Cursor → Prop}
    (measure : ContextId × BlockId × List Place → Nat)
    (hroute : ∀ k, Route k → k.place.index = 0 ∧ ∃ k', Route k' ∧ measure k.key < measure k'.key ∧
      ∀ s : State, s.advance q w k = .ok (.more { s with work := k' :: s.work }))
    (hk : Route k) : ({ work := [k] } : State).run q w = none := by
  refine run_eq_none (P := fun s => ∃ k, Route k ∧ s.work = [k] ∧
    ∀ key, measure k.key ≤ measure key → s.explored.get? key = none) ?_
    ⟨k, hk, rfl, fun _ _ => rfl⟩
  rintro ⟨work, explored⟩ ⟨k, hk, rfl, hnew⟩
  obtain ⟨hindex, k', hk', hlt, hadvance⟩ := hroute k hk
  refine ⟨⟨[k'], explored.insert k.key [k.bits]⟩, ?_, k', hk', rfl, fun key hkey => ?_⟩
  · have henter := enter?_of_get?_eq_none (s := ⟨[], explored⟩) (hnew _ (Nat.le_refl _))
    simp only [State.step, hindex, if_true, henter]
    exact hadvance _
  · have hne : key ≠ k.key := by
      rintro rfl
      omega
    dsimp only at hnew ⊢
    rw [Table.get?_insert, if_neg hne]
    exact hnew key (by omega)

/-- The function 0 stores and calls the function 1. There the peel of the loop 0 is lost under a
later loop of the same name, whose peel goes on from iteration 2 to iteration 3: one of function 0,
which calls function 1 again. -/
def straying : Program where
  objects := .ofList [(⟨0⟩, ⟨⟨0⟩, .heap, some 4, none⟩)]
  contexts := .ofList [
    (⟨0⟩, {
      id := ⟨0⟩
      kind := .function ⟨0⟩ "main" []
      blocks := .ofList [(⟨0⟩, {
        id := ⟨0⟩
        insts := [⟨⟨0⟩, .store (.single ⟨0⟩ 0) 4, false, .none, true⟩,
          ⟨⟨1⟩, .call { callee := some ⟨1⟩ }, false, .none, true⟩]
        terminator := .ret })]
      regions := [.block ⟨0⟩]
      entry := ⟨0⟩ }),
    (⟨1⟩, {
      id := ⟨1⟩
      kind := .function ⟨1⟩ "f" [⟨1⟩, ⟨2⟩]
      parent := some ⟨0⟩
      blocks := .ofList [
        (⟨1⟩, { id := ⟨1⟩, succs := [⟨⟨5⟩, true⟩, ⟨⟨2⟩, false⟩] }),
        (⟨2⟩, { id := ⟨2⟩, succs := [⟨⟨3⟩, true⟩], preds := [⟨1⟩] }),
        (⟨3⟩, { id := ⟨3⟩, succs := [⟨⟨3⟩, true⟩, ⟨⟨4⟩, true⟩], preds := [⟨2⟩, ⟨3⟩] }),
        (⟨4⟩, { id := ⟨4⟩, terminator := .ret, preds := [⟨3⟩] })]
      regions := [
        .block ⟨1⟩,
        .loop { id := ⟨0⟩, preheader := ⟨1⟩, header := ⟨5⟩, latch := ⟨5⟩
                peel := some ⟨[⟨2⟩], true, true⟩ } [],
        .block ⟨2⟩,
        .loop { id := ⟨0⟩, preheader := ⟨2⟩, header := ⟨3⟩, latch := ⟨3⟩, blocks := .ofList [⟨3⟩]
                peel := some ⟨[⟨2⟩, ⟨3⟩], false, true⟩ } [.block ⟨3⟩],
        .block ⟨4⟩]
      entry := ⟨1⟩ }),
    (⟨2⟩, {
      id := ⟨2⟩
      kind := .iteration ⟨0⟩ 0 ⟨5⟩ ⟨5⟩
      parent := some ⟨1⟩
      blocks := .ofList [(⟨5⟩, { id := ⟨5⟩, succs := [⟨⟨5⟩, true⟩], preds := [⟨1⟩, ⟨5⟩] })]
      regions := [.block ⟨5⟩]
      entry := ⟨5⟩ }),
    (⟨3⟩, {
      id := ⟨3⟩
      kind := .iteration ⟨0⟩ 1 ⟨6⟩ ⟨6⟩
      parent := some ⟨0⟩
      blocks := .ofList [(⟨6⟩, {
        id := ⟨6⟩
        insts := [⟨⟨2⟩, .call { callee := some ⟨1⟩ }, false, .none, true⟩]
        succs := [⟨⟨6⟩, false⟩]
        preds := [⟨6⟩] })]
      regions := [.block ⟨6⟩]
      entry := ⟨6⟩ })]
  root := ⟨0⟩

/-- The search in this program, with nothing decided before. -/
def strayingSetting : Setting :=
  ⟨straying, (Layout.ofProgram straying).toOption.getD {}, ∅, ∅⟩

/-- Where the search comes by, with ever more pending returns. -/
inductive Strays : Cursor → Prop
  | callee (stack : List Place) : Strays ⟨⟨⟨1⟩, ⟨1⟩, 0⟩, stack, some ∅⟩
  | iteration (stack : List Place) : Strays ⟨⟨⟨2⟩, ⟨5⟩, 0⟩, stack, some ∅⟩
  | stray (stack : List Place) : Strays ⟨⟨⟨3⟩, ⟨6⟩, 0⟩, stack, some ∅⟩

/-- The store to the object 0. -/
def strayingWrite : Write := ⟨⟨0⟩, ⟨⟨0⟩, 0⟩, some 4, .heap⟩

theorem link_straying : straying.link = .ok straying :=
  Program.link_iff.2 ⟨by decide +kernel, strayingSetting.layout, rfl, rfl, by decide +kernel⟩

theorem Strays.advance (hk : Strays k) : k.place.index = 0 ∧ ∃ k', Strays k' ∧
    3 * k.stack.length + k.place.context.number < 3 * k'.stack.length + k'.place.context.number ∧
    ∀ s : State, s.advance strayingSetting strayingWrite k =
      .ok (.more { s with work := k' :: s.work }) := by
  cases hk with
  | callee stack => exact ⟨rfl, _, .iteration stack, by simp, fun _ => rfl⟩
  | iteration stack => exact ⟨rfl, _, .stray stack, by simp, fun _ => rfl⟩
  | stray stack =>
    exact ⟨rfl, _, .callee (⟨⟨3⟩, ⟨6⟩, 1⟩ :: stack), by simp; omega, fun _ => rfl⟩

theorem isDead_strayingSetting :
    isDead strayingSetting strayingWrite ⟨⟨0⟩, ⟨0⟩, 0⟩ = .error .endless := by
  have hrun : ({ work := [⟨⟨⟨1⟩, ⟨1⟩, 0⟩, [⟨⟨0⟩, ⟨0⟩, 2⟩], some ∅⟩] } : State).run strayingSetting
      strayingWrite = none :=
    run_eq_none_of_route (fun key => 3 * key.2.2.length + key.1.number)
      (fun _ => Strays.advance) (Strays.callee _)
  have hstep : ({ work := [⟨⟨⟨0⟩, ⟨0⟩, 1⟩, [], some ∅⟩] } : State).step strayingSetting
      strayingWrite = .ok (.more { work := [⟨⟨⟨1⟩, ⟨1⟩, 0⟩, [⟨⟨0⟩, ⟨0⟩, 2⟩], some ∅⟩] }) := rfl
  show (State.run _ _ { work := [⟨⟨⟨0⟩, ⟨0⟩, 1⟩, [], some ∅⟩] }).getD _ = _
  rw [State.run, hstep]
  dsimp only
  rw [hrun]
  rfl

/-- What the function of an instruction of `straying` is, and what it may call. -/
theorem contains_straying : ∀ f inst, straying.Contains strayingSetting.layout f inst →
    f = ⟨0⟩ ∧ (inst.op.callee? = none ∨ inst.op.callee? = some ⟨1⟩) := by
  refine of_contains ?_
  decide +kernel

/-- No function calls itself, and none returns to itself, through others or directly. Still the
search does not end: it leaves a function by an iteration that belongs to another one, with a
return more to come. -/
theorem isDead_endless_straying :
    straying.link = .ok strayingSetting.program ∧
      Layout.ofProgram strayingSetting.program = .ok strayingSetting.layout ∧
      strayingSetting.program.OwnNames ∧
      (∀ f d i, strayingSetting.program.contexts.get? f = some d → i ∈ d.callers →
        ∃ g inst, strayingSetting.program.Contains strayingSetting.layout g inst ∧ inst.id = i) ∧
      (∀ f, ¬ TransGen (strayingSetting.program.Inlines strayingSetting.layout) f f) ∧
      (∀ f, ¬ TransGen (strayingSetting.program.ReturnsTo strayingSetting.layout) f f) ∧
      Yields (strayingSetting.program.instruction ⟨⟨0⟩, ⟨0⟩, 0⟩) (fun inst =>
        Write.ofInstr? strayingSetting.program inst = some strayingWrite) ∧
      isDead strayingSetting strayingWrite ⟨⟨0⟩, ⟨0⟩, 0⟩ = .error .endless := by
  have hcallers : ∀ e ∈ straying.contexts.entries, ∀ i ∈ e.2.callers,
      e.1 = ⟨1⟩ ∧ (i = ⟨1⟩ ∨ i = ⟨2⟩) := by
    decide +kernel
  refine ⟨link_straying, rfl, ?_, ?_, not_transGen_self (fun f => f.number) ?_,
    not_transGen_self (fun f => 1 - f.number) ?_, by decide +kernel, isDead_strayingSetting⟩
  · intro f c hc
    exact (by decide +kernel : ∀ e ∈ straying.contexts.entries, e.2.id = e.1) _
      (Table.mem_entries.2 hc)
  · intro f d i hd hi
    obtain ⟨-, rfl | rfl⟩ := hcallers _ (Table.mem_entries.2 hd) i hi
    · exact ⟨_, _, ⟨⟨0⟩, _, ⟨0⟩, _, rfl, rfl, rfl, .tail _ (.head _)⟩, rfl⟩
    · exact ⟨_, _, ⟨⟨3⟩, _, ⟨6⟩, _, rfl, rfl, rfl, .head _⟩, rfl⟩
  · rintro f g ⟨inst, hinst, hcallee⟩
    obtain ⟨rfl, hnone | hsome⟩ := contains_straying _ _ hinst
    · cases hnone.symm.trans hcallee
    · cases hsome.symm.trans hcallee
      decide
  · rintro f g ⟨d, inst, hd, hi, hinst⟩
    obtain ⟨hf, -⟩ := hcallers _ (Table.mem_entries.2 hd) _ hi
    obtain ⟨rfl, -⟩ := contains_straying _ _ hinst
    dsimp only at hf
    rw [hf]
    decide

end ByteTrust.DeadStore
