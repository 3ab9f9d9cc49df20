import ByteTrust.Proofs.DeadStore.Silenced
import ByteTrust.Proofs.Interference.Stale

/-!
# Loads that a search passes by

A load of bytes of the write is no reader of it when it is replaced by its known value: every piece
of the value is known, the load is emitted, and it is not checked. The search goes on past the load
just then, and a write that is called dead has no other loads on its paths. So each byte that a
piece lists is known, and memory has no influence on it (`load_passed_iff`). Bytes that no piece
lists are not asked for: a value with gaps counts as known, and a write to a gap is called dead
although the load reads it (`gap_overlooked`).
-/

namespace ByteTrust

open Relation (ReflTransGen)

/-- The value is given piece by piece, and no piece has byte `b` in a read from `base`. -/
def ReadValue.Omits (base : Pointer) (b : Nat) : ReadValue → Prop
  | .pieces ps => ∀ piece ∈ ps, ¬ (base.offset + piece.start ≤ b ∧ b < base.offset + piece.stop)
  | _ => False

/-- A value that counts as known is known for every byte, except where it has gaps. -/
theorem ReadValue.covers_of_isFullyKnown {result : ReadValue} (h : result.isFullyKnown = true)
    {base : Pointer} {size b : Nat} (hstart : base.offset ≤ b) (hstop : b < base.offset + size)
    (hlisted : ¬ result.Omits base b) : result.Covers size base b := by
  cases result with
  | unknown => cases h
  | known v => exact ⟨hstart, hstop⟩
  | pieces ps =>
    simp only [Omits, not_forall, not_not] at hlisted
    obtain ⟨piece, hpiece, hstart, hstop⟩ := hlisted
    have hall := (Bool.and_eq_true_iff.1 h).2
    exact ⟨piece, hpiece, List.all_eq_true.1 hall piece hpiece, hstart, hstop⟩

namespace DeadStore

variable {q : Setting} {w : Write} {c : Context} {inst : Instr} {ptr : PointerValue} {size : Nat}
  {ordering : AccessOrdering} {result : ReadValue}

/-- The load `i` of `c` is replaced by its value. -/
structure Replaces (q : Setting) (c : Context) (i : InstId) (result : ReadValue) : Prop where
  known : result.isFullyKnown = true
  emitted : c.materialized = true
  unchecked : i ∉ q.checked

theorem isReplaced_eq_true_iff {key : ContextId} {i : InstId} :
    isReplaced q key i result = .ok true ↔
      ∃ c, q.program.context key = .ok c ∧ Replaces q c i result := by
  cases hc : q.program.contexts.get? key with
  | none =>
    have hcontext (c : Context) : q.program.context key ≠ .ok c := by
      rw [ne_eq, Program.context_eq_ok, hc]
      rintro ⟨⟩
    refine iff_of_false (fun h => ?_) fun ⟨c, h, _⟩ => hcontext c h
    unfold isReplaced at h
    split at h
    · obtain ⟨c, h, -⟩ := bind_eq_ok.1 h
      exact hcontext c h
    · cases h
  | some c =>
    obtain ⟨b, hb, hiff⟩ := isReplaced_eq_ok hc i result
    rw [hb, Except.ok.injEq, hiff]
    constructor
    · rintro ⟨hknown, hemitted, hunchecked⟩
      exact ⟨c, Program.context_eq_ok.2 hc, hknown, hemitted, hunchecked⟩
    · rintro ⟨c', hc', hreplaces⟩
      cases hc.symm.trans (Program.context_eq_ok.1 hc')
      exact ⟨hreplaces.known, hreplaces.emitted, hreplaces.unchecked⟩

theorem visitInstr_load_iff (hop : inst.op = .load ptr size ordering result)
    (halias : w.mayAlias ptr (some size) = true) {key : ContextId} {bits bits' : Overwritten} :
    visitInstr q w key inst bits = .ok (.goOn bits') ↔
      bits' = bits ∧ isReplaced q key inst.id result = .ok true := by
  simp only [visitInstr, hop]
  cases isReplaced q key inst.id result with
  | error fault => simp
  | ok hidden =>
    rw [ok_bind, visitRead, halias, Bool.and_true]
    cases hidden <;> simp [eq_comm (a := bits)]

/-- The search goes on past a load of bytes of the write if and only if the load is replaced by its
value. All loads on the paths of a search that calls the write dead are replaced. What is loaded is
known then, except for bytes that no piece of the value has. -/
theorem load_passed_iff (hop : inst.op = .load ptr size ordering result)
    (halias : w.mayAlias ptr (some size) = true) :
    (∀ key bits bits', visitInstr q w key inst bits = .ok (.goOn bits') ↔
      bits' = bits ∧ ∃ c, q.program.context key = .ok c ∧ Replaces q c inst.id result) ∧
    (∀ place, isDead q w place = .ok true → ∀ k c block,
      ReflTransGen (Moves q w) ⟨{ place with index := place.index + 1 }, [], w.fresh⟩ k →
      Stands q k c block → block.insts[k.place.index]? = some inst →
      Replaces q c inst.id result) ∧
    (∀ c, Replaces q c inst.id result → ∀ (target : Pointer) (b : Nat), target.offset ≤ b →
      b < target.offset + size → ¬ result.Omits target b → result.Covers size target b) := by
  refine ⟨fun key bits bits' => ?_, fun place hdead k c block hpath hk hinst => ?_,
    fun c hreplaces target b hstart hstop hlisted => ?_⟩
  · rw [visitInstr_load_iff hop halias, isReplaced_eq_true_iff]
  · by_contra hkept
    refine not_leaks_of_isDead hdead ⟨k, hpath, .read hk hinst (.load hop halias ?_)⟩
    rintro ⟨hknown, hemitted, hunchecked⟩
    exact hkept ⟨hknown, hemitted, hunchecked⟩
  · exact ReadValue.covers_of_isFullyKnown hreplaces.known hstart hstop hlisted

section Stored

open Walk (fenceAt loadAll)

/-- The search for readers of what is stored, where nothing is checked. -/
def storedSearch (result : ReadValue) : Setting :=
  ⟨storedThenLoaded result, storedLayout result, ∅, ∅⟩

/-- The path from the store to the load. -/
theorem moves_stored (result : ReadValue) :
    ReflTransGen (Moves (storedSearch result) storedWrite)
      ⟨⟨⟨0⟩, ⟨0⟩, 1⟩, [], storedWrite.fresh⟩ ⟨⟨⟨0⟩, ⟨0⟩, 2⟩, [], storedWrite.fresh⟩ := by
  have hop : (fenceAt 1).op = .fence := rfl
  refine .single (.past ⟨rfl, rfl⟩ (rfl : _ = some (fenceAt 1)) ?_ ?_ ?_ rfl)
  · exact not_reads hop rfl (by simp)
  · exact not_frees hop (by simp)
  · rintro f ⟨site, hcall, -⟩
    cases hop.symm.trans hcall

/-- The store is dead if the search gets to the end of the object. -/
theorem isDead_stored {result : ReadValue}
    (h : State.step (storedSearch result) storedWrite
      { work := [⟨⟨⟨0⟩, ⟨0⟩, 1⟩, [], storedWrite.fresh⟩] } = .ok (.more { work := [] })) :
    isDead (storedSearch result) storedWrite ⟨⟨0⟩, ⟨0⟩, 0⟩ = .ok true := by
  rw [isDead, State.run, h]
  show (State.run _ _ { work := [] }).getD _ = _
  rw [State.run]
  rfl

/-- The load is given in two halves, which are both known. -/
theorem load_passed_iff_halves :
    let result : ReadValue := .pieces [⟨0, 4, some (.scalar 1)⟩, ⟨4, 8, some (.scalar 2)⟩]
    isDead (storedSearch result) storedWrite ⟨⟨0⟩, ⟨0⟩, 0⟩ = .ok true ∧
      ∀ b < 8, result.Covers 8 ⟨⟨0⟩, 0⟩ b := by
  intro result
  have hdead := isDead_stored (rfl : State.step (storedSearch result) _ _ = _)
  have hload : (loadAll 2 result).op = .load (.single ⟨0⟩ 0) 8 .plain result := rfl
  obtain ⟨-, hpaths, hbytes⟩ := load_passed_iff (q := storedSearch result) (w := storedWrite) hload
    (by decide)
  have hreplaces := hpaths _ hdead _ _ _ (moves_stored result) ⟨rfl, rfl⟩ rfl
  refine ⟨hdead, fun b hb => hbytes _ hreplaces ⟨⟨0⟩, 0⟩ b (by simp) (by simpa using hb) ?_⟩
  intro homits
  have hfirst := homits _ (.head _)
  have hsecond := homits _ (.tail _ (.head _))
  dsimp only at hfirst hsecond
  omega

/-- Only the first half of what is loaded has a value. The load is passed by, and the store is
called dead. -/
theorem gap_overlooked :
    let result : ReadValue := .pieces [⟨0, 4, some (.scalar 1)⟩]
    Yields (sweep (storedThenLoaded result) (storedLayout result) {} ∅)
        (·.get? ⟨0⟩ = some .dead) ∧
      visitInstr (storedSearch result) storedWrite ⟨0⟩ (loadAll 2 result) storedWrite.fresh =
        .ok (.goOn storedWrite.fresh) ∧
      storedWrite.mayAlias (.single ⟨0⟩ 0) (some 8) = true ∧ ¬ result.Covers 8 ⟨⟨0⟩, 0⟩ 4 := by
  intro result
  have hdead := isDead_stored (rfl : State.step (storedSearch result) _ _ = _)
  refine ⟨⟨_, sweep_stored hdead, IdentMap.get?_insert ..⟩, rfl, by decide, ?_⟩
  rintro ⟨piece, hpiece, hcovers⟩
  obtain rfl := List.mem_singleton.1 hpiece
  exact absurd hcovers.lt_stop (by decide)

end Stored

end DeadStore

end ByteTrust
