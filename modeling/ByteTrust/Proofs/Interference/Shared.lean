import ByteTrust.Proofs.Interference.Abreast
import ByteTrust.Proofs.Interference.Completes
import ByteTrust.Proofs.Interference.Promotions
import ByteTrust.Proofs.Interference.Skips
import ByteTrust.Proofs.Snapshot.Compare

/-!
# Calls that are passed over

A function that was walked from one call is not walked again from another one: its reads keep the
needs that they have on the way from the first. Where the call that is passed over is reached with
at least the trust of a walk through the function, this loses nothing: what would need a check on
the way from there needs one already (`skipped_reads_checked`). Where it is reached with less, it
does: after a fence the bytes may not be trusted any more, and the read stays without a check
(`skipped_read_unchecked`).
-/

namespace ByteTrust

namespace Walk

open Relation Snapshot

variable {w : Setting} {W : Pairs} {H : List Snapshot} {s s' : State} {x y z : Snapshot}

/-! ## Runs to which no reference is missing -/

/-- No reference is missing, and no value was given up. -/
structure Intact (s : State) : Prop where
  missing : s.references.missing = ∅
  silenced : s.findings.silenced = ∅

theorem Intact.turn (h : Intact s) (hturn : Turn w s s') : Intact s' := by
  cases hturn with
  | quiet hbook =>
    have hmissing := congrArg (fun b => b.references.missing) hbook
    exact ⟨hmissing.trans h.missing, (congrArg Book.silenced hbook).trans h.silenced⟩
  | read _ _ hvisit =>
    rw [visitRead_eq h.missing] at hvisit
    cases hvisit
    exact ⟨h.missing, h.silenced⟩
  | promote _ _ _ hpromote =>
    rw [promote_eq h.missing] at hpromote
    cases hpromote
    exact h
  | silence _ _ _ hsilence =>
    rw [silence_eq h.missing] at hsilence
    cases hsilence
    exact h

theorem Intact.turns (h : Intact s) (hturns : ReflTransGen (Turn w) s s') : Intact s' := by
  induction hturns with
  | refl => exact h
  | tail _ hturn ih => exact ih.turn hturn

theorem intact_fresh (now : Stamp) : Intact { clock := now } := ⟨rfl, rfl⟩

/-- Where no value was given up, a read that needs a check on one of its visits has one in the
end. -/
theorem Accounted.must (hacc : Accounted w s) (hs : s.findings.silenced = ∅) {v : Visit}
    (hv : v ∈ s.visits) (hlocal : v.inst.threadLocal = false) (hmust : v.need w = .must) :
    s.findings.needs.get? v.inst.id = some .must := by
  have hle := need_le_strongest (w := w) hv
  rw [hmust] at hle
  have hfixed : ¬ (v.inst.threadLocal = true ∨ v.inst.id ∈ s.findings.silenced) := by
    rw [hlocal, hs]
    simp
  rw [hacc.needs v hv, settledNeed, if_neg hfixed]
  exact congrArg some hle.symm

/-! ## Walks that start abreast -/

/-- Every snapshot beside itself. -/
def diagonal (H : List Snapshot) : Pairs := H.map fun z => (z, z)

@[simp] theorem map_fst_diagonal (H : List Snapshot) : (diagonal H).map Prod.fst = H := by
  simp [diagonal, List.map_map, Function.comp_def]

@[simp] theorem map_snd_diagonal (H : List Snapshot) : (diagonal H).map Prod.snd = H := by
  simp [diagonal, List.map_map, Function.comp_def]

/-- A walk is abreast of itself, also when its visits are forgotten. -/
theorem abreast_self (hs : Kept s H) (hmissing : s.references.missing = ∅) :
    Abreast w (diagonal H) s { s with visits := [] } := by
  constructor
  · intro q hq
    obtain ⟨z, -, rfl⟩ := List.mem_map.1 hq
    exact Below.refl z
  · simpa using hs.history
  · simpa using hs.history
  · intro k
    have hbin : State.bin { s with visits := [] } k = s.bin k := by cases k <;> rfl
    exact ⟨diagonal (s.bin k), List.map_subset _ (hs.mem k), by simp, by simp [hbin]⟩
  · intro i
    cases s.findings.needs.get? i with
    | none => exact .none
    | some n => exact .some ⟨Need.le_refl n, id⟩
  · exact fun _ h => h
  · rfl
  · exact ⟨hmissing, hmissing⟩
  · exact fun _ hv => absurd hv List.not_mem_nil

/-- Two walks start abreast in one state, from a snapshot and a copy of one with more trust. -/
theorem abreast_copy (hs : Kept s H) (hmissing : s.references.missing = ∅) (hx : x ∈ H)
    (hy : y.Canonical) (hxy : Below x y) :
    Abreast w ((x, y.copy s.clock) :: diagonal H) s
      { s with clock := s.clock + 1, visits := [] } := by
  have hself : Abreast w (diagonal H) s { s with visits := [] } := abreast_self hs hmissing
  have hmem : x ∈ (diagonal H).map Prod.fst := by rwa [map_fst_diagonal]
  exact hself.add (hself.lower.forget (List.cons_subset.2 ⟨hmem, List.Subset.refl _⟩))
    (hself.upper.next (makes_copy hy)) (hxy.trans below_copy)

/-! ## Functions walked before -/

/-- The walk of a function that is begun in the state `s`, with `y` at the entry instead. Only its
own visits are listed. -/
def walkInstead (w : Setting) (depth : Nat) (c : ContextId) (loops : List ActiveLoop)
    (suppressed : Bool) (y : Snapshot) (s : State) : Except Fault (Option Snapshot × State) :=
  walkFunction w (walkContext w depth) c loops suppressed (y.copy s.clock)
    { s with clock := s.clock + 1, visits := [] }

/-- How that walk ends, at a depth that is enough for it. -/
def EndsInstead (w : Setting) (c : ContextId) (loops : List ActiveLoop) (suppressed : Bool)
    (y : Snapshot) (s : State) (r : Option Snapshot × State) : Prop :=
  ∃ depth, walkInstead w depth c loops suppressed y s = .ok r

theorem EndsInstead.unique {c : ContextId} {loops : List ActiveLoop} {suppressed : Bool}
    {r r' : Option Snapshot × State} (h : EndsInstead w c loops suppressed y s r)
    (h' : EndsInstead w c loops suppressed y s r') : r = r' := by
  obtain ⟨depth, h⟩ := h
  obtain ⟨depth', h'⟩ := h'
  have hdeepens {n : Nat} (hle : n ≤ max depth depth') :
      Deepens (walkFunction w (walkContext w n) c loops suppressed (y.copy s.clock))
        (walkFunction w (walkContext w (max depth depth')) c loops suppressed (y.copy s.clock)) :=
    deepens_walkFunction (deepens_walkContext hle) c loops suppressed _
  have hmax := (hdeepens (Nat.le_max_left depth depth')).eq_ok h
  have hmax' := (hdeepens (Nat.le_max_right depth depth')).eq_ok h'
  exact Except.ok.inj (hmax.symm.trans hmax')

/-- The read `i`, of memory that is shared with other threads, needs a check among these visits. -/
def ChecksAmong (w : Setting) (visits : List Visit) (i : InstId) : Prop :=
  ∃ v ∈ visits, v.inst.id = i ∧ v.inst.threadLocal = false ∧ v.need w = .must

instance (w : Setting) (visits : List Visit) (i : InstId) : Decidable (ChecksAmong w visits i) :=
  inferInstanceAs (Decidable (∃ v ∈ visits, _))

/-- In the walk with `y` at the entry the read `i` would need a check. -/
def WouldCheck (w : Setting) (c : ContextId) (loops : List ActiveLoop) (suppressed : Bool)
    (y : Snapshot) (s : State) (i : InstId) : Prop :=
  ∃ r, EndsInstead w c loops suppressed y s r ∧ ChecksAmong w r.2.visits i

/-- A main function and a function for it to call, of one block each. -/
def calling (main f : List Instr) : Program :=
  { straight [] with contexts := .ofList [oneBlock 0 main, oneBlock 1 f] }

/-- The walk through such a program. -/
def callingSetting (main f : List Instr) : Setting where
  program := calling main f
  layout := (Layout.ofProgram (calling main f)).toOption.getD {}
  settings := {}

/-- In a fresh run the function is walked from `z`, begun in the state `s₁`. The run comes to the
call `j` with `y`, passes it over, and ends in the state `s'`. -/
structure PassesOver (main f : List Instr) (j : Nat) (z : Snapshot) (s₁ : State) (y : Snapshot)
    (s' : State) : Prop where
  link : (calling main f).link = .ok (callingSetting main f).program
  run : ∃ out, Walk.run (callingSetting main f) (.trusting 0) { clock := 1 } = .ok (out, s')
  shared : (⟨1⟩, ⟨j⟩) ∈ s'.findings.sharedCalls
  walks : WalksFunction (callingSetting main f) (.trusting 0) { clock := 1 } ⟨1⟩ [] false z s₁
  skips : Skips (callingSetting main f) (.trusting 0) { clock := 1 } (⟨1⟩, ⟨j⟩) y

/-- The walk of the first instructions of the main block. -/
def startMain (w : Setting) (insts : List Instr) : Step (Option Snapshot) := do
  match ← pickUp ⟨0⟩ ⟨0⟩ with
  | none => return none
  | some x => walkInstrs w (walkContext w 2) ⟨⟨0⟩, [], false⟩ true insts x

/-- The state in which a fresh run comes to the main block. -/
def atMain : State := State.enter { clock := 2 } ⟨0⟩ ⟨0⟩ ((Snapshot.trusting 0).pushFrame 1 ⟨0⟩)

section Calling

variable {main f before rest : List Instr}

theorem comes_main (main f : List Instr) :
    Comes (callingSetting main f) (.trusting 0) { clock := 1 }
      ⟨2, .region ⟨⟨0⟩, [], false⟩ (.block ⟨0⟩), atMain⟩ := by
  have hnone (s : State) : walkRegions (callingSetting main f)
      (walkContext (callingSetting main f) 2) ⟨⟨0⟩, [], false⟩ [] s = .ok ((), s) := rfl
  exact ⟨3, _, rfl, .head (.body rfl) (.single (.region (hnone _)))⟩

theorem arrives_main {inst : Instr}
    (hconds : conditionsAt (callingSetting main f) ⟨0⟩ ⟨0⟩ = .ok [])
    (hmain : main = before ++ inst :: rest)
    (hstart : startMain (callingSetting main f) before atMain = .ok (some y, s)) :
    Arrives (callingSetting main f) 2 ⟨⟨0⟩, [], false⟩ ⟨0⟩ atMain inst y s := by
  obtain ⟨entering, s₁, hpick, hwalk⟩ := step_bind_eq_ok.1 hstart
  cases entering with
  | none => cases (step_pure_eq_ok.1 hwalk).1
  | some x => exact ⟨hconds, ⟨rfl, hpick, rfl⟩, hmain, hwalk⟩

/-- That a call is passed over, and what would be checked on the way from there, is seen by
computing the walk up to both calls. -/
theorem exists_passesOver {P : Snapshot → Snapshot → State → Prop} {i j k : Nat}
    (main f before between : List Instr)
    (hlink : (calling main f).link = .ok (callingSetting main f).program)
    (hconds : conditionsAt (callingSetting main f) ⟨0⟩ ⟨0⟩ = .ok [])
    (hmain : main = before ++ callOf i ⟨1⟩ :: (between ++ callOf j ⟨1⟩ :: rest)) (hij : i ≠ j)
    (h : Yields (startMain (callingSetting main f) before atMain) fun r =>
      Yields (startMain (callingSetting main f) (before ++ callOf i ⟨1⟩ :: between) atMain)
        fun r' => Yields (runTo (callingSetting main f) 3 (.trusting 0) { clock := 1 }) fun e =>
          r.2.firstCalls.get? ⟨1⟩ = none ∧ r'.2.firstCalls.get? ⟨1⟩ = some ⟨i⟩ ∧
          (⟨1⟩, ⟨j⟩) ∈ e.2.findings.sharedCalls ∧ ∃ z ∈ r.1.toList, ∃ y ∈ r'.1.toList,
            P z y e.2 ∧ Yields (walkInstead (callingSetting main f) 2 ⟨1⟩ [] false y
              { r.2 with firstCalls := r.2.firstCalls.insert ⟨1⟩ ⟨i⟩ }) fun would =>
                ChecksAmong (callingSetting main f) would.2.visits ⟨k⟩) :
    ∃ z s₁ y s', PassesOver main f j z s₁ y s' ∧ P z y s' ∧
      WouldCheck (callingSetting main f) ⟨1⟩ [] false y s₁ ⟨k⟩ := by
  obtain ⟨⟨_, s₁⟩, hfirst, ⟨_, s₂⟩, hsecond, ⟨out, s'⟩, hrun, hnone, hother, hshared, z, hz, y, hy,
    hP, would, hwould, hchecks⟩ := h
  cases Option.mem_toList.1 hz
  cases Option.mem_toList.1 hy
  have hmain' : main = (before ++ callOf i ⟨1⟩ :: between) ++ callOf j ⟨1⟩ :: rest := by
    simpa using hmain
  obtain ⟨depth, c, hc, hparts⟩ := comes_main main f
  have hcall := arrives_main hconds hmain hfirst
  have hcall' := arrives_main hconds hmain' hsecond
  refine ⟨z, _, y, s', ⟨hlink, ⟨out, run_eq_ok_iff.2 ⟨3, hrun⟩⟩, hshared,
    ⟨2, depth, c, hc, hparts.tail (.call hcall rfl ?_ rfl)⟩,
    ⟨depth, c, hc, hparts, hcall', rfl, rfl, hother, ?_⟩⟩, hP, would, ⟨2, hwould⟩, hchecks⟩
  · intro k hk
    cases hnone.symm.trans hk
  · exact fun h => hij (congrArg Ident.number h)

end Calling

end Walk

end ByteTrust
