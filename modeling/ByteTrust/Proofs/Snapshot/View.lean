import ByteTrust.Proofs.ByteSet
import ByteTrust.Proofs.Lookup
import ByteTrust.Snapshot.Basic

/-!
# The sheets of a snapshot, level by level

A *level* names a sheet by the number of frames around it, so that it keeps its name while inner
frames come and go: the shared sheet, or the frame with `d` frames around it. Each operation is
told by what it does to the owners of the frames, to the flag, and to the sheet at each level
(`at?_write`, `at?_pushFrame`, `at?_popFrame`, `at?_clobberAll`). The bytes trusted at a level
are `Snapshot.TrustsAt`, which agrees with `Snapshot.Trusts` (`trusts_iff_trustsAt`).
-/

namespace ByteTrust

namespace Snapshot

/-- A sheet of a snapshot, named from the outside. -/
inductive Level
  | shared
  /-- The frame with `d` frames around it. -/
  | frame (d : Nat)
deriving DecidableEq

/-- The sheet of the frame with `d` frames around it. -/
def frameAt? : List Frame → Nat → Option Sheet
  | [], _ => none
  | f :: fs, d => if d = fs.length then some f.sheet else frameAt? fs d

/-- The sheet at a level. -/
def at? (s : Snapshot) : Level → Option Sheet
  | .shared => some s.shared
  | .frame d => frameAt? s.frames d

/-- Byte `b` of object `o` is trusted on the sheet at a level. -/
def TrustsAt (s : Snapshot) (ℓ : Level) (o : ObjectId) (b : Nat) : Prop :=
  ∃ m, s.at? ℓ = some m ∧ m.Trusts s.othersClobbered o b

/-! ## Frames -/

theorem frameAt?_eq_none_iff {fs : List Frame} {d : Nat} :
    frameAt? fs d = none ↔ fs.length ≤ d := by
  induction fs with
  | nil => simp [frameAt?]
  | cons f fs ih =>
    simp only [frameAt?, List.length_cons]
    split
    · next h => simp [h]
    · rw [ih]
      omega

theorem frameAt?_cons_of_some {fs : List Frame} {d : Nat} {m : Sheet} (f : Frame)
    (h : frameAt? fs d = some m) : frameAt? (f :: fs) d = some m := by
  rw [frameAt?, if_neg, h]
  rintro rfl
  rw [frameAt?_eq_none_iff.2 (Nat.le_refl _)] at h
  cases h

theorem frameAt?_map (g : Frame → Frame) (h : Sheet → Sheet) (hg : ∀ f, (g f).sheet = h f.sheet)
    (fs : List Frame) (d : Nat) : frameAt? (fs.map g) d = (frameAt? fs d).map h := by
  induction fs with
  | nil => rfl
  | cons f fs ih =>
    simp only [List.map_cons, frameAt?, List.length_map]
    split
    · rw [hg, Option.map_some]
    · exact ih

/-- Counting from the inside and from the outside. -/
theorem frameAt?_of_lt {fs : List Frame} {i : Nat} (hi : i < fs.length) :
    frameAt? fs (fs.length - 1 - i) = (fs[i]?).map Frame.sheet := by
  induction fs generalizing i with
  | nil => simp at hi
  | cons f fs ih =>
    cases i with
    | zero => simp [frameAt?]
    | succ i =>
      simp only [List.length_cons] at hi
      have hne : (f :: fs).length - 1 - (i + 1) ≠ fs.length := by
        simp only [List.length_cons]
        omega
      rw [frameAt?, if_neg hne, List.getElem?_cons_succ, ← ih (by omega), List.length_cons]
      congr 1
      omega

@[simp] theorem length_owners (s : Snapshot) : s.owners.length = s.frames.length := by
  simp [owners]

/-- The level of a position in a snapshot with `n` frames. -/
def Position.level (n : Nat) : Position → Level
  | .shared => .shared
  | .frame i => if i < n then .frame (n - 1 - i) else .frame n

theorem sheet?_eq_at? (s : Snapshot) (pos : Position) :
    s.sheet? pos = s.at? (pos.level s.owners.length) := by
  cases pos with
  | shared => rfl
  | frame i =>
    rw [length_owners, Position.level]
    split
    · next hi => exact (frameAt?_of_lt hi).symm
    · next hi =>
      rw [sheet?, at?, List.getElem?_eq_none (by omega), frameAt?_eq_none_iff.2 (Nat.le_refl _)]
      rfl

theorem trusts_iff_trustsAt {s : Snapshot} {pos : Position} {o : ObjectId} {b : Nat} :
    s.Trusts pos o b ↔ s.TrustsAt (pos.level s.owners.length) o b := by
  rw [Trusts, TrustsAt, sheet?_eq_at?]

theorem at?_eq_none_iff {s : Snapshot} {ℓ : Level} :
    s.at? ℓ = none ↔ ∃ d, ℓ = .frame d ∧ s.owners.length ≤ d := by
  cases ℓ with
  | shared => simp [at?]
  | frame d => simp [at?, frameAt?_eq_none_iff]

/-! ## Slots -/

end Snapshot

open Snapshot in
/-- The level on which a slot is listed when the frames have these owners, innermost first. -/
def Slot.level : Slot → List ContextId → Level
  | .shared _, _ => .shared
  | .frame _ _, [] => .shared
  | .frame owner o, c :: cs =>
    if c = owner then .frame cs.length else level (.frame owner o) cs

namespace Snapshot

theorem sheetOf_eq (s : Snapshot) (slot : Slot) :
    s.at? (slot.level s.owners) = some (s.sheetOf slot) := by
  cases slot with
  | shared o => simp [Slot.level, at?, sheetOf]
  | frame owner o =>
    obtain ⟨stamp, shared, frames, flag⟩ := s
    simp only [owners, sheetOf]
    induction frames with
    | nil => rfl
    | cons f fs ih =>
      simp only [List.map_cons, Slot.level, List.find?_cons]
      by_cases h : f.owner = owner
      · simp [h, at?, frameAt?]
      · simp only [h, if_false, decide_false]
        rw [← ih]
        cases hl : Slot.level (.frame owner o) (fs.map Frame.owner) with
        | shared => rfl
        | frame d =>
          -- the frame of `owner` has fewer frames around it than `f`
          have hd : d ≠ fs.length := by
            rintro rfl
            rw [hl] at ih
            simp only [at?, frameAt?_eq_none_iff.2 (Nat.le_refl _)] at ih
            cases ih
          simp [at?, frameAt?, hd]

theorem writeFrame_spec (owner : ContextId) (o : ObjectId) (g : Sheet → Sheet)
    (fs : List Frame) :
    match writeFrame owner g fs with
    | none => Slot.level (.frame owner o) (fs.map Frame.owner) = .shared
    | some gs => gs.map Frame.owner = fs.map Frame.owner ∧
        ∃ d, Slot.level (.frame owner o) (fs.map Frame.owner) = .frame d ∧ d < fs.length ∧
          ∀ e, frameAt? gs e = if e = d then (frameAt? fs e).map g else frameAt? fs e := by
  induction fs with
  | nil => rfl
  | cons f fs ih =>
    by_cases h : f.owner = owner
    · simp only [writeFrame, h, if_true, List.map_cons, Slot.level, List.length_map]
      refine ⟨trivial, _, rfl, by simp, fun e => ?_⟩
      simp only [frameAt?]
      split <;> rfl
    · simp only [writeFrame, h, if_false, List.map_cons, Slot.level]
      cases hw : writeFrame owner g fs with
      | none =>
        rw [hw] at ih
        exact ih
      | some gs =>
        rw [hw] at ih
        obtain ⟨howners, d, hlevel, hd, hat⟩ := ih
        have hlen : gs.length = fs.length := by simpa using congrArg List.length howners
        refine ⟨by simp [howners], d, hlevel, by simp; omega, fun e => ?_⟩
        simp only [frameAt?, hlen, hat]
        split
        · rw [if_neg (by omega)]
        · rfl

/-! ## One lemma for each operation -/

section Operations

variable (s : Snapshot) (now : Stamp) (slot : Slot)
  (f : IdentMap .object ByteSet → IdentMap .object ByteSet)

@[simp] theorem owners_write : (s.write now slot f).owners = s.owners := by
  unfold write
  split
  · rfl
  · next owner o =>
    have hspec := writeFrame_spec owner o (fun m => m.write now f) s.frames
    split
    · next gs hw =>
      rw [hw] at hspec
      exact hspec.1
    · rfl

@[simp] theorem othersClobbered_write :
    (s.write now slot f).othersClobbered = s.othersClobbered := by
  unfold write
  split
  · rfl
  · split <;> rfl

@[simp] theorem stamp_write : (s.write now slot f).stamp = now := by
  unfold write
  split
  · rfl
  · split <;> rfl

/-- A write changes the sheet on which its slot is listed and no other. -/
theorem at?_write (ℓ : Level) : (s.write now slot f).at? ℓ =
    if ℓ = slot.level s.owners then (s.at? ℓ).map fun m => m.write now f else s.at? ℓ := by
  unfold write
  split
  · next o => cases ℓ <;> simp [at?, Slot.level]
  · next owner o =>
    have hspec := writeFrame_spec owner o (fun m => m.write now f) s.frames
    split
    · next gs hw =>
      rw [hw] at hspec
      obtain ⟨-, d, hlevel, -, hat⟩ := hspec
      rw [show Slot.level (.frame owner o) s.owners = .frame d from hlevel]
      cases ℓ with
      | shared => simp [at?]
      | frame e => simp [at?, hat]
    · next hw =>
      rw [hw] at hspec
      rw [show Slot.level (.frame owner o) s.owners = .shared from hspec]
      cases ℓ <;> simp [at?]

@[simp] theorem owners_pushFrame (c : ContextId) :
    (s.pushFrame now c).owners = c :: s.owners := rfl

@[simp] theorem othersClobbered_pushFrame (c : ContextId) :
    (s.pushFrame now c).othersClobbered = s.othersClobbered := rfl

theorem at?_pushFrame (c : ContextId) (ℓ : Level) : (s.pushFrame now c).at? ℓ =
    if ℓ = .frame s.owners.length then some (.blank now) else s.at? ℓ := by
  cases ℓ <;> simp [at?, pushFrame, frameAt?]

variable {s now} in
/-- Leaving a call takes the innermost level away and changes nothing else. -/
theorem popFrame_eq_ok {c : ContextId} {t : Snapshot} (h : s.popFrame now = .ok (c, t)) :
    s.owners = c :: t.owners ∧ t.stamp = now ∧ t.othersClobbered = s.othersClobbered ∧
      ∀ ℓ, t.at? ℓ = if ℓ = .frame t.owners.length then none else s.at? ℓ := by
  obtain ⟨stamp, shared, frames, flag⟩ := s
  cases frames with
  | nil => simp [popFrame] at h
  | cons g gs =>
    simp only [popFrame, Except.ok.injEq, Prod.mk.injEq] at h
    obtain ⟨rfl, rfl⟩ := h
    refine ⟨rfl, rfl, rfl, fun ℓ => ?_⟩
    cases ℓ with
    | shared => simp [at?]
    | frame d =>
      simp only [at?, frameAt?, Level.frame.injEq, length_owners]
      split
      · next hd => rw [frameAt?_eq_none_iff.2 (by omega)]
      · rfl

theorem exists_popFrame {c : ContextId} {cs : List ContextId} (h : s.owners = c :: cs) :
    ∃ t, s.popFrame now = .ok (c, t) := by
  obtain ⟨stamp, shared, frames, flag⟩ := s
  cases frames with
  | nil => simp [owners] at h
  | cons g gs =>
    simp only [owners, List.map_cons, List.cons.injEq] at h
    rw [← h.1]
    exact ⟨_, rfl⟩

@[simp] theorem owners_clobberAll : (s.clobberAll now).owners = s.owners := by
  simp [owners, clobberAll, List.map_map, Function.comp_def]

@[simp] theorem othersClobbered_clobberAll : (s.clobberAll now).othersClobbered = true := rfl

theorem at?_clobberAll (ℓ : Level) :
    (s.clobberAll now).at? ℓ = (s.at? ℓ).map fun m => m.clobber now := by
  cases ℓ with
  | shared => rfl
  | frame d => exact frameAt?_map _ _ (fun _ => rfl) _ _

@[simp] theorem owners_copy : (s.copy now).owners = s.owners := by
  simp [owners, copy, List.map_map, Function.comp_def]

theorem at?_copy (ℓ : Level) :
    (s.copy now).at? ℓ = (s.at? ℓ).map fun m => { m with stamp := now } := by
  cases ℓ with
  | shared => rfl
  | frame d => exact frameAt?_map _ (fun m => { m with stamp := now }) (fun _ => rfl) _ _

@[simp] theorem listed_clobber (m : Sheet) : (m.clobber now).listed = ∅ := by
  unfold Sheet.clobber
  split
  · next h => exact IdentMap.isEmpty_iff.1 h
  · rfl

end Operations

end Snapshot

end ByteTrust
