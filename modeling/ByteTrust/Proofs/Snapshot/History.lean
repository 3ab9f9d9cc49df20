import ByteTrust.Proofs.Snapshot.Meet

/-!
# Snapshots with a common history

Snapshots are made one after the other, each by operations on snapshots made before, with the time
of its making as the stamp of everything that is written. `History now H` says that the snapshots
`H` were made in this way before the time `now`. Then stamps are identities: two snapshots with
one stamp are equal, two sheets with one stamp at one level are equal, and every listed set is
canonical (`History.coherent`). So such snapshots meet exactly (`meetAll_exact`).

The invariant behind it is `Inherits`: what a snapshot made at time `now` does not have from an
earlier one bears the stamp `now`. Each operation keeps it.
-/

namespace ByteTrust

namespace Snapshot

variable {now later : Stamp} {H xs : List Snapshot} {s t : Snapshot}

/-- All stamps lie before `now`. -/
def Before (now : Stamp) (H : List Snapshot) : Prop :=
  ∀ s ∈ H, s.stamp < now ∧ ∀ ℓ m, s.at? ℓ = some m → m.stamp < now

/-- What `s` does not have from a snapshot of `H` was written at time `now`. -/
structure Inherits (now : Stamp) (H : List Snapshot) (s : Snapshot) : Prop where
  stamp : s ∈ H ∨ s.stamp = now
  sheet : ∀ ℓ m, s.at? ℓ = some m → (∃ t ∈ H, t.at? ℓ = some m) ∨ m.stamp = now
  canonical : ∀ ℓ m, s.at? ℓ = some m → m.Canonical

/-- What operations at time `now` make of the snapshots `H`. -/
inductive Makes (now : Stamp) (H : List Snapshot) : Snapshot → Prop
  /-- Another reference to a snapshot. -/
  | held {s : Snapshot} (hs : s ∈ H) : Makes now H s
  | trusting : Makes now H (.trusting now)
  | copy {s : Snapshot} (hs : Makes now H s) : Makes now H (s.copy now)
  | pushFrame {s : Snapshot} (hs : Makes now H s) (owner : ContextId) :
      Makes now H (s.pushFrame now owner)
  | popFrame {s t : Snapshot} {owner : ContextId} (hs : Makes now H s)
      (h : s.popFrame now = .ok (owner, t)) : Makes now H t
  | clobberAll {s : Snapshot} (hs : Makes now H s) : Makes now H (s.clobberAll now)
  | clobber {s : Snapshot} (hs : Makes now H s) (slot : Slot) : Makes now H (s.clobber now slot)
  /-- The trusted bytes of a slot are changed, by insertions or by removing all of them. -/
  | modify {s : Snapshot} (hs : Makes now H s) (slot : Slot) {f : ByteSet → ByteSet}
      (hf : ∀ bytes, bytes.Canonical → (f bytes).Canonical) : Makes now H (s.modify now slot f)
  | meet {xs : List Snapshot} {s : Snapshot} (hxs : ∀ x ∈ xs, x ∈ H)
      (h : meetAll now xs = .ok (some s)) : Makes now H s

/-- The snapshots `H` were made one after the other, the latest first, before the time `now`.
Others may have been made and given up. -/
inductive History : Stamp → List Snapshot → Prop
  | start (now : Stamp) : History now []
  | next {now : Stamp} {H : List Snapshot} {s : Snapshot} (h : History now H)
      (hs : Makes now H s) : History (now + 1) (s :: H)
  | wait {now later : Stamp} {H : List Snapshot} (h : History now H) (hle : now ≤ later) :
      History later H
  /-- Snapshots are given up. -/
  | forget {now : Stamp} {H H' : List Snapshot} (h : History now H) (hsub : H' ⊆ H) :
      History now H'

/-! ## Coherence from inheritance -/

theorem Before.mono (h : Before now H) (hle : now ≤ later) : Before later H := fun s hs =>
  ⟨Nat.lt_of_lt_of_le (h s hs).1 hle, fun ℓ m hm => Nat.lt_of_lt_of_le ((h s hs).2 ℓ m hm) hle⟩

theorem Coherent.inherits (hH : Coherent H) (hs : s ∈ H) (now : Stamp) : Inherits now H s :=
  ⟨.inl hs, fun _ _ hm => .inl ⟨s, hs, hm⟩, hH.canonical s hs⟩

/-- A snapshot that inherits from coherent earlier ones is coherent with them. -/
theorem Coherent.cons (hH : Coherent H) (hb : Before now H) (hs : Inherits now H s) :
    Coherent (s :: H) := by
  have hsame : ∀ t ∈ H, s.stamp = t.stamp → s = t := by
    intro t ht h
    rcases hs.stamp with hmem | hnow
    · exact hH.same s hmem t ht h
    · exact absurd ((h.symm.trans hnow) ▸ (hb t ht).1) (Nat.lt_irrefl _)
  have hsheet : ∀ t ∈ H, ∀ ℓ m n, s.at? ℓ = some m → t.at? ℓ = some n →
      m.stamp = n.stamp → m = n := by
    intro t ht ℓ m n hm hn h
    rcases hs.sheet ℓ m hm with ⟨u, hu, hum⟩ | hnow
    · exact hH.sheet u hu t ht ℓ m n hum hn h
    · exact absurd ((h.symm.trans hnow) ▸ (hb t ht).2 ℓ n hn) (Nat.lt_irrefl _)
  refine ⟨fun x hx y hy h => ?_, fun x hx y hy ℓ m n hm hn h => ?_, fun x hx => ?_⟩
  · rcases List.mem_cons.1 hx with rfl | hx' <;> rcases List.mem_cons.1 hy with rfl | hy'
    · rfl
    · exact hsame y hy' h
    · exact (hsame x hx' h.symm).symm
    · exact hH.same x hx' y hy' h
  · rcases List.mem_cons.1 hx with rfl | hx' <;> rcases List.mem_cons.1 hy with rfl | hy'
    · exact Option.some.inj (hm.symm.trans hn)
    · exact hsheet y hy' ℓ m n hm hn h
    · exact (hsheet x hx' ℓ n m hn hm h.symm).symm
    · exact hH.sheet x hx' y hy' ℓ m n hm hn h
  · rcases List.mem_cons.1 hx with rfl | hx'
    · exact hs.canonical
    · exact hH.canonical x hx'

theorem Before.cons (hb : Before now H) (hs : Inherits now H s) : Before (now + 1) (s :: H) := by
  intro x hx
  rcases List.mem_cons.1 hx with rfl | hx
  · constructor
    · rcases hs.stamp with hmem | hnow
      · exact Nat.lt_succ_of_lt (hb x hmem).1
      · exact hnow ▸ Nat.lt_succ_self _
    · intro ℓ m hm
      rcases hs.sheet ℓ m hm with ⟨u, hu, hum⟩ | hnow
      · exact Nat.lt_succ_of_lt ((hb u hu).2 ℓ m hum)
      · exact hnow ▸ Nat.lt_succ_self _
  · exact hb.mono (Nat.le_succ now) x hx

/-! ## The operations -/

theorem inherits_trusting : Inherits now H (.trusting now) := by
  refine ⟨.inr rfl, fun ℓ m hm => ?_, fun ℓ m hm => ?_⟩ <;> cases ℓ
  · cases hm
    exact .inr rfl
  · cases hm
  · cases hm
    exact Sheet.canonical_blank now
  · cases hm

theorem Inherits.copy (hs : Inherits now H s) : Inherits now H (s.copy now) := by
  refine ⟨.inr rfl, fun ℓ m hm => ?_, fun ℓ m hm => ?_⟩
  all_goals
    rw [at?_copy, Option.map_eq_some_iff] at hm
    obtain ⟨n, hn, rfl⟩ := hm
  · exact .inr rfl
  · exact hs.canonical ℓ n hn

theorem Inherits.pushFrame (hs : Inherits now H s) (owner : ContextId) :
    Inherits now H (s.pushFrame now owner) := by
  refine ⟨.inr rfl, fun ℓ m hm => ?_, fun ℓ m hm => ?_⟩
  all_goals
    rw [at?_pushFrame] at hm
    split at hm
  · cases hm
    exact .inr rfl
  · exact hs.sheet ℓ m hm
  · cases hm
    exact Sheet.canonical_blank now
  · exact hs.canonical ℓ m hm

theorem Inherits.popFrame {owner : ContextId} (hs : Inherits now H s)
    (h : s.popFrame now = .ok (owner, t)) : Inherits now H t := by
  obtain ⟨-, hstamp, -, hat⟩ := popFrame_eq_ok h
  refine ⟨.inr hstamp, fun ℓ m hm => ?_, fun ℓ m hm => ?_⟩
  all_goals
    rw [hat] at hm
    split at hm
  · cases hm
  · exact hs.sheet ℓ m hm
  · cases hm
  · exact hs.canonical ℓ m hm

theorem Inherits.clobberAll (hs : Inherits now H s) : Inherits now H (s.clobberAll now) := by
  refine ⟨.inr rfl, fun ℓ m hm => ?_, fun ℓ m hm => ?_⟩
  all_goals
    rw [at?_clobberAll, Option.map_eq_some_iff] at hm
    obtain ⟨n, hn, rfl⟩ := hm
  · unfold Sheet.clobber
    split
    · exact hs.sheet ℓ n hn
    · exact .inr rfl
  · intro o bytes h
    rw [listed_clobber] at h
    cases h

theorem Inherits.write (hs : Inherits now H s) (slot : Slot)
    {f : IdentMap .object ByteSet → IdentMap .object ByteSet}
    (hf : ∀ m : Sheet, m.Canonical → (m.write now f).Canonical) :
    Inherits now H (s.write now slot f) := by
  refine ⟨.inr (stamp_write ..), fun ℓ m hm => ?_, fun ℓ m hm => ?_⟩
  all_goals
    rw [at?_write] at hm
    split at hm
  · obtain ⟨n, -, rfl⟩ := Option.map_eq_some_iff.1 hm
    exact .inr rfl
  · exact hs.sheet ℓ m hm
  · obtain ⟨n, hn, rfl⟩ := Option.map_eq_some_iff.1 hm
    exact hf n (hs.canonical ℓ n hn)
  · exact hs.canonical ℓ m hm

theorem Inherits.modify (hs : Inherits now H s) (slot : Slot) {f : ByteSet → ByteSet}
    (hf : ∀ bytes, bytes.Canonical → (f bytes).Canonical) :
    Inherits now H (s.modify now slot f) := by
  refine hs.write slot fun m hm o bytes h => ?_
  simp only [Sheet.write, IdentMap.get?_insert] at h
  split at h
  · obtain rfl := Option.some.inj h
    apply hf
    cases hg : m.listed.get? slot.object with
    | none => exact ByteSet.canonical_empty
    | some old => exact hm _ old hg
  · exact hm o bytes h

theorem Inherits.clobber (hs : Inherits now H s) (slot : Slot) :
    Inherits now H (s.clobber now slot) := by
  unfold Snapshot.clobber
  split
  · split
    · refine hs.write slot fun m hm o bytes h => ?_
      simp only [Sheet.write, IdentMap.get?_erase] at h
      split at h
      · cases h
      · exact hm o bytes h
    · exact hs
  · exact hs.modify slot fun _ _ => ByteSet.canonical_empty

/-- A meet of coherent snapshots inherits from them. -/
theorem Coherent.inherits_meetAll {xs : List Snapshot} (hH : Coherent H) (hxs : ∀ x ∈ xs, x ∈ H)
    (h : meetAll now xs = .ok (some s)) : Inherits now H s := by
  obtain ⟨-, t, ht, hrenews⟩ := (hH.mono hxs).isMeet h
  refine ⟨?_, fun ℓ m hm => ?_, fun ℓ m hm => (hrenews.sheet ℓ m hm).1⟩
  · exact hrenews.stamp.imp_left fun (h : s = t) => h ▸ hxs t ht
  · exact (hrenews.sheet ℓ m hm).2.imp_left fun h => ⟨t, hxs t ht, h⟩

theorem Makes.inherits (hH : Coherent H) (hs : Makes now H s) : Inherits now H s := by
  induction hs with
  | held hs => exact hH.inherits hs now
  | trusting => exact inherits_trusting
  | copy _ ih => exact ih.copy
  | pushFrame _ owner ih => exact ih.pushFrame owner
  | popFrame _ h ih => exact ih.popFrame h
  | clobberAll _ ih => exact ih.clobberAll
  | clobber _ slot ih => exact ih.clobber slot
  | modify _ slot hf ih => exact ih.modify slot hf
  | meet hxs h => exact hH.inherits_meetAll hxs h

/-- Snapshots with a common history are coherent, with stamps before the present time. -/
theorem History.coherent (h : History now H) : Coherent H ∧ Before now H := by
  induction h with
  | start now => exact ⟨⟨by simp, by simp, by simp⟩, by simp [Before]⟩
  | next _ hs ih =>
    obtain ⟨hcoh, hbefore⟩ := ih
    exact ⟨hcoh.cons hbefore (hs.inherits hcoh), hbefore.cons (hs.inherits hcoh)⟩
  | wait _ hle ih => exact ⟨ih.1, ih.2.mono hle⟩
  | forget _ hsub ih => exact ⟨ih.1.mono hsub, fun s hs => ih.2 s (hsub hs)⟩

/-! ## Copies -/

/-- One sheet of a snapshot is filled, slot by slot. -/
theorem Makes.fill {g : IdentMap .object ByteSet → Snapshot} {k : ObjectId → Slot}
    (hk : ∀ o, (k o).object = o) (hg : ∀ m o f, (g m).write now (k o) f = g (f m))
    (hempty : Makes now H (g ∅)) (m : IdentMap .object ByteSet)
    (hm : ∀ o bytes, m.get? o = some bytes → bytes.Canonical) : Makes now H (g m) := by
  induction m using IdentMap.insert_induction with
  | hempty => exact hempty
  | hinsert m o bytes hnew ih =>
    have hfilled : Makes now H (g m) := by
      refine ih fun p old hp => hm p old ?_
      rw [IdentMap.get?_insert, if_neg, hp]
      rintro rfl
      cases hp.symm.trans hnew
    have hbytes : bytes.Canonical := hm o bytes (by rw [IdentMap.get?_insert, if_pos rfl])
    have hmodify : (g m).modify now (k o) (fun _ => bytes) = g (m.insert o bytes) := by
      rw [Snapshot.modify, hg, hk]
    exact hmodify ▸ hfilled.modify (k o) fun _ _ => hbytes

/-- A copy can be made of every canonical snapshot, wherever it comes from: the frames are entered
from the outermost one, and each sheet is filled. -/
theorem makes_copy (hs : ∀ ℓ m, s.at? ℓ = some m → m.Canonical) : Makes now H (s.copy now) := by
  obtain ⟨stamp, shared, frames, flag⟩ := s
  induction frames with
  | nil =>
    refine Makes.fill (g := fun m => ⟨now, ⟨now, m⟩, [], flag⟩) (k := .shared) (fun _ => rfl)
      (fun _ _ _ => rfl) ?_ shared.listed (hs .shared shared rfl)
    cases flag with
    | false => exact .trusting
    | true => exact .clobberAll .trusting
  | cons f fs ih =>
    have hrest : Makes now H (Snapshot.copy ⟨stamp, shared, fs, flag⟩ now) := by
      refine ih fun ℓ m hm => hs ℓ m ?_
      cases ℓ with
      | shared => exact hm
      | frame d => exact frameAt?_cons_of_some f hm
    have hcopy := hrest.pushFrame f.owner
    refine Makes.fill (g := fun m => { Snapshot.copy ⟨stamp, shared, fs, flag⟩ now with
        frames := ⟨f.owner, ⟨now, m⟩⟩ :: (Snapshot.copy ⟨stamp, shared, fs, flag⟩ now).frames })
      (k := .frame f.owner) (fun _ => rfl) (fun m o h => ?_) hcopy f.sheet.listed
      (hs (.frame fs.length) f.sheet (if_pos rfl))
    simp [write, writeFrame, Sheet.write, Snapshot.copy]

/-! ## Meets of snapshots with a common history -/

/-- A byte is trusted at a position of a meet exactly when it is trusted there by all. -/
theorem IsMeet.trusts_iff {xs : List Snapshot} {m : Snapshot} (h : IsMeet xs m)
    (pos : Position) (o : ObjectId) (b : Nat) :
    m.Trusts pos o b ↔ ∀ x ∈ xs, x.Trusts pos o b := by
  rw [trusts_iff_trustsAt, h.trusts]
  refine forall₂_congr fun x hx => ?_
  rw [trusts_iff_trustsAt, h.owners x hx]

/-- Snapshots with a common history, whatever they share, meet exactly: with the same frames they
have a meet, which trusts what all of them trust; with different frames they have none. -/
theorem meetAll_exact (h : History now H) (hxs : ∀ x ∈ s :: xs, x ∈ H) (later : Stamp) :
    ((∀ x ∈ xs, x.owners = s.owners) →
      ∃ m, meetAll later (s :: xs) = .ok (some m) ∧ m.owners = s.owners ∧
        (m.othersClobbered = true ↔ ∃ x ∈ s :: xs, x.othersClobbered = true) ∧
        ∀ pos o b, m.Trusts pos o b ↔ ∀ x ∈ s :: xs, x.Trusts pos o b) ∧
    ((∃ x ∈ xs, x.owners ≠ s.owners) →
      ∃ left right, meetAll later (s :: xs) = .error (.frameMismatch left right)) := by
  have hcoh := h.coherent.1.mono hxs
  refine ⟨fun howners => ?_, fun hne => hcoh.meetAll_eq_error hne later⟩
  obtain ⟨m, hm, hmeet, -⟩ := hcoh.meetAll_eq_ok howners later
  refine ⟨m, hm, (hmeet.owners s List.mem_cons_self).symm, ?_, hmeet.trusts_iff⟩
  rw [hmeet.flag, List.any_eq_true]

/-- After a snapshot that trusts everything meets itself with all but four bytes clobbered, the
four bytes are trusted and a fifth one is not. -/
theorem meetAll_exact_partial :
    let all := trusting 0
    let some4 := (all.clobberAll 1).modify 1 (.shared ⟨7⟩) (·.insert ⟨0, 4⟩)
    History 2 [some4, all] ∧ ∃ m, meetAll 2 [all, some4] = .ok (some m) ∧
      m.Trusts .shared ⟨7⟩ 3 ∧ ¬ m.Trusts .shared ⟨7⟩ 4 := by
  intro all some4
  have hhist : History 2 [some4, all] :=
    ((History.start 0).next .trusting).next
      ((Makes.clobberAll (.held List.mem_cons_self)).modify _ fun _ h => h.insert _)
  have hmem : ∀ x ∈ [all, some4], x ∈ [some4, all] := by simp
  obtain ⟨m, hm, -, -, htrust⟩ := (meetAll_exact hhist hmem 2).1 (by decide)
  refine ⟨hhist, m, hm, (htrust _ _ _).2 ?_, fun h => ?_⟩
  · rw [List.forall_mem_cons, List.forall_mem_singleton]
    exact ⟨⟨_, rfl, rfl⟩, _, rfl, (by decide : 3 ∈ ByteSet.ofRange ⟨0, 4⟩)⟩
  · obtain ⟨n, hn, hn'⟩ := (htrust _ _ _).1 h some4 (by simp)
    cases hn
    exact (by decide : 4 ∉ ByteSet.ofRange ⟨0, 4⟩) hn'

end Snapshot

end ByteTrust
