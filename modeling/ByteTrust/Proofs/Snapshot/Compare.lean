import ByteTrust.Proofs.Snapshot.Trust
import ByteTrust.Snapshot.Order

/-!
# Comparing snapshots

`Snapshot.isBelow` goes through the listed objects only. For canonical snapshots it decides the
order of trust, in which every byte of every object counts (`isBelow_iff`): there is always an
object that neither snapshot lists, so the flags can be told from the bytes.
-/

namespace ByteTrust

variable {m n : Sheet} {f g : Bool}

/-- A canonical set without a range is one without a byte. -/
theorem ByteSet.Canonical.isEmpty_iff {s : ByteSet} (h : s.Canonical) :
    s.isEmpty = true ↔ ∀ b, b ∉ s := by
  refine ⟨fun hs b => not_mem_of_isEmpty hs, fun hs => ?_⟩
  obtain ⟨rs⟩ := s
  cases rs with
  | nil => rfl
  | cons r rs => exact (hs r.start (start_mem_cons h)).elim

theorem Sheet.isBelow_iff (hm : m.Canonical) (hn : n.Canonical) :
    (f || !g) = true ∧ m.isBelow f n g = true ↔ ∀ o b, m.Trusts f o b → n.Trusts g o b := by
  simp only [isBelow, Bool.and_eq_true, List.all_eq_true, Prod.forall, IdentMap.mem_entries,
    IdentMap.mem_keys, Bool.or_eq_true, Bool.not_eq_true', forall_exists_index]
  constructor
  · rintro ⟨hflag, hlisted, hunlisted⟩ o b hb
    unfold Trusts at hb ⊢
    cases hmo : m.listed.get? o with
    | some bytes =>
      rw [hmo] at hb
      have hle := hlisted o bytes hmo
      cases hno : n.listed.get? o with
      | some bytes' =>
        rw [hno] at hle
        exact (hn o bytes' hno).subset_iff.1 hle b hb
      | none =>
        rw [hno] at hle
        simp only [Bool.or_eq_true, Bool.not_eq_true'] at hle
        exact hle.resolve_right fun hempty => ByteSet.not_mem_of_isEmpty hempty hb
    | none =>
      rw [hmo] at hb
      cases hno : n.listed.get? o with
      | some bytes' =>
        have := hunlisted o bytes' hno
        simp [IdentMap.contains, hmo, hb] at this
      | none => simpa [hb] using hflag
  · intro h
    refine ⟨?_, fun o bytes hmo => ?_, fun o bytes' hno => ?_⟩
    · obtain ⟨o, hmo, hno⟩ := Snapshot.exists_unlisted m n
      have := h o 0
      simp only [Trusts, hmo, hno] at this
      cases f with
      | true => exact .inl rfl
      | false => exact .inr (this rfl)
    · have hb (b : Nat) (hb : b ∈ bytes) : n.Trusts g o b := h o b (by rw [Trusts, hmo]; exact hb)
      unfold Trusts at hb
      cases hno : n.listed.get? o with
      | some bytes' =>
        simp only [hno] at hb
        exact (hn o bytes' hno).subset_iff.2 hb
      | none =>
        simp only [hno] at hb
        simp only [Bool.or_eq_true, Bool.not_eq_true', (hm o bytes hmo).isEmpty_iff]
        by_cases hg : g = false
        · exact .inl hg
        · exact .inr fun b hmem => hg (hb b hmem)
    · cases hmo : m.listed.get? o with
      | some bytes => exact .inl (by simp [IdentMap.contains, hmo])
      | none =>
        right
        by_contra hf
        obtain ⟨b, hb⟩ := bytes'.exists_not_mem
        have := h o b (by rw [Trusts, hmo]; simpa using hf)
        rw [Trusts, hno] at this
        exact hb this

namespace Snapshot

variable {s t : Snapshot}

/-- Frames that stand at one position of two lists are those with as many frames around them. -/
theorem all_zip_iff {fs gs : List Frame} (h : fs.length = gs.length) {P : Sheet → Sheet → Prop} :
    (∀ e ∈ fs.zip gs, P e.1.sheet e.2.sheet) ↔
      ∀ d m n, frameAt? fs d = some m → frameAt? gs d = some n → P m n := by
  induction fs generalizing gs with
  | nil => simp [frameAt?]
  | cons a fs ih =>
    cases gs with
    | nil => cases h
    | cons b gs =>
      have hlen : fs.length = gs.length := Nat.succ.inj h
      rw [List.zip_cons_cons, List.forall_mem_cons, ih hlen]
      constructor
      · rintro ⟨hhead, htail⟩ d m n hm hn
        rw [frameAt?] at hm hn
        split at hm
        · next hd =>
          rw [if_pos (hd.trans hlen)] at hn
          cases hm
          cases hn
          exact hhead
        · next hd =>
          rw [if_neg (hlen ▸ hd)] at hn
          exact htail d m n hm hn
      · intro hall
        refine ⟨hall fs.length _ _ (by simp [frameAt?]) (by simp [frameAt?, hlen]), ?_⟩
        exact fun d m n hm hn =>
          hall d m n (frameAt?_cons_of_some a hm) (frameAt?_cons_of_some b hn)

/-- Snapshots are compared level by level. -/
theorem isBelow_iff_levels : s.isBelow t = true ↔ s.owners = t.owners ∧
    (s.othersClobbered || !t.othersClobbered) = true ∧ ∀ ℓ m n, s.at? ℓ = some m →
      t.at? ℓ = some n → m.isBelow s.othersClobbered n t.othersClobbered = true := by
  simp only [isBelow, Bool.and_eq_true, decide_eq_true_eq, List.all_eq_true, and_assoc]
  refine and_congr_right fun howners => and_congr_right fun _ => ?_
  have hlen : s.frames.length = t.frames.length := by
    simpa [owners] using congrArg List.length howners
  have hframes := all_zip_iff hlen
    (P := fun m n => m.isBelow s.othersClobbered n t.othersClobbered = true)
  constructor
  · rintro ⟨hshared, hzip⟩ ℓ m n hm hn
    cases ℓ with
    | shared =>
      cases hm
      cases hn
      exact hshared
    | frame d => exact hframes.1 hzip d m n hm hn
  · exact fun h => ⟨h .shared _ _ rfl rfl, hframes.2 fun d => h (.frame d)⟩

/-- The comparison decides the order of trust. -/
theorem isBelow_iff (hs : s.Canonical) (ht : t.Canonical) : s.isBelow t = true ↔ Below s t := by
  rw [isBelow_iff_levels]
  constructor
  · rintro ⟨howners, hflag, hlevels⟩
    refine ⟨howners, fun ℓ o b hb => ?_⟩
    obtain ⟨n, hn⟩ := exists_at?_iff.2 (howners ▸ hb.within)
    obtain ⟨m, hm, hb⟩ := hb
    exact ⟨n, hn, (Sheet.isBelow_iff (hs ℓ m hm) (ht ℓ n hn)).1 ⟨hflag, hlevels ℓ m n hm hn⟩ o b hb⟩
  · intro h
    have hsheets (ℓ : Level) (m n : Sheet) (hm : s.at? ℓ = some m) (hn : t.at? ℓ = some n) :=
      (Sheet.isBelow_iff (f := s.othersClobbered) (g := t.othersClobbered) (hs ℓ m hm)
        (ht ℓ n hn)).2 fun o b hb => (trustsAt_iff hn).1 (h.trusts ℓ o b ((trustsAt_iff hm).2 hb))
    exact ⟨h.owners, (hsheets .shared _ _ rfl rfl).1, fun ℓ m n hm hn => (hsheets ℓ m n hm hn).2⟩

end Snapshot

end ByteTrust
