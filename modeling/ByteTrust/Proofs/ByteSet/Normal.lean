import ByteTrust.Proofs.ByteSet

/-!
# Byte sets as normal forms

The same bytes can be listed in many ways: in another order, with a range cut in two, or with some
of them listed again. `Recut` is the equivalence of lists that these changes generate. Inserting the
ranges of a list one by one finds the normal form of the list: the result can be recut from the list
(`recut_ofList`), is canonical, and is the same for two lists exactly if one can be recut from the
other, which is to say if they have the same bytes (`ofList_determined`).

So equations between sets can be read off from their bytes. Intersection is a semilattice operation
(`inter_exact`), and the queries decide relations between bytes (`queries_exact`).
-/

namespace ByteTrust

namespace ByteSet

/-! ## Cutting up a list of ranges -/

/-- The ranges of one list can be turned into those of the other. -/
inductive Recut : List ByteRange → List ByteRange → Prop
  /-- The ranges change places. -/
  | perm {rs ts} (h : rs.Perm ts) : Recut rs ts
  /-- A range is cut in two. -/
  | cut {start point stop} (h₁ : start ≤ point) (h₂ : point ≤ stop) (rs) :
      Recut (⟨start, stop⟩ :: rs) (⟨start, point⟩ :: ⟨point, stop⟩ :: rs)
  /-- A range without bytes is left out. -/
  | leave {r} (h : r.stop ≤ r.start) (rs) : Recut (r :: rs) rs
  /-- A range that is listed twice is listed once. -/
  | merge (r rs) : Recut (r :: r :: rs) (r :: rs)
  | symm {rs ts} (h : Recut rs ts) : Recut ts rs
  | trans {rs ts us} (h₁ : Recut rs ts) (h₂ : Recut ts us) : Recut rs us

variable {b : Nat} {r : ByteRange} {rs ts : List ByteRange} {s t : ByteSet}

namespace Recut

theorem refl (rs : List ByteRange) : Recut rs rs := .perm (.refl rs)

/-- No byte is lost or added. -/
theorem mem_iff (h : Recut rs ts) : b ∈ (⟨rs⟩ : ByteSet) ↔ b ∈ (⟨ts⟩ : ByteSet) := by
  induction h with
  | perm h => simp only [mem_def, h.mem_iff]
  | cut h₁ h₂ rs =>
    simp only [mem_cons, ByteRange.mem_def, ← or_assoc]
    apply or_congr_left
    omega
  | leave h rs =>
    rw [mem_cons]
    apply or_iff_right
    intro hb
    rw [ByteRange.mem_def] at hb
    omega
  | merge r rs => simp only [mem_cons, ← or_assoc, or_self]
  | symm _ ih => exact ih.symm
  | trans _ _ ih₁ ih₂ => exact ih₁.trans ih₂

/-- A range that is left alone can stand before the others. -/
theorem cons (r : ByteRange) (h : Recut rs ts) : Recut (r :: rs) (r :: ts) := by
  induction h with
  | perm h => exact .perm (h.cons r)
  | cut h₁ h₂ rs =>
    refine .trans (.perm (.swap _ _ _)) (.trans (.cut h₁ h₂ (r :: rs)) (.perm ?_))
    exact (List.Perm.swap _ _ _).cons _ |>.trans (.swap _ _ _)
  | leave h rs => exact .trans (.perm (.swap _ _ _)) (.leave h (r :: rs))
  | merge t rs =>
    refine .trans (.perm ?_) (.trans (.merge t (r :: rs)) (.perm (.swap _ _ _)))
    exact (List.Perm.swap _ _ _).trans ((List.Perm.swap _ _ _).cons _)
  | symm _ ih => exact .symm ih
  | trans _ _ ih₁ ih₂ => exact .trans ih₁ ih₂

theorem append_left (us : List ByteRange) (h : Recut rs ts) : Recut (us ++ rs) (us ++ ts) := by
  induction us with
  | nil => exact h
  | cons u us ih => exact ih.cons u

/-! ## Joining ranges -/

/-- A range that lies within another one is left out. -/
theorem within {r t : ByteRange} (h₁ : r.start ≤ t.start) (h₂ : t.start ≤ t.stop)
    (h₃ : t.stop ≤ r.stop) (rs : List ByteRange) : Recut (r :: t :: rs) (r :: rs) := by
  -- the part of `r` that is `t` is listed twice once `r` is cut around it
  have hcut : ∀ us, Recut (r :: us) (t :: ⟨r.start, t.start⟩ :: ⟨t.stop, r.stop⟩ :: us) := fun us =>
    .trans (.cut h₁ (Nat.le_trans h₂ h₃) us)
      (.trans ((Recut.cut h₂ h₃ us).cons _) (.perm (.swap _ _ _)))
  refine .trans (hcut (t :: rs)) (.trans (.perm ?_) (.trans (.merge t _) (.symm (hcut rs))))
  exact List.Perm.cons t (@List.perm_middle _ t [_, _] rs)

/-- What a range has beyond one that starts no later is joined to that one. -/
theorem join {r t : ByteRange} (hr : r.start < r.stop) (ht : t.start < t.stop)
    (hstart : r.start ≤ t.start) (htouch : t.start ≤ r.stop) (rs : List ByteRange) :
    Recut (r :: t :: rs) (⟨r.start, max r.stop t.stop⟩ :: rs) := by
  rcases Nat.le_total t.stop r.stop with hstop | hstop
  · rw [Nat.max_eq_left hstop]
    exact within hstart (Nat.le_of_lt ht) hstop rs
  · rw [Nat.max_eq_right hstop]
    have hcut : Recut (r :: t :: rs) (r :: ⟨t.start, r.stop⟩ :: ⟨r.stop, t.stop⟩ :: rs) :=
      (Recut.cut htouch hstop rs).cons r
    have hleft : Recut (r :: ⟨t.start, r.stop⟩ :: ⟨r.stop, t.stop⟩ :: rs)
        (r :: ⟨r.stop, t.stop⟩ :: rs) :=
      within (t := ⟨t.start, r.stop⟩) hstart htouch (Nat.le_refl _) _
    exact hcut.trans (hleft.trans (.symm (.cut (Nat.le_of_lt hr) hstop rs)))

/-- Two ranges that overlap or touch become their hull. -/
theorem hull {r t : ByteRange} (hr : r.start < r.stop) (ht : t.start < t.stop)
    (h₁ : t.start ≤ r.stop) (h₂ : r.start ≤ t.stop) (rs : List ByteRange) :
    Recut (r :: t :: rs) (r.hull t :: rs) := by
  rcases Nat.le_total r.start t.start with hle | hle
  · rw [ByteRange.hull, Nat.min_eq_left hle]
    exact join hr ht hle h₁ rs
  · rw [ByteRange.hull, Nat.min_eq_right hle, Nat.max_comm]
    exact .trans (.perm (.swap _ _ _)) (join ht hr hle h₂ rs)

end Recut

/-! ## Insertion -/

theorem recut_absorb (hr : r.start < r.stop) (hrs : ∀ t ∈ rs, t.start < t.stop)
    (hstop : ∀ t ∈ rs, r.start ≤ t.stop) :
    Recut (r :: rs) ((absorb r rs).1 :: (absorb r rs).2) := by
  induction rs generalizing r with
  | nil => exact .refl _
  | cons t ts ih =>
    obtain ⟨ht, hts⟩ := List.forall_mem_cons.1 hrs
    obtain ⟨hst, hstop⟩ := List.forall_mem_cons.1 hstop
    simp only [absorb]
    split
    · next hle =>
      refine .trans (.hull hr ht hle hst ts) (ih ?_ hts fun u hu => ?_)
      · simp only [ByteRange.hull]
        omega
      · have := hstop u hu
        simp only [ByteRange.hull]
        omega
    · exact .refl _

theorem Canonical.recut_insert (hs : s.Canonical) (r : ByteRange) :
    Recut (r :: s.ranges) (s.insert r).ranges := by
  unfold ByteSet.insert
  split
  · next hr =>
    obtain ⟨before, after, hsplit, hlead, -, ha⟩ := hs.leading_split r.start
    have hne : ∀ t ∈ after, t.start < t.stop := fun t ht =>
      hs.nonempty t (by rw [hsplit]; exact List.mem_append_right _ ht)
    dsimp only
    rw [hlead, hsplit, List.drop_left, List.take_left]
    exact .trans (.perm List.perm_middle.symm) ((recut_absorb hr hne ha).append_left before)
  · next hr => exact .leave (Nat.not_lt.1 hr) s.ranges

theorem Canonical.recut_foldl_insert (hs : s.Canonical) (rs : List ByteRange) :
    Recut (rs ++ s.ranges) (rs.foldl ByteSet.insert s).ranges := by
  induction rs generalizing s with
  | nil => exact .refl _
  | cons r rs ih =>
    have hinsert : Recut (rs ++ r :: s.ranges) (rs ++ (s.insert r).ranges) :=
      (hs.recut_insert r).append_left rs
    exact .trans (.perm List.perm_middle.symm) (hinsert.trans (ih (hs.insert r)))

/-- The set of a list is the list, cut up anew. -/
theorem recut_ofList (rs : List ByteRange) : Recut rs (ofList rs).ranges := by
  have h := canonical_empty.recut_foldl_insert rs
  rwa [show (∅ : ByteSet).ranges = [] from rfl, List.append_nil] at h

/-! ## Sets are determined by their bytes -/

theorem ofList_eq_iff : ofList rs = ofList ts ↔ ∀ b, b ∈ ofList rs ↔ b ∈ ofList ts := by
  constructor
  · intro h b
    rw [h]
  · exact (canonical_ofList rs).ext (canonical_ofList ts)

theorem ofList_eq_iff_recut : ofList rs = ofList ts ↔ Recut rs ts := by
  constructor
  · intro h
    have hts : Recut (ofList rs).ranges ts := h ▸ (recut_ofList ts).symm
    exact (recut_ofList rs).trans hts
  · intro h
    rw [ofList_eq_iff]
    intro b
    rw [mem_ofList, mem_ofList, h.mem_iff]

/-- A range of a canonical set cannot be extended downwards. -/
theorem Canonical.not_mem_of_succ_eq_start (hs : s.Canonical) (hr : r ∈ s.ranges)
    (hb : b + 1 = r.start) : b ∉ s := by
  rintro ⟨t, ht, hmem⟩
  have hne := hs.nonempty r hr
  rw [ByteRange.mem_def] at hmem
  rcases hs.apart_of_mem hr ht with rfl | h | h <;> omega

/-- Insertion makes up no number: a range starts where some inserted range starts, and ends where
some inserted range ends. -/
theorem ends_of_mem_ofList (hr : r ∈ (ofList rs).ranges) :
    (∃ t ∈ rs, t.start = r.start) ∧ ∃ t ∈ rs, t.stop = r.stop := by
  have hcan := canonical_ofList rs
  have hne := hcan.nonempty r hr
  have hmem : ∀ {b}, b ∈ r → ∃ t ∈ rs, b ∈ t := fun hb => mem_ofList.1 ⟨r, hr, hb⟩
  constructor
  · obtain ⟨t, ht, hbt⟩ := hmem (b := r.start) (by rw [ByteRange.mem_def]; omega)
    rw [ByteRange.mem_def] at hbt
    refine ⟨t, ht, Nat.le_antisymm hbt.1 (Nat.not_lt.1 fun hlt => ?_)⟩
    -- else `t` has the byte before `r`
    refine hcan.not_mem_of_succ_eq_start (b := r.start - 1) hr (by omega) ?_
    exact mem_ofList.2 ⟨t, ht, by rw [ByteRange.mem_def]; omega⟩
  · obtain ⟨t, ht, hbt⟩ := hmem (b := r.stop - 1) (by rw [ByteRange.mem_def]; omega)
    rw [ByteRange.mem_def] at hbt
    refine ⟨t, ht, Nat.le_antisymm (Nat.not_lt.1 fun hlt => ?_) (by omega)⟩
    -- else `t` has the byte after `r`
    refine hcan.stop_not_mem hr (mem_ofList.2 ⟨t, ht, ?_⟩)
    rw [ByteRange.mem_def]
    omega

/-- **A set is determined by its bytes.** Whatever ranges are inserted one after the other into the
empty set, the result is canonical, has the bytes of all of them, and has no other ends of ranges
than they have. Two such sets are equal exactly if they have the same bytes, and exactly if the
ranges of the one can be recut into those of the other, as when they only change places. -/
theorem ofList_determined (rs : List ByteRange) :
    (ofList rs).Canonical ∧ (∀ b, b ∈ ofList rs ↔ ∃ r ∈ rs, b ∈ r) ∧
    (∀ r ∈ (ofList rs).ranges, (∃ t ∈ rs, t.start = r.start) ∧ ∃ t ∈ rs, t.stop = r.stop) ∧
    ∀ ts, (ofList rs = ofList ts ↔ ∀ b, b ∈ ofList rs ↔ b ∈ ofList ts) ∧
      (ofList rs = ofList ts ↔ Recut rs ts) ∧ (rs.Perm ts → ofList rs = ofList ts) :=
  ⟨canonical_ofList rs, fun _ => mem_ofList, fun _ => ends_of_mem_ofList, fun _ =>
    ⟨ofList_eq_iff, ofList_eq_iff_recut, fun h => ofList_eq_iff_recut.2 (.perm h)⟩⟩

/-- Two ranges that meet a third one between them, an inverted range, and one up to the greatest
position. -/
def bridged : List ByteRange :=
  [⟨0, 2⟩, ⟨6, 9⟩, ⟨9, 3⟩, ⟨12, 0xffffffffffffffff⟩, ⟨2, 6⟩]

/-- The ranges that meet become one, and so they do in any order; the list can be recut into a range
for each gap between them. -/
theorem ofList_determined_bridged :
    (ofList bridged).ranges = [⟨0, 9⟩, ⟨12, 0xffffffffffffffff⟩] ∧
    (∃ r ∈ bridged, r.stop = 0xffffffffffffffff) ∧ ofList bridged = ofList bridged.reverse ∧
    Recut bridged [⟨12, 20⟩, ⟨0, 9⟩, ⟨20, 0xffffffffffffffff⟩] ∧
    ¬ Recut bridged [⟨12, 0xffffffffffffffff⟩, ⟨0, 8⟩] := by
  obtain ⟨-, -, hends, hequal⟩ := ofList_determined bridged
  refine ⟨by decide +kernel, ?_, ?_, ?_, ?_⟩
  · exact (hends ⟨12, 0xffffffffffffffff⟩ (by decide +kernel)).2
  · exact (hequal bridged.reverse).2.2 (List.reverse_perm bridged).symm
  · exact (hequal _).2.1.1 (by decide +kernel)
  · exact fun h => absurd ((hequal _).2.1.2 h) (by decide +kernel)

/-! ## Intersection -/

theorem Canonical.inter_comm (hs : s.Canonical) (ht : t.Canonical) : s.inter t = t.inter s := by
  apply (canonical_inter s t).ext (canonical_inter t s)
  intro b
  rw [hs.mem_inter ht, ht.mem_inter hs, and_comm]

theorem Canonical.inter_self (hs : s.Canonical) : s.inter s = s := by
  apply (canonical_inter s s).ext hs
  intro b
  rw [hs.mem_inter hs, and_self]

theorem Canonical.inter_assoc {u : ByteSet} (hs : s.Canonical) (ht : t.Canonical)
    (hu : u.Canonical) : (s.inter t).inter u = s.inter (t.inter u) := by
  apply (canonical_inter _ u).ext (canonical_inter s _)
  intro b
  rw [(canonical_inter s t).mem_inter hu, hs.mem_inter ht, hs.mem_inter (canonical_inter t u),
    ht.mem_inter hu, and_assoc]

/-- **Intersection is exact.** The intersection of two canonical sets is canonical and has the bytes
of both. So it is commutative, idempotent and associative, up to equality of the lists of ranges. -/
theorem inter_exact (hs : s.Canonical) (ht : t.Canonical) :
    (s.inter t).Canonical ∧ (∀ b, b ∈ s.inter t ↔ b ∈ s ∧ b ∈ t) ∧
    s.inter t = t.inter s ∧ s.inter s = s ∧
    ∀ u, u.Canonical → (s.inter t).inter u = s.inter (t.inter u) :=
  ⟨canonical_inter s t, fun _ => hs.mem_inter ht, hs.inter_comm ht, hs.inter_self,
    fun _ hu => hs.inter_assoc ht hu⟩

/-- A range that runs over the gaps of the other set, and ends that agree. -/
theorem inter_exact_gaps :
    let s := ofList [⟨0, 10⟩, ⟨20, 30⟩, ⟨40, 0xffffffffffffffff⟩]
    let t := ofList [⟨5, 25⟩, ⟨26, 30⟩, ⟨41, 0xffffffffffffffff⟩]
    let u := ofList [⟨8, 27⟩, ⟨50, 60⟩]
    s.inter t = ⟨[⟨5, 10⟩, ⟨20, 25⟩, ⟨26, 30⟩, ⟨41, 0xffffffffffffffff⟩]⟩ ∧
    s.inter t = t.inter s ∧ 25 ∉ s.inter t ∧ (s.inter t).inter u = s.inter (t.inter u) := by
  intro s t u
  obtain ⟨-, hmem, hcomm, -, hassoc⟩ := inter_exact (s := s) (t := t) (canonical_ofList _)
    (canonical_ofList _)
  refine ⟨by decide +kernel, hcomm, ?_, hassoc u (canonical_ofList _)⟩
  rw [hmem]
  decide +kernel

/-! ## Queries -/

/-- Two ranges share a byte if each of them has one and neither ends before the other starts. -/
theorem exists_mem_and_mem_iff {r t : ByteRange} (hr : r.start < r.stop) (ht : t.start < t.stop) :
    (∃ b, b ∈ r ∧ b ∈ t) ↔ t.start < r.stop ∧ r.start < t.stop := by
  constructor
  · rintro ⟨b, hbr, hbt⟩
    rw [ByteRange.mem_def] at hbr hbt
    omega
  · rintro ⟨h₁, h₂⟩
    refine ⟨max r.start t.start, ?_⟩
    rw [ByteRange.mem_def, ByteRange.mem_def]
    omega

/-- `overlaps` says that some byte of the range is in the set. -/
theorem Canonical.overlaps_iff (hs : s.Canonical) (hr : r.start < r.stop) :
    s.overlaps r = true ↔ ∃ b, b ∈ r ∧ b ∈ s := by
  have hrange : ∀ t ∈ s.ranges, (∃ b, b ∈ r ∧ b ∈ t) ↔ t.start < r.stop ∧ r.start < t.stop :=
    fun t ht => exists_mem_and_mem_iff hr (hs.nonempty t ht)
  simp only [overlaps, List.any_eq_true, Bool.and_eq_true, decide_eq_true_eq]
  constructor
  · rintro ⟨t, ht, hmeet⟩
    obtain ⟨b, hbr, hbt⟩ := (hrange t ht).2 hmeet
    exact ⟨b, hbr, t, ht, hbt⟩
  · rintro ⟨b, hbr, t, ht, hbt⟩
    exact ⟨t, ht, (hrange t ht).1 ⟨b, hbr, hbt⟩⟩

/-- **Queries decide relations between bytes.** Of canonical sets, `covers` says that every byte of
a range is in the set, `overlaps` that some byte of a range with bytes is, and `subset` that every
byte of one set is in the other. -/
theorem queries_exact (hs : s.Canonical) (ht : t.Canonical) (r : ByteRange) :
    (s.covers r = true ↔ ∀ b, b ∈ r → b ∈ s) ∧
    (r.start < r.stop → (s.overlaps r = true ↔ ∃ b, b ∈ r ∧ b ∈ s)) ∧
    (s.subset t = true ↔ ∀ b, b ∈ s → b ∈ t) :=
  ⟨hs.covers_iff, hs.overlaps_iff, ht.subset_iff⟩

/-- Two ranges with one byte between them, and one up to the greatest position. -/
theorem queries_exact_gap :
    let s := ofList [⟨0, 4⟩, ⟨5, 8⟩, ⟨0xfffffffffffffff0, 0xffffffffffffffff⟩]
    let t := ofList [⟨0, 8⟩, ⟨0xffffffffffffffe0, 0xffffffffffffffff⟩]
    (¬ ∀ b, b ∈ (⟨3, 6⟩ : ByteRange) → b ∈ s) ∧
    (∀ b, b ∈ (⟨0xfffffffffffffff1, 0xffffffffffffffff⟩ : ByteRange) → b ∈ s) ∧
    (∃ b, b ∈ (⟨4, 6⟩ : ByteRange) ∧ b ∈ s) ∧ (¬ ∃ b, b ∈ (⟨4, 5⟩ : ByteRange) ∧ b ∈ s) ∧
    (∀ b, b ∈ s → b ∈ t) ∧ ¬ ∀ b, b ∈ t → b ∈ s := by
  intro s t
  have hst := queries_exact (s := s) (t := t) (canonical_ofList _) (canonical_ofList _)
  have hts := queries_exact (s := t) (t := s) (canonical_ofList _) (canonical_ofList _)
  refine ⟨?_, ?_, ?_, ?_, ?_, ?_⟩
  · rw [← (hst _).1]
    decide +kernel
  · rw [← (hst _).1]
    decide +kernel
  · rw [← (hst _).2.1 (by decide)]
    decide +kernel
  · rw [← (hst _).2.1 (by decide)]
    decide +kernel
  · rw [← (hst ⟨0, 0⟩).2.2]
    decide +kernel
  · rw [← (hts ⟨0, 0⟩).2.2]
    decide +kernel

end ByteSet

end ByteTrust
