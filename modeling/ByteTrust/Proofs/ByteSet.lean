import ByteTrust.ByteSet

/-!
# Canonical byte sets

The operations on a canonical `ByteSet`, told by their bytes. The search by halving finds the
longest leading run of ranges (`bisect_append`), so each operation looks at the right
range: insertion adds the bytes of a range and stays canonical (`mem_insert`, `Canonical.insert`),
an intersection has the bytes of both sets (`mem_inter`), and `covers` and `subset` decide what
they say (`covers_iff`, `subset_iff`). A canonical set is determined by its bytes
(`Canonical.ext`).
-/

namespace ByteTrust

namespace ByteSet

variable {b : Nat} {r : ByteRange} {rs ts : List ByteRange} {s t : ByteSet}

/-! ## Bytes of a list of ranges -/

@[simp] theorem not_mem_nil (b : Nat) : b ∉ (⟨[]⟩ : ByteSet) := by
  simp [mem_def]

@[simp] theorem not_mem_empty (b : Nat) : b ∉ (∅ : ByteSet) := not_mem_nil b

@[simp] theorem mem_cons : b ∈ (⟨r :: rs⟩ : ByteSet) ↔ b ∈ r ∨ b ∈ (⟨rs⟩ : ByteSet) := by
  simp [mem_def]

@[simp] theorem mem_append :
    b ∈ (⟨rs ++ ts⟩ : ByteSet) ↔ b ∈ (⟨rs⟩ : ByteSet) ∨ b ∈ (⟨ts⟩ : ByteSet) := by
  simp [mem_def, or_and_right, exists_or]

/-- A set whose list of ranges is empty has no byte. -/
theorem not_mem_of_isEmpty (h : s.isEmpty = true) : b ∉ s := by
  obtain ⟨rs⟩ := s
  obtain rfl : rs = [] := List.isEmpty_iff.1 h
  exact not_mem_nil b

theorem canonical_nil : Canonical ⟨[]⟩ := ⟨by simp, .nil⟩

theorem canonical_empty : Canonical ∅ := canonical_nil

/-- A canonical list starts with a range that has a byte and lies below the others. -/
theorem canonical_cons : Canonical ⟨r :: rs⟩ ↔
    r.start < r.stop ∧ (∀ t ∈ rs, r.stop < t.start) ∧ Canonical ⟨rs⟩ := by
  constructor
  · rintro ⟨hne, hap⟩
    obtain ⟨hr, hrs⟩ := List.pairwise_cons.1 hap
    exact ⟨hne r List.mem_cons_self, hr, fun t ht => hne t (List.mem_cons_of_mem _ ht), hrs⟩
  · rintro ⟨hr, hlt, hne, hap⟩
    refine ⟨fun t ht => ?_, List.pairwise_cons.2 ⟨hlt, hap⟩⟩
    rcases List.mem_cons.1 ht with rfl | ht
    · exact hr
    · exact hne t ht

theorem canonical_append : Canonical ⟨rs ++ ts⟩ ↔
    Canonical ⟨rs⟩ ∧ Canonical ⟨ts⟩ ∧ ∀ r ∈ rs, ∀ t ∈ ts, r.stop < t.start := by
  constructor
  · rintro ⟨hne, hap⟩
    obtain ⟨h₁, h₂, h₃⟩ := List.pairwise_append.1 hap
    exact ⟨⟨fun r hr => hne r (List.mem_append_left _ hr), h₁⟩,
      ⟨fun r hr => hne r (List.mem_append_right _ hr), h₂⟩, h₃⟩
  · rintro ⟨⟨hne₁, h₁⟩, ⟨hne₂, h₂⟩, h₃⟩
    refine ⟨fun r hr => ?_, List.pairwise_append.2 ⟨h₁, h₂, h₃⟩⟩
    rcases List.mem_append.1 hr with hr | hr
    · exact hne₁ r hr
    · exact hne₂ r hr

/-- The bytes of ranges that all start beyond `b` lie beyond `b`. -/
theorem lt_of_mem_of_starts {a : Nat} (h : ∀ t ∈ rs, a < t.start) (hb : b ∈ (⟨rs⟩ : ByteSet)) :
    a < b := by
  obtain ⟨t, ht, hbt⟩ := hb
  exact Nat.lt_of_lt_of_le (h t ht) (ByteRange.mem_def.1 hbt).1

/-! ## Search by halving -/

/-- On a list whose leading entries `ys` satisfy `p` while no other does, a search by halving
finds `ys`. -/
theorem bisect_append {α : Type} {p : α → Bool} {ys zs : List α} {fuel : Nat}
    (hys : ∀ y ∈ ys, p y = true) (hzs : ∀ z ∈ zs, p z = false)
    (hfuel : (ys ++ zs).length ≤ fuel) : bisect p fuel (ys ++ zs) = ys.length := by
  induction fuel generalizing ys zs with
  | zero => simp_all [bisect]
  | succ fuel ih =>
    match hw : ys ++ zs with
    | [] => simp_all [bisect]
    | [x] =>
      rcases List.append_eq_singleton_iff.1 hw with ⟨rfl, rfl⟩ | ⟨rfl, rfl⟩ <;>
        simp_all [bisect]
    | x :: y :: xs =>
      simp only [bisect, ← hw]
      have hlen : 2 ≤ (ys ++ zs).length := by simp [hw]
      generalize hhalf : (ys ++ zs).length / 2 = half
      have hdrop : (ys ++ zs).drop half = ys.drop half ++ zs.drop (half - ys.length) :=
        List.drop_append
      have htake : (ys ++ zs).take ((ys ++ zs).length - half) =
          ys.take ((ys ++ zs).length - half) ++
            zs.take ((ys ++ zs).length - half - ys.length) := List.take_append
      simp only [List.length_append] at hlen hhalf hfuel htake ⊢
      split
      · next hnil =>
        have := congrArg List.length hnil
        simp only [List.length_drop, List.length_append, List.length_nil] at this
        omega
      · next middle rest hcut =>
        -- the middle entry satisfies `p` exactly if it is one of `ys`
        rw [← hcut, hdrop, htake]
        rw [hdrop] at hcut
        by_cases hlt : half < ys.length
        · have hmem : middle ∈ ys := by
            rw [List.drop_eq_getElem_cons hlt] at hcut
            obtain ⟨rfl, -⟩ := List.cons.inj hcut
            exact List.getElem_mem _
          rw [if_pos (hys middle hmem), ih (fun y hy => hys y (List.mem_of_mem_drop hy))
            (fun z hz => hzs z (List.mem_of_mem_drop hz)) (by simp; omega), List.length_drop]
          omega
        · have hmem : middle ∈ zs := by
            rw [List.drop_eq_nil_of_le (by omega), List.nil_append] at hcut
            exact List.mem_of_mem_drop (hcut ▸ List.mem_cons_self)
          rw [if_neg (by simp [hzs middle hmem]), ih (fun y hy => hys y (List.mem_of_mem_take hy))
            (fun z hz => hzs z (List.mem_of_mem_take hz)) (by simp; omega), List.length_take]
          omega

/-- The leading ranges of a canonical set that end before `a`, as a search by halving finds them:
what they are, and what is left. -/
theorem Canonical.leading_split (hs : s.Canonical) (a : Nat) :
    ∃ before after, s.ranges = before ++ after ∧
      (s.leading fun t => t.stop < a) = before.length ∧
      (∀ t ∈ before, t.stop < a) ∧ ∀ t ∈ after, a ≤ t.stop := by
  obtain ⟨rs⟩ := s
  suffices h : ∃ before after, rs = before ++ after ∧
      (∀ t ∈ before, t.stop < a) ∧ ∀ t ∈ after, a ≤ t.stop by
    obtain ⟨before, after, rfl, hb, ha⟩ := h
    refine ⟨before, after, rfl, ?_, hb, ha⟩
    exact bisect_append (by simpa using hb) (by simpa using ha) (Nat.le_refl _)
  induction rs with
  | nil => exact ⟨[], [], rfl, by simp, by simp⟩
  | cons r rs ih =>
    obtain ⟨hr, hlt, hrs⟩ := canonical_cons.1 hs
    by_cases hra : r.stop < a
    · obtain ⟨before, after, rfl, hb, ha⟩ := ih hrs
      refine ⟨r :: before, after, rfl, fun t ht => ?_, ha⟩
      rcases List.mem_cons.1 ht with rfl | ht
      · exact hra
      · exact hb t ht
    · refine ⟨[], r :: rs, rfl, by simp, fun t ht => ?_⟩
      rcases List.mem_cons.1 ht with rfl | ht
      · exact Nat.not_lt.1 hra
      · have := hlt t ht
        have := hrs.nonempty t ht
        omega

/-! ## Insertion -/

/-- Ranges that overlap or touch have the bytes of their hull. -/
theorem mem_hull {r t : ByteRange} (h₁ : t.start ≤ r.stop) (h₂ : r.start ≤ t.stop) :
    b ∈ r.hull t ↔ b ∈ r ∨ b ∈ t := by
  simp only [ByteRange.mem_def, ByteRange.hull]
  omega

/-- Absorbing keeps the bytes: those of `r` and of the list are those of the joined range and of
what is left. What is left lies beyond the joined range. -/
theorem absorb_spec (hr : r.start < r.stop) (hrs : Canonical ⟨rs⟩)
    (hstop : ∀ t ∈ rs, r.start ≤ t.stop) :
    (∀ b, b ∈ (absorb r rs).1 ∨ b ∈ (⟨(absorb r rs).2⟩ : ByteSet) ↔
      b ∈ r ∨ b ∈ (⟨rs⟩ : ByteSet)) ∧
    Canonical ⟨(absorb r rs).1 :: (absorb r rs).2⟩ ∧
    ∀ a, a < r.start → (∀ t ∈ rs, a < t.start) → a < (absorb r rs).1.start := by
  induction rs generalizing r with
  | nil =>
    exact ⟨fun b => Iff.rfl, canonical_cons.2 ⟨hr, by simp [absorb], hrs⟩, fun a ha _ => ha⟩
  | cons t ts ih =>
    obtain ⟨ht, hlt, hts⟩ := canonical_cons.1 hrs
    simp only [absorb]
    split
    · next hle =>
      have hst := hstop t List.mem_cons_self
      have hjoin : (r.hull t).start < (r.hull t).stop := by
        simp only [ByteRange.hull]
        omega
      have hjoin' : ∀ u ∈ ts, (r.hull t).start ≤ u.stop := fun u hu => by
        have := hstop u (List.mem_cons_of_mem _ hu)
        simp only [ByteRange.hull]
        omega
      obtain ⟨hmem, hcan, hlow⟩ := ih hjoin hts hjoin'
      refine ⟨fun b => ?_, hcan, fun a ha hat => hlow a ?_ fun u hu => ?_⟩
      · rw [hmem, mem_hull hle hst, mem_cons, or_assoc]
      · have := hat t List.mem_cons_self
        simp only [ByteRange.hull]
        omega
      · exact hat u (List.mem_cons_of_mem _ hu)
    · next hle =>
      refine ⟨fun b => Iff.rfl, canonical_cons.2 ⟨hr, fun u hu => ?_, hrs⟩, fun a ha _ => ha⟩
      rcases List.mem_cons.1 hu with rfl | hu
      · exact Nat.not_le.1 hle
      · exact Nat.lt_trans (Nat.lt_trans (Nat.not_le.1 hle) ht) (hlt u hu)

/-- Insertion adds exactly the bytes of the range, and the result is canonical. -/
theorem Canonical.insert_spec (hs : s.Canonical) (r : ByteRange) :
    (s.insert r).Canonical ∧ ∀ b, b ∈ s.insert r ↔ b ∈ s ∨ b ∈ r := by
  unfold ByteSet.insert
  split
  · next hr =>
    obtain ⟨before, after, hsplit, hlead, hb, ha⟩ := hs.leading_split r.start
    obtain ⟨rs⟩ := s
    dsimp only at hsplit
    subst hsplit
    obtain ⟨hcb, hca, hcross⟩ := canonical_append.1 hs
    obtain ⟨hmem, hcan, hlow⟩ := absorb_spec hr hca ha
    dsimp only
    rw [hlead, List.drop_left, List.take_left]
    refine ⟨canonical_append.2 ⟨hcb, hcan, fun t ht u hu => ?_⟩, fun b => ?_⟩
    · have hjoined := hlow t.stop (hb t ht) (hcross t ht)
      rcases List.mem_cons.1 hu with rfl | hu
      · exact hjoined
      · obtain ⟨hne, hbeyond, -⟩ := canonical_cons.1 hcan
        have := hbeyond u hu
        omega
    · rw [mem_append, mem_append, mem_cons, hmem, or_assoc, or_comm (a := b ∈ r)]
  · next hr =>
    refine ⟨hs, fun b => ?_⟩
    simp only [ByteRange.mem_def]
    constructor
    · exact Or.inl
    · rintro (h | h)
      · exact h
      · omega

theorem Canonical.insert (hs : s.Canonical) (r : ByteRange) : (s.insert r).Canonical :=
  (hs.insert_spec r).1

theorem Canonical.mem_insert (hs : s.Canonical) : b ∈ s.insert r ↔ b ∈ s ∨ b ∈ r :=
  (hs.insert_spec r).2 b

theorem canonical_foldl_insert (rs : List ByteRange) (hs : s.Canonical) :
    (rs.foldl ByteSet.insert s).Canonical ∧
      ∀ b, b ∈ rs.foldl ByteSet.insert s ↔ b ∈ s ∨ b ∈ (⟨rs⟩ : ByteSet) := by
  induction rs generalizing s with
  | nil => exact ⟨hs, fun b => by simp⟩
  | cons r rs ih =>
    obtain ⟨hcan, hmem⟩ := ih (hs.insert r)
    refine ⟨hcan, fun b => ?_⟩
    rw [List.foldl_cons, hmem, hs.mem_insert, mem_cons, or_assoc]

theorem canonical_ofList (rs : List ByteRange) : (ofList rs).Canonical :=
  (canonical_foldl_insert rs canonical_empty).1

theorem mem_ofList : b ∈ ofList rs ↔ b ∈ (⟨rs⟩ : ByteSet) := by
  rw [ofList, (canonical_foldl_insert rs canonical_empty).2]
  simp

/-! ## Intersection -/

theorem mem_inter_range {r t : ByteRange} : b ∈ r.inter t ↔ b ∈ r ∧ b ∈ t := by
  simp only [ByteRange.mem_def, ByteRange.inter]
  omega

/-- A row of overlaps, when `next` gives the overlaps of the ranges after `r`. -/
theorem mem_interRow {next : List ByteRange → List ByteRange} (hr : Canonical ⟨r :: rs⟩)
    (hts : Canonical ⟨ts⟩)
    (hnext : ∀ us, Canonical ⟨us⟩ →
      (b ∈ (⟨next us⟩ : ByteSet) ↔ b ∈ (⟨rs⟩ : ByteSet) ∧ b ∈ (⟨us⟩ : ByteSet))) :
    b ∈ (⟨interRow r next ts⟩ : ByteSet) ↔
      b ∈ (⟨r :: rs⟩ : ByteSet) ∧ b ∈ (⟨ts⟩ : ByteSet) := by
  induction ts with
  | nil => simp [interRow]
  | cons t ts ih =>
    obtain ⟨-, hbeyond, -⟩ := canonical_cons.1 hr
    obtain ⟨-, htbeyond, hts'⟩ := canonical_cons.1 hts
    have hrest : b ∈ (⟨interRow r next (t :: ts)⟩ : ByteSet) ↔ (b ∈ r ∧ b ∈ t) ∨
        b ∈ (⟨if r.stop < t.stop then next (t :: ts) else interRow r next ts⟩ : ByteSet) := by
      rw [← mem_inter_range, interRow]
      split
      · rw [mem_cons]
      · next hnone =>
        refine (or_iff_right fun h => hnone ?_).symm
        exact Nat.lt_of_le_of_lt (ByteRange.mem_def.1 h).1 (ByteRange.mem_def.1 h).2
    rw [hrest, mem_cons, mem_cons]
    split
    · next hlt =>
      -- beyond `t` there is no byte of `r`
      have hdisj : b ∈ r → b ∉ (⟨ts⟩ : ByteSet) := fun h h' => by
        have := lt_of_mem_of_starts htbeyond h'
        have := (ByteRange.mem_def.1 h).2
        omega
      rw [hnext _ hts, mem_cons]
      constructor
      · rintro (⟨hbr, hbt⟩ | ⟨hbrs, hb⟩)
        · exact ⟨.inl hbr, .inl hbt⟩
        · exact ⟨.inr hbrs, hb⟩
      · rintro ⟨hbr | hbrs, hb⟩
        · exact .inl ⟨hbr, hb.resolve_right (hdisj hbr)⟩
        · exact .inr ⟨hbrs, hb⟩
    · next hle =>
      -- `t` ends before the ranges after `r` start
      have hdisj : b ∈ t → b ∉ (⟨rs⟩ : ByteSet) := fun h h' => by
        have := lt_of_mem_of_starts hbeyond h'
        have := (ByteRange.mem_def.1 h).2
        omega
      rw [ih hts', mem_cons]
      constructor
      · rintro (⟨hbr, hbt⟩ | ⟨hb, hbts⟩)
        · exact ⟨.inl hbr, .inl hbt⟩
        · exact ⟨hb, .inr hbts⟩
      · rintro ⟨hb, hbt | hbts⟩
        · exact .inl ⟨hb.resolve_right (hdisj hbt), hbt⟩
        · exact .inr ⟨hb, hbts⟩

theorem mem_overlapsOf (hrs : Canonical ⟨rs⟩) (hts : Canonical ⟨ts⟩) :
    b ∈ (⟨overlapsOf rs ts⟩ : ByteSet) ↔ b ∈ (⟨rs⟩ : ByteSet) ∧ b ∈ (⟨ts⟩ : ByteSet) := by
  induction rs generalizing ts with
  | nil => simp [overlapsOf]
  | cons r rs ih =>
    exact mem_interRow hrs hts fun us hus => ih (canonical_cons.1 hrs).2.2 hus

/-- An intersection of canonical sets has the bytes of both. -/
theorem Canonical.mem_inter (hs : s.Canonical) (ht : t.Canonical) :
    b ∈ s.inter t ↔ b ∈ s ∧ b ∈ t := by
  rw [inter, mem_ofList, mem_overlapsOf hs ht]

theorem canonical_inter (s t : ByteSet) : (s.inter t).Canonical := canonical_ofList _

/-! ## Queries -/

/-- `covers` says that every byte of the range is in the set. -/
theorem Canonical.covers_iff (hs : s.Canonical) :
    s.covers r = true ↔ ∀ b, b ∈ r → b ∈ s := by
  unfold covers
  split
  · next hr =>
    obtain ⟨before, after, hsplit, hlead, hb, ha⟩ := hs.leading_split r.stop
    rw [hlead]
    obtain ⟨rs⟩ := s
    dsimp only at hsplit
    subst hsplit
    obtain ⟨-, hca, -⟩ := canonical_append.1 hs
    have hbefore : r.stop - 1 ∉ (⟨before⟩ : ByteSet) := by
      rintro ⟨t, ht, hbt⟩
      have := hb t ht
      have := (ByteRange.mem_def.1 hbt).2
      omega
    simp only [List.getElem?_append_right (Nat.le_refl before.length), Nat.sub_self]
    cases after with
    | nil =>
      simp only [List.length_nil, Nat.lt_irrefl, not_false_eq_true, getElem?_neg]
      refine iff_of_false (by simp) fun h => hbefore ?_
      simpa using h (r.stop - 1) (ByteRange.mem_def.2 (by omega))
    | cons t ts =>
      obtain ⟨ht, hlt, hts⟩ := canonical_cons.1 hca
      simp only [List.getElem?_cons_zero, ByteRange.contains, Bool.and_eq_true, decide_eq_true_eq]
      constructor
      · rintro ⟨h₁, h₂⟩ b hbr
        have := ByteRange.mem_def.1 hbr
        exact mem_append.2 (.inr (mem_cons.2 (.inl (ByteRange.mem_def.2 (by omega)))))
      · intro h
        refine ⟨Nat.not_lt.1 fun hstart => ?_, ha t List.mem_cons_self⟩
        -- a byte of `r` just before `t` would be missing, or the last byte of `r`
        have hlast : r.stop - 1 ∈ t := by
          have := h (r.stop - 1) (ByteRange.mem_def.2 (by omega))
          rw [mem_append, mem_cons] at this
          rcases this with h' | h' | h'
          · exact absurd h' hbefore
          · exact h'
          · have := lt_of_mem_of_starts hlt h'
            have := ha t List.mem_cons_self
            omega
        have := ByteRange.mem_def.1 hlast
        have hgap := h (t.start - 1) (ByteRange.mem_def.2 (by omega))
        obtain ⟨-, -, hcross⟩ := canonical_append.1 hs
        rw [mem_append, mem_cons] at hgap
        rcases hgap with ⟨u, hu, hbu⟩ | h' | h'
        · have := hcross u hu t List.mem_cons_self
          have := (ByteRange.mem_def.1 hbu).2
          omega
        · have := (ByteRange.mem_def.1 h').1
          omega
        · have := lt_of_mem_of_starts hlt h'
          omega
  · next hr =>
    refine iff_of_true rfl fun b hb => ?_
    have := ByteRange.mem_def.1 hb
    omega

/-- `subset` says that every byte of the first set is in the second. -/
theorem Canonical.subset_iff (ht : t.Canonical) :
    s.subset t = true ↔ ∀ b, b ∈ s → b ∈ t := by
  simp only [subset, List.all_eq_true, ht.covers_iff, mem_def (s := s)]
  exact ⟨fun h b ⟨r, hr, hb⟩ => h r hr b hb, fun h r hr b hb => h b ⟨r, hr, hb⟩⟩

/-! ## Canonical sets are determined by their bytes -/

theorem start_mem_cons (h : Canonical ⟨r :: rs⟩) : r.start ∈ (⟨r :: rs⟩ : ByteSet) :=
  mem_cons.2 (.inl (ByteRange.mem_def.2 ⟨Nat.le_refl _, (canonical_cons.1 h).1⟩))

/-- No byte lies before the first range. -/
theorem start_le_of_mem_cons (h : Canonical ⟨r :: rs⟩) (hb : b ∈ (⟨r :: rs⟩ : ByteSet)) :
    r.start ≤ b := by
  obtain ⟨hr, hlt, -⟩ := canonical_cons.1 h
  rcases mem_cons.1 hb with hb | hb
  · exact (ByteRange.mem_def.1 hb).1
  · have := lt_of_mem_of_starts hlt hb
    omega

/-- Of two ranges of a canonical set, one lies below the other, with a gap between them. -/
theorem Canonical.apart_of_mem {r t : ByteRange} (hs : s.Canonical) (hr : r ∈ s.ranges)
    (ht : t ∈ s.ranges) : r = t ∨ r.stop < t.start ∨ t.stop < r.start := by
  obtain ⟨rs⟩ := s
  obtain ⟨before, after, hsplit⟩ := List.append_of_mem ht
  dsimp only at hr hsplit
  subst hsplit
  obtain ⟨-, hafter, hcross⟩ := canonical_append.1 hs
  rcases List.mem_append.1 hr with hr | hr
  · exact .inr (.inl (hcross r hr t List.mem_cons_self))
  · rcases List.mem_cons.1 hr with rfl | hr
    · exact .inl rfl
    · exact .inr (.inr ((canonical_cons.1 hafter).2.1 r hr))

/-- A range of a canonical set cannot be extended upwards. -/
theorem Canonical.stop_not_mem (hs : s.Canonical) (hr : r ∈ s.ranges) : r.stop ∉ s := by
  rintro ⟨t, ht, hmem⟩
  have hne := hs.nonempty r hr
  rw [ByteRange.mem_def] at hmem
  rcases hs.apart_of_mem hr ht with rfl | h | h <;> omega

/-- The ranges after the first one have the bytes beyond it. -/
theorem mem_tail_iff (h : Canonical ⟨r :: rs⟩) :
    b ∈ (⟨rs⟩ : ByteSet) ↔ b ∈ (⟨r :: rs⟩ : ByteSet) ∧ r.stop < b := by
  obtain ⟨-, hlt, -⟩ := canonical_cons.1 h
  constructor
  · exact fun hb => ⟨mem_cons.2 (.inr hb), lt_of_mem_of_starts hlt hb⟩
  · rintro ⟨hb, hlt'⟩
    refine (mem_cons.1 hb).resolve_left fun hb => ?_
    have := (ByteRange.mem_def.1 hb).2
    omega

theorem stop_le_stop_of_mem {r t : ByteRange} (hr : Canonical ⟨r :: rs⟩)
    (hle : t.start ≤ r.start) (h : ∀ b, b ∈ (⟨t :: ts⟩ : ByteSet) → b ∈ (⟨r :: rs⟩ : ByteSet)) :
    t.stop ≤ r.stop := by
  refine Nat.not_lt.1 fun hlt => hr.stop_not_mem List.mem_cons_self (h _ (mem_cons.2 (.inl ?_)))
  have := (canonical_cons.1 hr).1
  exact ByteRange.mem_def.2 ⟨by omega, hlt⟩

/-- Canonical sets with the same bytes are equal. -/
theorem Canonical.ext (hs : s.Canonical) (ht : t.Canonical) (h : ∀ b, b ∈ s ↔ b ∈ t) :
    s = t := by
  obtain ⟨rs⟩ := s
  obtain ⟨ts⟩ := t
  congr 1
  induction rs generalizing ts with
  | nil =>
    cases ts with
    | nil => rfl
    | cons t ts => exact absurd ((h _).2 (start_mem_cons ht)) (not_mem_nil _)
  | cons r rs ih =>
    cases ts with
    | nil => exact absurd ((h _).1 (start_mem_cons hs)) (not_mem_nil _)
    | cons t ts =>
      have hstart : r.start = t.start := Nat.le_antisymm
        (start_le_of_mem_cons hs ((h _).2 (start_mem_cons ht)))
        (start_le_of_mem_cons ht ((h _).1 (start_mem_cons hs)))
      have hstop : r.stop = t.stop := Nat.le_antisymm
        (stop_le_stop_of_mem ht (by omega) fun b => (h b).1)
        (stop_le_stop_of_mem hs (by omega) fun b => (h b).2)
      obtain ⟨a, e⟩ := r
      obtain ⟨a', e'⟩ := t
      obtain rfl : a = a' := hstart
      obtain rfl : e = e' := hstop
      congr 1
      refine ih (canonical_cons.1 hs).2.2 _ (canonical_cons.1 ht).2.2 fun b => ?_
      rw [mem_tail_iff hs, mem_tail_iff ht, h]

end ByteSet

end ByteTrust
