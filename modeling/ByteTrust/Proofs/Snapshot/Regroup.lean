import ByteTrust.Proofs.Snapshot.History

/-!
# Meets in any order and any grouping

The meet of snapshots with a common history depends on which snapshots meet, not on their order,
and some of them may meet first (`meetAll_regroup`). What agrees is more than the trusted bytes:
the same objects are listed, with the same sets.

A meet writes a new sheet, or keeps the one that all snapshots have at a level. A kept sheet may
list an object without bytes where a new one would not, so it matters that every order and every
grouping chooses alike. `MeetLists` says what either choice lists, and depends only on which
sheets meet. A new sheet trusts in each object what the sheets trust jointly
(`trust_eq_joint`), so it can stand for them in a later meet (`MeetLists.regroup`).
-/

namespace ByteTrust

namespace Snapshot

variable {o : ObjectId} {n u v : Sheet} {E E' : List (Sheet × Bool)}

/-! ## One level -/

/-- One sheet under one flag. -/
def Uniform (E : List (Sheet × Bool)) : Prop :=
  ∀ e ∈ E, ∀ e' ∈ E, e = e'

/-- `n` is the sheet `E` consists of, or lists what the sheets `E` trust jointly. -/
structure MeetLists (E : List (Sheet × Bool)) (n : Sheet) : Prop where
  kept : Uniform E → ∀ e ∈ E, e.1 = n
  made : ¬ Uniform E → ∀ o, n.listed.get? o = listing? E (E.any Prod.snd) o

theorem meetLists_meetSheets (now : Stamp) {first : Sheet × Bool} {rest : List (Sheet × Bool)}
    (hcan : ∀ e ∈ first :: rest, e.1.Canonical)
    (hsame : ∀ e ∈ rest, e.1.stamp = first.1.stamp → e.1 = first.1) :
    MeetLists (first :: rest) (meetSheets now ((first :: rest).any Prod.snd) first rest) := by
  by_cases hall : (rest.all fun e => e.1.stamp = first.1.stamp && e.2 = first.2) = true
  · have heq := eq_first_of_all hsame hall
    have huniform : Uniform (first :: rest) := fun e he e' he' => (heq e he).trans (heq e' he').symm
    refine ⟨fun _ e he => ?_, fun hnot => absurd huniform hnot⟩
    rw [meetSheets, if_pos hall, heq e he]
  · refine ⟨fun huniform => absurd ?_ hall, fun _ o => get?_meetSheets now hcan rfl hall⟩
    refine List.all_eq_true.2 fun e he => ?_
    simp [huniform e (List.mem_cons_of_mem _ he) first List.mem_cons_self]

theorem Uniform.congr (hmem : ∀ e, e ∈ E ↔ e ∈ E') (h : Uniform E) : Uniform E' :=
  fun e he e' he' => h e ((hmem e).2 he) e' ((hmem e').2 he')

theorem any_snd_congr (hmem : ∀ e, e ∈ E ↔ e ∈ E') : E.any Prod.snd = E'.any Prod.snd := by
  rw [Bool.eq_iff_iff, List.any_eq_true, List.any_eq_true]
  simp only [hmem]

/-- The joint trust depends on which trusts there are, not on how often or in which order. -/
theorem joint_congr (hE : ∀ e ∈ E, e.1.Canonical) (hE' : ∀ e ∈ E', e.1.Canonical)
    (h : ∀ P : Trust → Prop, (∀ e ∈ E, P (e.1.trust e.2 o)) ↔ ∀ e ∈ E', P (e.1.trust e.2 o)) :
    joint E o = joint E' o := by
  refine (joint_canonical hE).ext (joint_canonical hE') ?_ fun b => ?_
  · simpa only [joint_eq_whole_iff] using h (· = .whole)
  · simpa only [joint_has hE, joint_has hE', ← Sheet.trust_has] using h (·.Has b)

theorem listing?_congr (clobbered : Bool) (h : joint E o = joint E' o) :
    listing? E clobbered o = listing? E' clobbered o := by
  rw [listing?, listing?, h]

/-- What a meet lists depends on which sheets meet. -/
theorem MeetLists.congr (hn : MeetLists E n) (hmem : ∀ e, e ∈ E ↔ e ∈ E')
    (hcan : ∀ e ∈ E, e.1.Canonical) : MeetLists E' n := by
  have hmem' : ∀ e, e ∈ E' ↔ e ∈ E := fun e => (hmem e).symm
  refine ⟨fun huniform e he => ?_, fun hnot o => ?_⟩
  · exact hn.kept (huniform.congr hmem') e ((hmem e).2 he)
  · rw [hn.made (fun h => hnot (h.congr hmem)) o, any_snd_congr hmem]
    refine listing?_congr _ (joint_congr hcan (fun e he => hcan e ((hmem e).2 he)) fun P => ?_)
    simp only [hmem]

theorem MeetLists.listed_eq (hu : MeetLists E u) (hv : MeetLists E v) (hne : E ≠ []) :
    u.listed = v.listed := by
  by_cases huniform : Uniform E
  · obtain ⟨e, he⟩ := List.exists_mem_of_ne_nil E hne
    rw [← hu.kept huniform e he, ← hv.kept huniform e he]
  · exact IdentMap.ext fun o => by rw [hu.made huniform o, hv.made huniform o]

/-- A new sheet stands for the sheets that met in it. -/
theorem joint_cons_of_made (hn : ∀ o, n.listed.get? o = listing? E (E.any Prod.snd) o) :
    joint ((n, E.any Prod.snd) :: E') o = joint (E ++ E') o := by
  unfold joint
  rw [List.map_cons, List.foldl_cons, trust_eq_joint (hn o), List.map_append, List.foldl_append]
  rfl

theorem any_snd_regroup (n : Sheet) :
    ((n, E.any Prod.snd) :: E').any Prod.snd = (E ++ E').any Prod.snd := by
  simp [List.any_append]

theorem Uniform.any_snd (h : Uniform E) {e : Sheet × Bool} (he : e ∈ E) :
    E.any Prod.snd = e.2 := by
  have hmem : ∀ e', e' ∈ E ↔ e' ∈ [e] := fun e' =>
    ⟨fun he' => List.mem_singleton.2 (h e' he' e he), fun he' => List.mem_singleton.1 he' ▸ he⟩
  rw [any_snd_congr hmem]
  simp

/-- The sheets `E` may meet first, in the sheet `n`. -/
theorem MeetLists.regroup (hn : MeetLists E n) (hu : MeetLists ((n, E.any Prod.snd) :: E') u)
    (hv : MeetLists (E ++ E') v) (hne : E ≠ []) (hcan : ∀ e ∈ E ++ E', e.1.Canonical)
    (hncan : n.Canonical) : u.listed = v.listed := by
  have hcan' : ∀ e ∈ (n, E.any Prod.snd) :: E', e.1.Canonical :=
    List.forall_mem_cons.2 ⟨hncan, fun e he => hcan e (List.mem_append_right E he)⟩
  by_cases huniform : Uniform E
  · -- `n` is the sheet that was met all along
    obtain ⟨e₀, he₀⟩ := List.exists_mem_of_ne_nil E hne
    have hfirst : (n, E.any Prod.snd) = e₀ :=
      Prod.ext (hn.kept huniform e₀ he₀).symm (huniform.any_snd he₀)
    refine (hu.congr (fun e => ?_) hcan').listed_eq hv (by simp [hne])
    rw [List.mem_cons, List.mem_append, hfirst]
    exact or_congr_left ⟨fun h => h ▸ he₀, fun he => huniform e he e₀ he₀⟩
  · have hmade := hn.made huniform
    have hv' := hv.made fun h => huniform fun e he e' he' =>
      h e (List.mem_append_left E' he) e' (List.mem_append_left E' he')
    refine IdentMap.ext fun o => ?_
    rw [hv' o, ← any_snd_regroup n, ← listing?_congr _ (joint_cons_of_made hmade)]
    by_cases hagain : Uniform ((n, E.any Prod.snd) :: E')
    · -- all later sheets are `n` again, which lists what `E` trusts jointly
      rw [← hu.kept hagain _ List.mem_cons_self, hmade o, hagain.any_snd List.mem_cons_self]
      refine listing?_congr _ ?_
      have hself : joint E o = joint [(n, E.any Prod.snd)] o := by
        rw [joint_cons_of_made hmade, List.append_nil]
      rw [hself]
      refine joint_congr (by simpa using hncan) hcan' fun P => ⟨fun h e he => ?_, fun h e he => ?_⟩
      · rw [hagain e he _ List.mem_cons_self]
        exact h _ List.mem_cons_self
      · exact h e (List.mem_cons.2 (.inl (List.mem_singleton.1 he)))
    · exact hu.made hagain o

/-! ## Whole snapshots -/

variable {now : Stamp} {H xs ys zs : List Snapshot} {s t m : Snapshot} {ℓ : Level}

/-- At each level a meet lists what a meet of the sheets there lists. -/
theorem Coherent.meetLists (h : Coherent xs) (hm : meetAll now xs = .ok (some m))
    (hn : m.at? ℓ = some n) : MeetLists (sheetsAt xs ℓ) n := by
  obtain ⟨hmeet, -⟩ := h.isMeet hm
  cases xs with
  | nil => simp [meetAll] at hm
  | cons s ts =>
    have hs := hmeet.owners s List.mem_cons_self
    by_cases hsame : (ts.all fun t => t.isSame s) = true
    · rw [meetAll, if_pos hsame] at hm
      obtain rfl : s = m := Option.some.inj (Except.ok.inj hm)
      simp only [List.all_eq_true, isSame, decide_eq_true_eq] at hsame
      have hall : ∀ e ∈ sheetsAt (s :: ts) ℓ, e = (n, s.othersClobbered) := by
        intro e he
        obtain ⟨x, hx, hat, hflag⟩ := mem_sheetsAt.1 he
        obtain rfl : x = s := by
          rcases List.mem_cons.1 hx with rfl | hx'
          · rfl
          · exact h.same x hx s List.mem_cons_self (hsame x hx')
        exact Prod.ext (Option.some.inj (hat.symm.trans hn)) hflag.symm
      exact ⟨fun _ e he => by rw [hall e he], fun hnot =>
        absurd (fun e he e' he' => (hall e he).trans (hall e' he').symm) hnot⟩
    · have howners : ∀ t ∈ ts, t.owners = s.owners := fun t ht =>
        (hmeet.owners t (List.mem_cons_of_mem _ ht)).trans hs.symm
      obtain ⟨m', hm', -, -, hflag, hlevels⟩ := meetAll_eq_new howners hsame now
      cases hm.symm.trans hm'
      rw [hlevels] at hn
      obtain ⟨k, hk, rfl⟩ := Option.map_eq_some_iff.1 hn
      obtain ⟨hcan, heq, hflags⟩ := h.level howners hk
      rw [sheetsAt_cons hk, hflag, hflags]
      exact meetLists_meetSheets now hcan heq

theorem map_listed_eq {fs gs : List Frame} (howners : fs.map Frame.owner = gs.map Frame.owner)
    (hlisted : ∀ d m n, frameAt? fs d = some m → frameAt? gs d = some n → m.listed = n.listed) :
    (fs.map fun f => (f.owner, f.sheet.listed)) = gs.map fun f => (f.owner, f.sheet.listed) := by
  induction gs generalizing fs with
  | nil => simpa using howners
  | cons g gs ih =>
    obtain ⟨f, fs, rfl, htail, hlen⟩ := exists_cons_of_owners howners
    have hhead : f.sheet.listed = g.sheet.listed :=
      hlisted gs.length _ _ (by simp [frameAt?, hlen]) (by simp [frameAt?])
    rw [List.map_cons, List.map_cons, (List.cons.inj howners).1, hhead]
    refine congrArg _ (ih htail fun d m n hm hn => hlisted d m n ?_ ?_)
    · exact frameAt?_cons_of_some f hm
    · exact frameAt?_cons_of_some g hn

/-- Snapshots with the same frames and flag that list the same at each level are alike. -/
theorem contents_eq_of_levels (howners : s.owners = t.owners)
    (hflag : s.othersClobbered = t.othersClobbered)
    (hlisted : ∀ ℓ m n, s.at? ℓ = some m → t.at? ℓ = some n → m.listed = n.listed) :
    s.contents = t.contents := by
  rw [contents, contents, hflag, hlisted .shared _ _ rfl rfl,
    map_listed_eq howners fun d => hlisted (.frame d)]

/-! ## Order and grouping -/

/-- Both meets fail, or both succeed with the same contents. -/
inductive Agree : Except Fault (Option Snapshot) → Except Fault (Option Snapshot) → Prop
  | alike {m m' : Snapshot} (h : m.contents = m'.contents) : Agree (.ok (some m)) (.ok (some m'))
  | fail (f f' : Fault) : Agree (.error f) (.error f')

/-- All snapshots have the same frames. -/
def SameFrames (xs : List Snapshot) : Prop :=
  ∀ x ∈ xs, ∀ y ∈ xs, x.owners = y.owners

theorem Coherent.meetAll_cases (h : Coherent xs) (hne : xs ≠ []) (now : Stamp) :
    (SameFrames xs ∧ ∃ m, meetAll now xs = .ok (some m)) ∨
      (¬ SameFrames xs ∧ ∃ f, meetAll now xs = .error f) := by
  obtain ⟨s, ts, rfl⟩ := List.exists_cons_of_ne_nil hne
  by_cases howners : ∀ t ∈ ts, t.owners = s.owners
  · have hs : ∀ x ∈ s :: ts, x.owners = s.owners := List.forall_mem_cons.2 ⟨rfl, howners⟩
    obtain ⟨m, hm, -⟩ := h.meetAll_eq_ok howners now
    exact .inl ⟨fun x hx y hy => (hs x hx).trans (hs y hy).symm, m, hm⟩
  · obtain ⟨t, ht⟩ := not_forall.1 howners
    obtain ⟨ht, hne⟩ := Classical.not_imp.1 ht
    obtain ⟨left, right, herror⟩ := h.meetAll_eq_error ⟨t, ht, hne⟩ now
    exact .inr ⟨fun hsame => hne (hsame t (List.mem_cons_of_mem _ ht) s List.mem_cons_self),
      _, herror⟩

/-- Meets agree when they fail alike and, where they succeed, list the same at each level. -/
theorem Coherent.agree {later : Stamp} (hxs : Coherent xs) (hzs : Coherent zs) (hx : s ∈ xs)
    (hz : t ∈ zs) (howners : s.owners = t.owners) (hframes : SameFrames xs ↔ SameFrames zs)
    (hflag : xs.any Snapshot.othersClobbered = zs.any Snapshot.othersClobbered)
    (hlisted : ∀ m m', meetAll now xs = .ok (some m) → meetAll later zs = .ok (some m') →
      ∀ ℓ n n', m.at? ℓ = some n → m'.at? ℓ = some n' → n.listed = n'.listed) :
    Agree (meetAll now xs) (meetAll later zs) := by
  rcases hxs.meetAll_cases (List.ne_nil_of_mem hx) now with ⟨hsame, m, hm⟩ | ⟨hnot, f, hf⟩ <;>
    rcases hzs.meetAll_cases (List.ne_nil_of_mem hz) later with ⟨hsame', m', hm'⟩ | ⟨hnot', f', hf'⟩
  · have hmeet := (hxs.isMeet hm).1
    have hmeet' := (hzs.isMeet hm').1
    rw [hm, hm']
    refine .alike (contents_eq_of_levels ?_ ?_ (hlisted m m' hm hm'))
    · exact (hmeet.owners s hx).symm.trans (howners.trans (hmeet'.owners t hz))
    · rw [hmeet.flag, hmeet'.flag, hflag]
  · exact absurd (hframes.1 hsame) hnot'
  · exact absurd (hframes.2 hsame') hnot
  · rw [hf, hf']
    exact .fail f f'

theorem sheetsAt_ne_nil (hm : IsMeet xs m) (hne : xs ≠ []) (hn : m.at? ℓ = some n) :
    sheetsAt xs ℓ ≠ [] := by
  obtain ⟨x, hx⟩ := List.exists_mem_of_ne_nil xs hne
  obtain ⟨k, hk⟩ := exists_at?_of_owners (hm.owners x hx) hn
  have hmem : (k, x.othersClobbered) ∈ sheetsAt xs ℓ := mem_sheetsAt.2 ⟨x, hx, hk, rfl⟩
  exact List.ne_nil_of_mem hmem

/-- Snapshots meet in any order. -/
theorem Coherent.agree_perm {later : Stamp} (h : Coherent xs) (hne : xs ≠ []) (hperm : zs.Perm xs) :
    Agree (meetAll later zs) (meetAll now xs) := by
  have hmem : ∀ x, x ∈ zs ↔ x ∈ xs := fun x => hperm.mem_iff
  obtain ⟨s, hs⟩ := List.exists_mem_of_ne_nil xs hne
  have hzs := h.mono fun x hx => (hmem x).1 hx
  refine hzs.agree h ((hmem s).2 hs) hs rfl (by simp only [SameFrames, hmem]) ?_ ?_
  · rw [Bool.eq_iff_iff, List.any_eq_true, List.any_eq_true]
    simp only [hmem]
  · intro m m' hm hm' ℓ n n' hn hn'
    refine ((hzs.meetLists hm hn).congr (fun e => ?_) (hzs.canonical_sheetsAt ℓ)).listed_eq
      (h.meetLists hm' hn') (sheetsAt_ne_nil (h.isMeet hm').1 hne hn')
    simp only [mem_sheetsAt, hmem]

/-- Some of the snapshots may meet first. -/
theorem Coherent.agree_regroup {t t' : Stamp} (h : Coherent (m :: xs ++ ys)) (hne : xs ≠ [])
    (hm : meetAll now xs = .ok (some m)) :
    Agree (meetAll t (m :: ys)) (meetAll t' (xs ++ ys)) := by
  have hxs : Coherent xs := h.mono fun x hx => by simp [hx]
  have hall : Coherent (xs ++ ys) := h.mono fun x hx => List.mem_cons_of_mem m hx
  have hmys : Coherent (m :: ys) := h.mono fun x hx => by
    rcases List.mem_cons.1 hx with rfl | hx <;> simp [*]
  obtain ⟨s, hs⟩ := List.exists_mem_of_ne_nil xs hne
  obtain ⟨hmeet, -⟩ := hxs.isMeet hm
  refine hmys.agree hall List.mem_cons_self (List.mem_append_left ys hs)
    (hmeet.owners s hs).symm ⟨fun hsame x hx y hy => ?_, fun hsame x hx y hy => ?_⟩ ?_ ?_
  · have howners : ∀ x ∈ xs ++ ys, x.owners = m.owners := fun x hx => by
      rcases List.mem_append.1 hx with hx | hx
      · exact hmeet.owners x hx
      · exact hsame x (List.mem_cons_of_mem _ hx) m List.mem_cons_self
    exact (howners x hx).trans (howners y hy).symm
  · have howners : ∀ x ∈ m :: ys, x.owners = s.owners := fun x hx => by
      rcases List.mem_cons.1 hx with rfl | hx
      · exact (hmeet.owners s hs).symm
      · exact hsame x (List.mem_append_right xs hx) s (List.mem_append_left ys hs)
    exact (howners x hx).trans (howners y hy).symm
  · rw [List.any_cons, List.any_append, hmeet.flag]
  · intro u v hu hv ℓ n n' hn hn'
    have howners : u.owners = m.owners := ((hmys.isMeet hu).1.owners m List.mem_cons_self).symm
    obtain ⟨k, hk⟩ := exists_at?_of_owners howners.symm hn
    have hflag : (sheetsAt xs ℓ).any Prod.snd = m.othersClobbered := by
      rw [hmeet.flag]
      exact any_sheetsAt fun x hx => exists_at?_of_owners (hmeet.owners x hx) hk
    have hcons : sheetsAt (m :: ys) ℓ = (k, (sheetsAt xs ℓ).any Prod.snd) :: sheetsAt ys ℓ := by
      rw [hflag, sheetsAt_cons hk]
    have happend : sheetsAt (xs ++ ys) ℓ = sheetsAt xs ℓ ++ sheetsAt ys ℓ := List.filterMap_append
    refine (hxs.meetLists hm hk).regroup (hcons ▸ hmys.meetLists hu hn)
      (happend ▸ hall.meetLists hv hn') (sheetsAt_ne_nil hmeet hne hk) ?_ ?_
    · exact happend ▸ hall.canonical_sheetsAt ℓ
    · exact h.canonical m (by simp) ℓ k hk

/-- Snapshots with a common history meet in any order, with the same outcome. Where some of them
meet, their meet stands for them in a meet with others, whether the others were made before it,
after it or from it. -/
theorem meetAll_regroup (h : History now H) (hne : xs ≠ []) (hxs : ∀ x ∈ xs, x ∈ H)
    (hys : ∀ y ∈ ys, y ∈ H) (t t' : Stamp) :
    (∀ zs, zs.Perm xs → Agree (meetAll t zs) (meetAll t' xs)) ∧
      ∀ m ∈ H, ∀ t₀, meetAll t₀ xs = .ok (some m) →
        Agree (meetAll t (m :: ys)) (meetAll t' (xs ++ ys)) := by
  have hcoh := h.coherent.1
  refine ⟨fun zs hperm => (hcoh.mono hxs).agree_perm hne hperm, fun m hm t₀ hmeet => ?_⟩
  refine Coherent.agree_regroup (hcoh.mono fun x hx => ?_) hne hmeet
  simp only [List.cons_append, List.mem_cons, List.mem_append] at hx
  rcases hx with rfl | hx | hx
  · exact hm
  · exact hxs x hx
  · exact hys x hx

/-- A snapshot that trusts everything and one that trusts four bytes meet in either order, and may
meet before a third one comes that trusts two of the bytes. -/
theorem meetAll_regroup_partial :
    let all := trusting 0
    let four := (all.clobberAll 1).modify 1 (.shared ⟨7⟩) (·.insert ⟨0, 4⟩)
    let two := all.modify 2 (.shared ⟨7⟩) (·.insert ⟨2, 4⟩)
    ∃ m, meetAll 3 [all, four] = .ok (some m) ∧ History 4 [m, two, four, all] ∧
      Agree (meetAll 4 [four, all]) (meetAll 5 [all, four]) ∧
      Agree (meetAll 4 [m, two]) (meetAll 5 [all, four, two]) ∧
      (meetAll 4 [m, two]).isOk = true := by
  intro all four two
  obtain ⟨m, hm⟩ : ∃ m, meetAll 3 [all, four] = .ok (some m) := ⟨_, rfl⟩
  have hbefore : History 3 [two, four, all] :=
    (((History.start 0).next .trusting).next
      ((Makes.clobberAll (.held List.mem_cons_self)).modify _ fun _ h => h.insert _)).next
        ((Makes.held (List.mem_cons_of_mem _ List.mem_cons_self)).modify _ fun _ h => h.insert _)
  have hhist : History 4 [m, two, four, all] := hbefore.next (.meet (by simp) hm)
  have hxs : ∀ x ∈ [all, four], x ∈ [m, two, four, all] := by simp
  have hys : ∀ y ∈ [two], y ∈ [m, two, four, all] := by simp
  obtain ⟨hperm, hgroup⟩ := meetAll_regroup hhist (List.cons_ne_nil _ _) hxs hys 4 5
  refine ⟨m, hm, hhist, hperm _ (.swap all four []), hgroup m (by simp) 3 hm, ?_⟩
  cases hm
  rfl

end Snapshot

end ByteTrust
