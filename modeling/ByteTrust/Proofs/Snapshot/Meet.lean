import ByteTrust.Proofs.Snapshot.View
import ByteTrust.Snapshot.Order

/-!
# What a meet trusts

Where coherent snapshots meet, a byte is trusted afterwards exactly when each of them trusts it
(`Coherent.isMeet`). The argument follows the definition: the trust in one object
(`foldl_meet_has`), the sheets at one level (`meetSheets_trusts`), the levels one by one
(`meetAll_eq_new`). Coherence is what makes the three ways of meeting agree: when all stamps are
equal, all inputs are equal, and the first one stands for their meet.
-/

namespace ByteTrust

/-! ## Trust in one object -/

/-- The byte is trusted. -/
def Trust.Has (b : Nat) : Trust → Prop
  | .whole => True
  | .only bytes => b ∈ bytes

/-- A listed set is canonical. -/
def Trust.Canonical : Trust → Prop
  | .whole => True
  | .only bytes => bytes.Canonical

/-- Every listed set is canonical. -/
def Sheet.Canonical (m : Sheet) : Prop :=
  ∀ o bytes, m.listed.get? o = some bytes → bytes.Canonical

theorem Sheet.canonical_blank (now : Stamp) : (Sheet.blank now).Canonical := by
  intro o bytes h
  cases h

variable {b : Nat} {o : ObjectId} {m : Sheet} {clobbered : Bool} {sheets : List (Sheet × Bool)}

theorem Trust.Canonical.meet {t u : Trust} (ht : t.Canonical) (hu : u.Canonical) :
    (t.meet u).Canonical := by
  cases t with
  | whole => exact hu
  | only bytes =>
    cases u with
    | whole => exact ht
    | only bytes' => exact ByteSet.canonical_inter bytes bytes'

theorem Trust.has_meet {t u : Trust} (ht : t.Canonical) (hu : u.Canonical) :
    (t.meet u).Has b ↔ t.Has b ∧ u.Has b := by
  cases t with
  | whole => simp [Trust.meet, Trust.Has]
  | only bytes =>
    cases u with
    | whole => simp [Trust.meet, Trust.Has]
    | only bytes' => exact ByteSet.Canonical.mem_inter ht hu

theorem Sheet.Canonical.trust (hm : m.Canonical) (clobbered : Bool) (o : ObjectId) :
    (m.trust clobbered o).Canonical := by
  unfold Sheet.trust
  split
  · next bytes h => exact hm o bytes h
  · split
    · exact ByteSet.canonical_empty
    · trivial

theorem Sheet.trust_has : (m.trust clobbered o).Has b ↔ m.Trusts clobbered o b := by
  unfold Sheet.trust Sheet.Trusts
  cases m.listed.get? o with
  | some bytes => rfl
  | none => cases clobbered <;> simp [Trust.Has]

/-- What a fold of meets trusts, from any trust on. -/
theorem foldl_meet_has (hsheets : ∀ e ∈ sheets, e.1.Canonical) {t : Trust} (ht : t.Canonical) :
    ((sheets.map fun e => e.1.trust e.2 o).foldl Trust.meet t).Canonical ∧
      (((sheets.map fun e => e.1.trust e.2 o).foldl Trust.meet t).Has b ↔
        t.Has b ∧ ∀ e ∈ sheets, e.1.Trusts e.2 o b) := by
  induction sheets generalizing t with
  | nil => simpa using ht
  | cons e es ih =>
    have he := (hsheets e List.mem_cons_self).trust e.2 o
    obtain ⟨hcan, hhas⟩ := ih (fun e' he' => hsheets e' (List.mem_cons_of_mem _ he')) (ht.meet he)
    refine ⟨hcan, ?_⟩
    rw [List.map_cons, List.foldl_cons, hhas, Trust.has_meet ht he, Sheet.trust_has,
      List.forall_mem_cons, and_assoc]

/-- Trust in a whole object is left only if every sheet trusts it as a whole. -/
theorem trust_eq_whole_of_foldl_meet {t : Trust}
    (h : (sheets.map fun e => e.1.trust e.2 o).foldl Trust.meet t = .whole) :
    t = .whole ∧ ∀ e ∈ sheets, e.1.trust e.2 o = .whole := by
  induction sheets generalizing t with
  | nil => simpa using h
  | cons e es ih =>
    obtain ⟨hmeet, hes⟩ := ih h
    have hboth : t = .whole ∧ e.1.trust e.2 o = .whole := by
      cases t <;> cases hee : e.1.trust e.2 o <;> simp [hee, Trust.meet] at hmeet ⊢
    refine ⟨hboth.1, fun e' he' => ?_⟩
    rcases List.mem_cons.1 he' with rfl | he'
    · exact hboth.2
    · exact hes e' he'

theorem Sheet.trust_eq_whole_iff :
    m.trust clobbered o = .whole ↔ m.listed.get? o = none ∧ clobbered = false := by
  unfold Sheet.trust
  cases m.listed.get? o <;> cases clobbered <;> simp

/-- Canonical trusts are told apart by their bytes and by whether they are in a whole object. -/
theorem Trust.Canonical.ext {t u : Trust} (ht : t.Canonical) (hu : u.Canonical)
    (hwhole : t = .whole ↔ u = .whole) (hhas : ∀ b, t.Has b ↔ u.Has b) : t = u := by
  cases t with
  | whole => exact (hwhole.1 rfl).symm
  | only bytes =>
    cases u with
    | whole => cases hwhole.2 rfl
    | only bytes' => exact congrArg Trust.only (ByteSet.Canonical.ext ht hu hhas)

namespace Snapshot

/-! ## The sheets at one level -/

/-- What all sheets trust of an object. -/
def joint (sheets : List (Sheet × Bool)) (o : ObjectId) : Trust :=
  (sheets.map fun e => e.1.trust e.2 o).foldl Trust.meet .whole

/-- What a meet of sheets lists for an object. -/
def listing? (sheets : List (Sheet × Bool)) (clobbered : Bool) (o : ObjectId) : Option ByteSet :=
  match joint sheets o with
  | .whole => none
  | .only bytes => if clobbered && bytes.isEmpty then none else some bytes

theorem joint_canonical (hcan : ∀ e ∈ sheets, e.1.Canonical) : (joint sheets o).Canonical :=
  (foldl_meet_has (b := 0) hcan (t := .whole) trivial).1

theorem joint_has (hcan : ∀ e ∈ sheets, e.1.Canonical) :
    (joint sheets o).Has b ↔ ∀ e ∈ sheets, e.1.Trusts e.2 o b :=
  (foldl_meet_has hcan (t := .whole) trivial).2.trans (iff_of_eq (true_and _))

theorem joint_eq_whole_iff : joint sheets o = .whole ↔ ∀ e ∈ sheets, e.1.trust e.2 o = .whole := by
  refine ⟨fun h => (trust_eq_whole_of_foldl_meet h).2, fun h => ?_⟩
  unfold joint
  induction sheets with
  | nil => rfl
  | cons e es ih =>
    obtain ⟨he, hes⟩ := List.forall_mem_cons.1 h
    rw [List.map_cons, List.foldl_cons, he]
    exact ih hes

/-- A sheet that lists what a meet of sheets lists trusts what they trust jointly. -/
theorem trust_eq_joint (h : m.listed.get? o = listing? sheets (sheets.any Prod.snd) o) :
    m.trust (sheets.any Prod.snd) o = joint sheets o := by
  unfold Sheet.trust
  rw [h, listing?]
  cases hjoint : joint sheets o with
  | whole =>
    have hflags : sheets.any Prod.snd = false := List.any_eq_false.2 fun e he => by
      simp [(Sheet.trust_eq_whole_iff.1 (joint_eq_whole_iff.1 hjoint e he)).2]
    simp [hflags]
  | only bytes =>
    by_cases hempty : (sheets.any Prod.snd && bytes.isEmpty) = true
    · obtain ⟨hflag, hbytes⟩ := Bool.and_eq_true_iff.1 hempty
      obtain ⟨rs⟩ := bytes
      obtain rfl : rs = [] := List.isEmpty_iff.1 hbytes
      simp only [if_true, hflag]
      rfl
    · simp [hempty]

/-- An object that no sheet lists is trusted as a whole or not at all, and is not listed. -/
theorem listing?_eq_none (hcan : ∀ e ∈ sheets, e.1.Canonical)
    (hnone : ∀ e ∈ sheets, e.1.listed.get? o = none) :
    listing? sheets (sheets.any Prod.snd) o = none := by
  rw [listing?]
  cases hflag : sheets.any Prod.snd with
  | false =>
    have hwhole : joint sheets o = .whole := joint_eq_whole_iff.2 fun e he =>
      Sheet.trust_eq_whole_iff.2 ⟨hnone e he, by simpa using List.any_eq_false.1 hflag e he⟩
    rw [hwhole]
  | true =>
    obtain ⟨e, he, hclobbered⟩ := List.any_eq_true.1 hflag
    have hhas : ∀ b, ¬ (joint sheets o).Has b := fun b hb => by
      have htrusts := (joint_has hcan).1 hb e he
      simp [Sheet.Trusts, hnone e he, hclobbered] at htrusts
    have hcanonical := joint_canonical (o := o) hcan
    cases hjoint : joint sheets o with
    | whole => rfl
    | only bytes =>
      rw [hjoint] at hhas hcanonical
      obtain rfl : bytes = ∅ :=
        ByteSet.Canonical.ext hcanonical ByteSet.canonical_empty fun b =>
          iff_of_false (hhas b) (ByteSet.not_mem_empty b)
      rfl

theorem get?_listMeet (m : IdentMap .object ByteSet) (o o' : ObjectId) :
    (listMeet sheets clobbered m o).get? o' =
      if o' = o then (listing? sheets clobbered o).or (m.get? o') else m.get? o' := by
  unfold listMeet listing? joint
  cases (sheets.map fun e => e.1.trust e.2 o).foldl Trust.meet .whole with
  | whole => simp
  | only bytes =>
    dsimp only
    split
    · simp
    · simp [IdentMap.get?_insert]

theorem get?_foldl_listMeet (os : List ObjectId) (m : IdentMap .object ByteSet) :
    (os.foldl (listMeet sheets clobbered) m).get? o =
      if o ∈ os then (listing? sheets clobbered o).or (m.get? o) else m.get? o := by
  induction os generalizing m with
  | nil => rfl
  | cons o' os ih =>
    rw [List.foldl_cons, ih, get?_listMeet]
    by_cases h : o = o'
    · subst h
      cases listing? sheets clobbered o <;> simp
    · simp [h]

/-- A meet of sheets that do not all have one stamp and one flag lists what they trust
jointly. -/
theorem get?_meetSheets (now : Stamp) {first : Sheet × Bool} {rest : List (Sheet × Bool)}
    (hcan : ∀ e ∈ first :: rest, e.1.Canonical)
    (hflag : clobbered = (first :: rest).any Prod.snd)
    (hne : ¬ (rest.all fun e => e.1.stamp = first.1.stamp && e.2 = first.2) = true) :
    (meetSheets now clobbered first rest).listed.get? o =
      listing? (first :: rest) clobbered o := by
  rw [meetSheets, if_neg hne]
  simp only [get?_foldl_listMeet, IdentSet.mem_toList, IdentSet.mem_ofList,
    IdentMap.get?_empty, Option.or_none, ite_eq_left_iff]
  intro hkeys
  rw [hflag]
  refine (listing?_eq_none hcan fun e he => ?_).symm
  cases hget : e.1.listed.get? o with
  | none => rfl
  | some bytes => exact absurd (List.mem_flatMap.2 ⟨e, he, IdentMap.mem_keys.2 ⟨_, hget⟩⟩) hkeys

/-- Sheets with the stamp and the flag of the first one are the first one, provided that sheets
with one stamp are equal. -/
theorem eq_first_of_all {first : Sheet × Bool} {rest : List (Sheet × Bool)}
    (hsame : ∀ e ∈ rest, e.1.stamp = first.1.stamp → e.1 = first.1)
    (hall : (rest.all fun e => e.1.stamp = first.1.stamp && e.2 = first.2) = true) :
    ∀ e ∈ first :: rest, e = first := by
  simp only [List.all_eq_true, Bool.and_eq_true, decide_eq_true_eq] at hall
  refine List.forall_mem_cons.2 ⟨rfl, fun e he => ?_⟩
  obtain ⟨h₁, h₂⟩ := hall e he
  exact Prod.ext (hsame e he h₁) h₂

theorem any_snd_of_forall_eq {first : Sheet × Bool} {rest : List (Sheet × Bool)}
    (h : ∀ e ∈ first :: rest, e = first) : (first :: rest).any Prod.snd = first.2 := by
  cases hflag : first.2 with
  | true => exact List.any_eq_true.2 ⟨first, List.mem_cons_self, hflag⟩
  | false =>
    refine List.any_eq_false.2 fun e he => ?_
    simp [h e he, hflag]

/-- A byte is trusted after a meet of sheets exactly when each of them trusts it, provided that
sheets with one stamp are equal. -/
theorem meetSheets_trusts (now : Stamp) {first : Sheet × Bool} {rest : List (Sheet × Bool)}
    (hcan : ∀ e ∈ first :: rest, e.1.Canonical)
    (hsame : ∀ e ∈ rest, e.1.stamp = first.1.stamp → e.1 = first.1)
    (hflag : clobbered = (first :: rest).any Prod.snd) :
    (meetSheets now clobbered first rest).Trusts clobbered o b ↔
      ∀ e ∈ first :: rest, e.1.Trusts e.2 o b := by
  by_cases hall : (rest.all fun e => e.1.stamp = first.1.stamp && e.2 = first.2) = true
  · have heq := eq_first_of_all hsame hall
    rw [meetSheets, if_pos hall, hflag, any_snd_of_forall_eq heq]
    exact ⟨fun h e he => heq e he ▸ h, fun h => h first List.mem_cons_self⟩
  · have hget := get?_meetSheets (o := o) now hcan hflag hall
    rw [← Sheet.trust_has, ← joint_has hcan]
    subst hflag
    rw [trust_eq_joint hget]

/-- A meet of canonical sheets is canonical, and it is the first sheet or was written now. -/
theorem meetSheets_made (now : Stamp) (clobbered : Bool) {first : Sheet × Bool}
    {rest : List (Sheet × Bool)} (hcan : ∀ e ∈ first :: rest, e.1.Canonical) :
    (meetSheets now clobbered first rest).Canonical ∧
      (meetSheets now clobbered first rest = first.1 ∨
        (meetSheets now clobbered first rest).stamp = now) := by
  unfold meetSheets
  split
  · exact ⟨hcan first List.mem_cons_self, .inl rfl⟩
  · refine ⟨fun o bytes h => ?_, .inr rfl⟩
    simp only [get?_foldl_listMeet, IdentMap.get?_empty, Option.or_none, listing?] at h
    have hfold := joint_canonical (o := o) hcan
    split at h
    · split at h
      · cases h
      · next hbytes =>
        split at h
        · cases h
        · cases h
          rw [hbytes] at hfold
          exact hfold
    · cases h

/-! ## Frames -/

/-- A list of frames with the owners of another one, seen from its innermost frame. -/
theorem exists_cons_of_owners {f : Frame} {fs gs : List Frame}
    (h : gs.map Frame.owner = (f :: fs).map Frame.owner) :
    ∃ g gs', gs = g :: gs' ∧ gs'.map Frame.owner = fs.map Frame.owner ∧
      gs'.length = fs.length := by
  cases gs with
  | nil => cases h
  | cons g gs' =>
    have htail : gs'.map Frame.owner = fs.map Frame.owner := (List.cons.inj h).2
    exact ⟨g, gs', rfl, htail, by simpa using congrArg List.length htail⟩

theorem map_owner_meetFrames (now : Stamp) (clobbered flag : Bool) (fs : List Frame)
    (calls : List (List Frame × Bool)) :
    (meetFrames now clobbered flag fs calls).map Frame.owner = fs.map Frame.owner := by
  induction fs generalizing calls with
  | nil => rfl
  | cons f fs ih => simp [meetFrames, ih]

/-- The meet of frames with the same owners has at each level the meet of their sheets. -/
theorem frameAt?_meetFrames (now : Stamp) (clobbered flag : Bool) {fs : List Frame}
    {calls : List (List Frame × Bool)} {d : Nat}
    (howners : ∀ c ∈ calls, c.1.map Frame.owner = fs.map Frame.owner) :
    frameAt? (meetFrames now clobbered flag fs calls) d =
      (frameAt? fs d).map fun m => meetSheets now clobbered (m, flag)
        (calls.filterMap fun c => (frameAt? c.1 d).map fun n => (n, c.2)) := by
  induction fs generalizing calls with
  | nil => rfl
  | cons f fs ih =>
    have hlen : (meetFrames now clobbered flag fs (innermost calls).2).length = fs.length := by
      simpa using congrArg List.length
        (map_owner_meetFrames now clobbered flag fs (innermost calls).2)
    simp only [meetFrames, frameAt?, hlen]
    by_cases hd : d = fs.length
    · rw [if_pos hd, if_pos hd, Option.map_some, innermost]
      congr 2
      refine List.filterMap_congr fun c hc => ?_
      obtain ⟨g, gs, hgs, -, hgslen⟩ := exists_cons_of_owners (howners c hc)
      simp [hgs, frameAt?, hd, hgslen]
    · rw [if_neg hd, if_neg hd, ih, innermost, List.filterMap_map]
      · congr 2
        funext m
        congr 1
        refine List.filterMap_congr fun c hc => ?_
        obtain ⟨g, gs, hgs, -, hgslen⟩ := exists_cons_of_owners (howners c hc)
        simp [hgs, frameAt?, show d ≠ gs.length by omega]
      · refine List.forall_mem_map.2 fun c hc => ?_
        obtain ⟨g, gs, hgs, hgsowners, -⟩ := exists_cons_of_owners (howners c hc)
        rw [hgs]
        exact hgsowners

/-! ## Whole snapshots -/

/-- Stamps are identities among these snapshots, and all listed sets are canonical. -/
structure Coherent (H : List Snapshot) : Prop where
  same : ∀ s ∈ H, ∀ t ∈ H, s.stamp = t.stamp → s = t
  sheet : ∀ s ∈ H, ∀ t ∈ H, ∀ ℓ m n, s.at? ℓ = some m → t.at? ℓ = some n →
    m.stamp = n.stamp → m = n
  canonical : ∀ s ∈ H, ∀ ℓ m, s.at? ℓ = some m → m.Canonical

theorem Coherent.mono {H K : List Snapshot} (h : Coherent H) (hK : ∀ s ∈ K, s ∈ H) :
    Coherent K :=
  ⟨fun s hs t ht => h.same s (hK s hs) t (hK t ht),
    fun s hs t ht => h.sheet s (hK s hs) t (hK t ht), fun s hs => h.canonical s (hK s hs)⟩

/-- `m` trusts what all snapshots of a list trust. They have the same frames as `m`. -/
structure IsMeet (xs : List Snapshot) (m : Snapshot) : Prop where
  owners : ∀ x ∈ xs, x.owners = m.owners
  flag : m.othersClobbered = xs.any Snapshot.othersClobbered
  trusts : ∀ ℓ o b, m.TrustsAt ℓ o b ↔ ∀ x ∈ xs, x.TrustsAt ℓ o b

/-- What `m` does not have from the snapshot `s` was written at time `now`. -/
structure Renews (now : Stamp) (s m : Snapshot) : Prop where
  stamp : m = s ∨ m.stamp = now
  sheet : ∀ ℓ n, m.at? ℓ = some n → n.Canonical ∧ (s.at? ℓ = some n ∨ n.stamp = now)

variable {now : Stamp} {s m : Snapshot} {ts xs : List Snapshot}

/-- Snapshots with the same owners have the same levels. -/
theorem at?_eq_none_of_owners {t : Snapshot} {ℓ : Level} (h : t.owners = s.owners)
    (hs : s.at? ℓ = none) : t.at? ℓ = none := by
  rw [at?_eq_none_iff] at hs ⊢
  rwa [h]

theorem exists_at?_of_owners {t : Snapshot} {ℓ : Level} {n : Sheet} (h : t.owners = s.owners)
    (hs : s.at? ℓ = some n) : ∃ k, t.at? ℓ = some k := by
  cases ht : t.at? ℓ with
  | some k => exact ⟨k, rfl⟩
  | none =>
    rw [at?_eq_none_of_owners h.symm ht] at hs
    cases hs

/-- The very same snapshot several times over is its own meet. -/
theorem isMeet_of_forall_eq (h : ∀ t ∈ ts, t = s) : IsMeet (s :: ts) s := by
  have hall : ∀ t ∈ s :: ts, t = s := List.forall_mem_cons.2 ⟨rfl, h⟩
  refine ⟨fun t ht => by rw [hall t ht], ?_, fun ℓ o b => ?_⟩
  · cases hflag : s.othersClobbered with
    | true => simp [hflag]
    | false =>
      refine (List.any_eq_false.2 fun t ht => ?_).symm
      rw [hall t ht, hflag]
      simp
  · exact ⟨fun hs t ht => hall t ht ▸ hs, fun hs => hs s List.mem_cons_self⟩

/-- The sheets of several snapshots at a level, each with the flag of its snapshot. -/
def sheetsAt (xs : List Snapshot) (ℓ : Level) : List (Sheet × Bool) :=
  xs.filterMap fun x => (x.at? ℓ).map fun n => (n, x.othersClobbered)

theorem mem_sheetsAt {ℓ : Level} {e : Sheet × Bool} :
    e ∈ sheetsAt xs ℓ ↔ ∃ x ∈ xs, x.at? ℓ = some e.1 ∧ x.othersClobbered = e.2 := by
  simp [sheetsAt, Option.map_eq_some_iff, Prod.ext_iff]

theorem sheetsAt_cons {ℓ : Level} {n : Sheet} (hn : s.at? ℓ = some n) (ts : List Snapshot) :
    sheetsAt (s :: ts) ℓ = (n, s.othersClobbered) :: sheetsAt ts ℓ := by
  simp [sheetsAt, hn]

theorem any_sheetsAt {ℓ : Level} (h : ∀ x ∈ xs, ∃ n, x.at? ℓ = some n) :
    (sheetsAt xs ℓ).any Prod.snd = xs.any Snapshot.othersClobbered := by
  induction xs with
  | nil => rfl
  | cons x xs ih =>
    obtain ⟨⟨n, hn⟩, hxs⟩ := List.forall_mem_cons.1 h
    rw [sheetsAt_cons hn, List.any_cons, List.any_cons, ih hxs]

theorem Coherent.canonical_sheetsAt (h : Coherent xs) (ℓ : Level) :
    ∀ e ∈ sheetsAt xs ℓ, e.1.Canonical := by
  intro e he
  obtain ⟨x, hx, hat, -⟩ := mem_sheetsAt.1 he
  exact h.canonical x hx ℓ _ hat

/-- Snapshots with the same frames, not all of them the same, meet in a new snapshot, at each level
in the meet of their sheets. -/
theorem meetAll_eq_new (howners : ∀ t ∈ ts, t.owners = s.owners)
    (hnew : ¬ (ts.all fun t => t.isSame s) = true) (now : Stamp) :
    ∃ m, meetAll now (s :: ts) = .ok (some m) ∧ m.stamp = now ∧ m.owners = s.owners ∧
      m.othersClobbered = (s :: ts).any Snapshot.othersClobbered ∧
      ∀ ℓ, m.at? ℓ = (s.at? ℓ).map fun n =>
        meetSheets now m.othersClobbered (n, s.othersClobbered) (sheetsAt ts ℓ) := by
  have hnone : firstUnlike? s ts = none := by
    refine List.find?_eq_none.2 fun t ht => ?_
    simp [howners t ht]
  rw [meetAll, if_neg hnew, hnone]
  refine ⟨_, rfl, rfl, map_owner_meetFrames .., rfl, fun ℓ => ?_⟩
  cases ℓ with
  | shared => simp [at?, sheetsAt, List.filterMap_eq_map']
  | frame d =>
    have hcalls : ∀ c ∈ ts.map fun t => (t.frames, t.othersClobbered),
        c.1.map Frame.owner = s.frames.map Frame.owner :=
      List.forall_mem_map.2 howners
    rw [at?, frameAt?_meetFrames now _ _ hcalls, List.filterMap_map]
    rfl

/-- What the sheets of coherent snapshots at one level need for an exact meet. -/
theorem Coherent.level {ℓ : Level} {n : Sheet} (h : Coherent (s :: ts))
    (howners : ∀ t ∈ ts, t.owners = s.owners) (hn : s.at? ℓ = some n) :
    (∀ e ∈ (n, s.othersClobbered) :: sheetsAt ts ℓ, e.1.Canonical) ∧
      (∀ e ∈ sheetsAt ts ℓ, e.1.stamp = n.stamp → e.1 = n) ∧
      (s :: ts).any Snapshot.othersClobbered =
        ((n, s.othersClobbered) :: sheetsAt ts ℓ).any Prod.snd := by
  rw [← sheetsAt_cons hn]
  refine ⟨h.canonical_sheetsAt ℓ, fun e he hstamp => ?_, (any_sheetsAt ?_).symm⟩
  · obtain ⟨t, ht, hat, -⟩ := mem_sheetsAt.1 he
    exact h.sheet t (List.mem_cons_of_mem _ ht) s List.mem_cons_self ℓ _ _ hat hn hstamp
  · exact List.forall_mem_cons.2
      ⟨⟨n, hn⟩, fun t ht => exists_at?_of_owners (howners t ht) hn⟩

/-- Coherent snapshots with the same frames have a meet. -/
theorem Coherent.meetAll_eq_ok (h : Coherent (s :: ts)) (howners : ∀ t ∈ ts, t.owners = s.owners)
    (now : Stamp) :
    ∃ m, meetAll now (s :: ts) = .ok (some m) ∧ IsMeet (s :: ts) m ∧ Renews now s m := by
  by_cases hsame : (ts.all fun t => t.isSame s) = true
  · rw [meetAll, if_pos hsame]
    simp only [List.all_eq_true, isSame, decide_eq_true_eq] at hsame
    refine ⟨s, rfl, isMeet_of_forall_eq fun t ht => ?_, .inl rfl, fun ℓ n hn => ?_⟩
    · exact h.same t (List.mem_cons_of_mem _ ht) s List.mem_cons_self (hsame t ht)
    · exact ⟨h.canonical s List.mem_cons_self ℓ n hn, .inl hn⟩
  · obtain ⟨m, hm, hstamp, hmowners, hflag, hlevels⟩ := meetAll_eq_new howners hsame now
    refine ⟨m, hm, ⟨?_, hflag, fun ℓ o b => ?_⟩, .inr hstamp, fun ℓ n hn => ?_⟩
    · rw [List.forall_mem_cons]
      exact ⟨hmowners.symm, fun t ht => (howners t ht).trans hmowners.symm⟩
    · cases hs : s.at? ℓ with
      | none =>
        have hmnone := at?_eq_none_of_owners hmowners hs
        refine iff_of_false ?_ fun hall => ?_
        · rintro ⟨k, hk, -⟩
          rw [hmnone] at hk
          cases hk
        · obtain ⟨k, hk, -⟩ := hall s List.mem_cons_self
          rw [hs] at hk
          cases hk
      | some n =>
        obtain ⟨hcan, heq, hflags⟩ := h.level howners hs
        rw [TrustsAt, hlevels, hs]
        simp only [Option.map_some, Option.some.injEq, exists_eq_left']
        rw [meetSheets_trusts now hcan heq (hflag.trans hflags), ← sheetsAt_cons hs]
        refine ⟨fun hall x hx => ?_, fun hall e he => ?_⟩
        · obtain ⟨k, hk⟩ : ∃ k, x.at? ℓ = some k := by
            rcases List.mem_cons.1 hx with rfl | hx'
            · exact ⟨n, hs⟩
            · exact exists_at?_of_owners (howners x hx') hs
          exact ⟨k, hk, hall (k, x.othersClobbered) (mem_sheetsAt.2 ⟨x, hx, hk, rfl⟩)⟩
        · obtain ⟨x, hx, hat, heq⟩ := mem_sheetsAt.1 he
          obtain ⟨k, hk, hkt⟩ := hall x hx
          obtain rfl := Option.some.inj (hat.symm.trans hk)
          exact heq ▸ hkt
    · rw [hlevels] at hn
      obtain ⟨k, hk, rfl⟩ := Option.map_eq_some_iff.1 hn
      obtain ⟨hc, hmade⟩ :=
        meetSheets_made now m.othersClobbered (h.level howners hk).1
      exact ⟨hc, hmade.imp_left fun h => by rw [hk, h]⟩

/-- Snapshots with different frames do not meet. -/
theorem Coherent.meetAll_eq_error (h : Coherent (s :: ts)) (howners : ∃ t ∈ ts, t.owners ≠ s.owners)
    (now : Stamp) : ∃ left right, meetAll now (s :: ts) = .error (.frameMismatch left right) := by
  obtain ⟨t, ht, hne⟩ := howners
  rw [meetAll]
  split
  · next hsame =>
    simp only [List.all_eq_true, isSame, decide_eq_true_eq] at hsame
    have := h.same t (List.mem_cons_of_mem _ ht) s List.mem_cons_self (hsame t ht)
    exact absurd (congrArg Snapshot.owners this) hne
  · cases hfind : firstUnlike? s ts with
    | none =>
      have := List.find?_eq_none.1 hfind t ht
      simp [hne] at this
    | some u => exact ⟨_, _, rfl⟩

/-- What a successful meet of coherent snapshots is. -/
theorem Coherent.isMeet (h : Coherent xs) (hm : meetAll now xs = .ok (some m)) :
    IsMeet xs m ∧ ∃ s ∈ xs, Renews now s m := by
  cases xs with
  | nil => simp [meetAll] at hm
  | cons s ts =>
    by_cases howners : ∀ t ∈ ts, t.owners = s.owners
    · obtain ⟨m', hm', hmeet, hrenews⟩ := h.meetAll_eq_ok howners now
      rw [hm'] at hm
      cases hm
      exact ⟨hmeet, s, List.mem_cons_self, hrenews⟩
    · simp only [not_forall] at howners
      obtain ⟨t, ht, hne⟩ := howners
      obtain ⟨l, r, herr⟩ := h.meetAll_eq_error ⟨t, ht, hne⟩ now
      rw [herr] at hm
      cases hm

end Snapshot

end ByteTrust
