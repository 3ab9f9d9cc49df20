import ByteTrust.Proofs.Interference.Needs
import ByteTrust.Proofs.Interference.Tentative
import ByteTrust.Proofs.Interference.Walks

/-!
# Two walks abreast

Two walks do the same task, one with less trust than the other, and no reference is missing. Where
a walk goes depends on what waits and on which call came first, not on what is trusted, so they go
the same way, side by side: what waits for one of them waits for the other in the same place, with
at least as much trust, and a read has at least the need in the walk with less trust that it has in
the other (`Abreast`).

`Tracks` says of two steps that the one with more trust succeeds where the other does and keeps
abreast of it. Every step of a walk tracks itself (`tracking_walkContext`), provided that no read is
empty and that the search for tentative contexts comes to an end.
-/

namespace ByteTrust

/-- The first answer is at least as strong, and both or none of them say that there is no need. -/
def Need.Over (a b : Need) : Prop := b ≤ a ∧ (b = .never → a = .never)

theorem Need.Over.must {a b : Need} (h : a.Over b) (hb : b = .must) : a = .must := by
  subst hb
  exact h.1.symm

namespace Walk

open Snapshot

/-- Snapshots with less trust, each beside one with more. -/
abbrev Pairs := List (Snapshot × Snapshot)

/-- The two snapshots stand side by side. -/
def Paired (W : Pairs) (x y : Snapshot) : Prop := (x, y) ∈ W

/-- Both or none of two outcomes are there, side by side. -/
def PairedIf (W : Pairs) (x y : Option Snapshot) : Prop := Option.Rel (Paired W) x y

/-- Two walks are abreast, the first with less trust, after they made the snapshots `W`. -/
structure Abreast (w : Setting) (W : Pairs) (s t : State) : Prop where
  below : ∀ q ∈ W, Below q.1 q.2
  lower : History s.clock (W.map Prod.fst)
  upper : History t.clock (W.map Prod.snd)
  bin : ∀ k, ∃ qs, qs ⊆ W ∧ s.bin k = qs.map Prod.fst ∧ t.bin k = qs.map Prod.snd
  needs : ∀ i, Option.Rel Need.Over (s.findings.needs.get? i) (t.findings.needs.get? i)
  tentative : ∀ c ∈ t.findings.tentative, c ∈ s.findings.tentative
  firstCalls : s.firstCalls = t.firstCalls
  missing : s.references.missing = ∅ ∧ t.references.missing = ∅
  visits : ∀ v ∈ t.visits, ∃ u ∈ s.visits, u.inst = v.inst ∧ v.need w ≤ u.need w

/-- The step `m'` succeeds where `m` does, with less trust, and keeps abreast of it. -/
def Tracks (w : Setting) (W : Pairs) {α : Type} (m m' : Step α) (R : Pairs → α → α → Prop) : Prop :=
  ∀ s t a s', Abreast w W s t → m s = .ok (a, s') →
    ∃ b t' W', m' t = .ok (b, t') ∧ W ⊆ W' ∧ Abreast w W' s' t' ∧ R W' a b

/-- Nothing is said of the results. -/
def Anyhow (_ : Pairs) (_ _ : Unit) : Prop := True

variable {w : Setting} {W : Pairs} {s t : State} {x y : Snapshot}

/-! ## Needs -/

theorem needNow_over {inst : Instr} {before before' : Option Need} (hxy : Below x y)
    (hx : x.Canonical) (hy : y.Canonical) (hop : inst.op.ReadsBytes)
    (hbefore : Option.Rel Need.Over before before') :
    Need.Over (needNow w inst x before) (needNow w inst y before') := by
  have hneed : Need.Over (w.program.need w.settings x inst.op)
      (w.program.need w.settings y inst.op) :=
    ⟨Program.need_antitone hxy hx hy hop, fun h => Program.need_eq_never h x⟩
  unfold needNow
  by_cases hlocal : inst.threadLocal = true
  · simp [hlocal, Need.Over, Need.le_refl]
  cases hbefore with
  | none =>
    simp only [hlocal, Bool.false_eq_true, reduceCtorEq, or_self, if_false, Option.getD_none]
    refine ⟨Need.max_le_max (Need.le_refl _) hneed.1, fun h => ?_⟩
    rw [hneed.2 (Need.max_eq_never h).2]
    rfl
  | @some a b hab =>
    simp only [hlocal, Bool.false_eq_true, Option.some.injEq, false_or, Option.getD_some]
    by_cases hb : b = .never
    · rw [if_pos hb, if_pos (hab.2 hb)]
      exact ⟨rfl, fun _ => rfl⟩
    · have ha : a ≠ .never := by
        rintro rfl
        exact hb (Need.max_eq_never hab.1).1
      rw [if_neg hb, if_neg ha]
      exact ⟨Need.max_le_max hab.1 hneed.1, fun h => absurd (Need.max_eq_never h).1 hb⟩

/-- The effect of a read keeps the order of trust, with needs as they are in walks abreast. -/
theorem transfer_below_of_over {op : Operation} {suppressed : Bool} {now now' : Stamp} {a b : Need}
    (hxy : Below x y) (hx : x.Canonical) (hy : y.Canonical) (hab : Need.Over a b) :
    Below (w.program.transfer w.settings now op (some a) suppressed x)
      (w.program.transfer w.settings now' op (some b) suppressed y) := by
  have hneeds : Below (w.program.transfer w.settings now op (some a) suppressed x)
      (w.program.transfer w.settings now op (some b) suppressed x) :=
    Program.transfer_below hx rfl fun _ _ _ _ _ hb => congrArg some (hab.must (Option.some.inj hb))
  exact hneeds.trans ((Program.transfer_flows op (some b) suppressed).below hx hy rfl hxy)

/-! ## What keeps two walks abreast -/

theorem Paired.mem_fst (h : Paired W x y) : x ∈ W.map Prod.fst := List.mem_map.2 ⟨_, h, rfl⟩

theorem Paired.mem_snd (h : Paired W x y) : y ∈ W.map Prod.snd := List.mem_map.2 ⟨_, h, rfl⟩

namespace Abreast

theorem paired (h : Abreast w W s t) (hxy : Paired W x y) :
    Below x y ∧ x.Canonical ∧ y.Canonical :=
  ⟨h.below _ hxy, h.lower.coherent.1.canonical x hxy.mem_fst,
    h.upper.coherent.1.canonical y hxy.mem_snd⟩

theorem kept_lower (h : Abreast w W s t) : Kept s (W.map Prod.fst) := by
  refine ⟨h.lower, fun k z hz => ?_⟩
  obtain ⟨qs, hqs, hs, -⟩ := h.bin k
  rw [hs] at hz
  exact List.map_subset Prod.fst hqs hz

/-- Another two snapshots stand side by side. -/
theorem add (h : Abreast w W s t) {now now' : Stamp} (hx : History now (x :: W.map Prod.fst))
    (hy : History now' (y :: W.map Prod.snd)) (hxy : Below x y) :
    Abreast w ((x, y) :: W) { s with clock := now } { t with clock := now' } where
  below := List.forall_mem_cons.2 ⟨hxy, h.below⟩
  lower := hx
  upper := hy
  bin k := by
    obtain ⟨qs, hqs, hs, ht⟩ := h.bin k
    exact ⟨qs, fun q hq => List.mem_cons_of_mem _ (hqs hq), hs, ht⟩
  needs := h.needs
  tentative := h.tentative
  firstCalls := h.firstCalls
  missing := h.missing
  visits := h.visits

/-- Both make a snapshot, and time goes on. -/
theorem make (h : Abreast w W s t) (hx : Makes s.clock (W.map Prod.fst) x)
    (hy : Makes t.clock (W.map Prod.snd) y) (hxy : Below x y) :
    Abreast w ((x, y) :: W) { s with clock := s.clock + 1 } { t with clock := t.clock + 1 } :=
  h.add (h.lower.next hx) (h.upper.next hy) hxy

/-- Only the walk with less trust makes a snapshot. -/
theorem make_lower {z : Snapshot} (h : Abreast w W s t) (hxy : Paired W x y)
    (hz : Makes s.clock (W.map Prod.fst) z) (hzy : Below z y) :
    Abreast w ((z, y) :: W) { s with clock := s.clock + 1 } t :=
  h.add (h.lower.next hz)
    (h.upper.forget (List.cons_subset.2 ⟨hxy.mem_snd, List.Subset.refl _⟩)) hzy

theorem wait (h : Abreast w W s t) :
    Abreast w W { s with clock := s.clock + 1 } { t with clock := t.clock + 1 } :=
  { h with lower := h.lower.wait (Nat.le_succ _), upper := h.upper.wait (Nat.le_succ _) }

theorem leave (h : Abreast w W s t) (hxy : Paired W x y) (k : Bin) :
    Abreast w W (s.leave x k) (t.leave y k) where
  below := h.below
  lower := by simpa using h.lower
  upper := by simpa using h.upper
  bin j := by
    obtain ⟨qs, hqs, hs, ht⟩ := h.bin j
    rw [bin_leave, bin_leave, hs, ht]
    split
    · refine ⟨qs ++ [(x, y)], List.append_subset.2 ⟨hqs, ?_⟩, by simp, by simp⟩
      exact List.cons_subset.2 ⟨hxy, List.nil_subset W⟩
    · exact ⟨qs, hqs, rfl, rfl⟩
  needs := by simpa using h.needs
  tentative := by simpa using h.tentative
  firstCalls := by simpa using h.firstCalls
  missing := by simpa using h.missing
  visits := by cases k <;> exact h.visits

theorem clear (h : Abreast w W s t) (k : Bin) : Abreast w W (s.clear k) (t.clear k) where
  below := h.below
  lower := by simpa using h.lower
  upper := by simpa using h.upper
  bin j := by
    rw [bin_clear, bin_clear]
    split
    · exact ⟨[], List.nil_subset W, rfl, rfl⟩
    · exact h.bin j
  needs := by simpa using h.needs
  tentative := by simpa using h.tentative
  firstCalls := by simpa using h.firstCalls
  missing := by simpa using h.missing
  visits := by cases k <;> exact h.visits

end Abreast

/-! ## Changes of snapshots -/

/-- A change of snapshots that is made at some time and keeps the order of trust. -/
structure Changes (g : Stamp → Snapshot → Snapshot) : Prop where
  makes : ∀ {now H z}, Makes now H z → Makes now H (g now z)
  below : ∀ {now now' x y}, x.Canonical → y.Canonical → Below x y → Below (g now x) (g now' y)

theorem changes_pushFrame (c : ContextId) : Changes fun now z => z.pushFrame now c :=
  ⟨fun hz => hz.pushFrame c, fun _ _ h => h.pushFrame c⟩

theorem changes_clobberAll : Changes fun now z => z.clobberAll now :=
  ⟨.clobberAll, fun hx hy h => flows_clobberAll.below hx hy rfl h⟩

theorem changes_vouchUnless (suppressed : Bool) (ptr : PointerValue) (offset : Int) (len : Nat) :
    Changes fun now z => w.program.vouchUnless suppressed now ptr offset len z :=
  ⟨fun hz => makes_vouchUnless hz suppressed ptr offset len,
    fun hx hy h => (Program.vouchUnless_flows suppressed ptr offset len).below hx hy rfl h⟩

theorem changes_transfer (op : Operation) (suppressed : Bool) :
    Changes fun now z => w.program.transfer w.settings now op none suppressed z :=
  ⟨fun hz => makes_transfer hz op none suppressed,
    fun hx hy h => (Program.transfer_flows op none suppressed).below hx hy rfl h⟩

/-! ## Rules for steps -/

section Rules

variable {α β : Type} {m m' : Step α} {f f' : α → Step β} {R : Pairs → α → α → Prop}
  {Q : Pairs → β → β → Prop}

theorem Tracks.bind (hm : Tracks w W m m' R)
    (hf : ∀ W' a b, W ⊆ W' → R W' a b → Tracks w W' (f a) (f' b) Q) :
    Tracks w W (m >>= f) (m' >>= f') Q := by
  intro s t c s' h hs
  obtain ⟨a, s₁, ha, hc⟩ := step_bind_eq_ok.1 hs
  obtain ⟨b, t₁, W₁, hb, hsub, h₁, hab⟩ := hm s t a s₁ h ha
  obtain ⟨d, t', W', hd, hsub', h', hcd⟩ := hf W₁ a b hsub hab s₁ t₁ c s' h₁ hc
  exact ⟨d, t', W', step_bind_eq_ok.2 ⟨b, t₁, hb, hd⟩, fun q hq => hsub' (hsub hq), h', hcd⟩

theorem tracks_pure {a b : α} (hab : R W a b) : Tracks w W (pure a) (pure b) R := by
  intro s t c s' h hs
  obtain ⟨rfl, rfl⟩ := step_pure_eq_ok.1 hs
  exact ⟨b, t, W, rfl, List.Subset.refl W, h, hab⟩

theorem tracks_lift_bind {z : Except Fault α} (hf : ∀ a, z = .ok a → Tracks w W (f a) (f' a) Q) :
    Tracks w W ((liftM z : Step α) >>= f) ((liftM z : Step α) >>= f') Q := by
  intro s t c s' h hs
  obtain ⟨a, s₁, ha, hc⟩ := step_bind_eq_ok.1 hs
  obtain ⟨hz, rfl⟩ := step_lift_eq_ok.1 ha
  obtain ⟨d, t', W', hd, hrest⟩ := hf a hz s t c s' h hc
  exact ⟨d, t', W', step_bind_eq_ok.2 ⟨a, t, step_lift_eq_ok.2 ⟨hz, rfl⟩, hd⟩, hrest⟩

theorem tracks_get_bind {f f' : State → Step β}
    (hf : ∀ s t, Abreast w W s t → Tracks w W (f s) (f' t) Q) :
    Tracks w W ((get : Step State) >>= f) ((get : Step State) >>= f') Q :=
  fun s t c s' h hs => hf s t h s t c s' h hs

theorem tracks_modify {g g' : State → State}
    (hg : ∀ s t, Abreast w W s t → Abreast w W (g s) (g' t)) :
    Tracks w W (modify g : Step Unit) (modify g') Anyhow := by
  intro s t u s' h hs
  obtain rfl := step_modify_eq_ok.1 hs
  exact ⟨(), g' t, W, rfl, List.Subset.refl W, hg s t h, trivial⟩

theorem tracks_modify_bind {g g' : State → State} {f f' : Unit → Step β}
    (hg : ∀ s t, Abreast w W s t → Abreast w W (g s) (g' t)) (hf : Tracks w W (f ()) (f' ()) Q) :
    Tracks w W ((modify g : Step Unit) >>= f) ((modify g' : Step Unit) >>= f') Q :=
  fun s t c s' h hs => hf _ _ c s' (hg s t h) hs

/-- The walk with less trust does a step that changes nothing. -/
theorem tracks_lower_bind {a : α} {n : Step β}
    (hm : ∀ s, s.references.missing = ∅ → m s = .ok (a, s))
    (hf : Tracks w W (f a) n Q) : Tracks w W (m >>= f) n Q := by
  intro s t c s' h hs
  obtain ⟨a', s₁, ha, hc⟩ := step_bind_eq_ok.1 hs
  cases (hm s h.missing.1).symm.trans ha
  exact hf s t c s' h hc

/-- The walk with more trust does a step that changes nothing. -/
theorem tracks_upper_bind {b : α} {n : Step β}
    (hm : ∀ s, s.references.missing = ∅ → m s = .ok (b, s))
    (hf : Tracks w W n (f b) Q) : Tracks w W n (m >>= f) Q := by
  intro s t c s' h hs
  obtain ⟨d, t', W', hd, hrest⟩ := hf s t c s' h hs
  exact ⟨d, t', W', step_bind_eq_ok.2 ⟨b, t, hm t h.missing.2, hd⟩, hrest⟩

/-- Both make the same change at the present time. -/
theorem tracks_change_bind {f : Snapshot → Step β} {g : Stamp → Snapshot → Snapshot}
    (hg : Changes g) (hxy : Paired W x y)
    (hf : ∀ W' z z', W ⊆ W' → Paired W' z z' → Tracks w W' (f z) (f z') Q) :
    Tracks w W (tick >>= fun now => f (g now x)) (tick >>= fun now => f (g now y)) Q := by
  intro s t c s' h hs
  obtain ⟨now, s₁, hnow, hc⟩ := step_bind_eq_ok.1 hs
  obtain ⟨rfl, rfl⟩ := tick_eq_ok.1 hnow
  obtain ⟨hbelow, hx, hy⟩ := h.paired hxy
  obtain ⟨d, t', W', hd, hsub, hrest⟩ := hf _ _ _ (List.subset_cons_self _ W) List.mem_cons_self
    _ _ c s' (h.make (hg.makes (.held hxy.mem_fst)) (hg.makes (.held hxy.mem_snd))
      (hg.below hx hy hbelow)) hc
  exact ⟨d, t', W', step_bind_eq_ok.2 ⟨t.clock, _, rfl, hd⟩,
    fun q hq => hsub (List.mem_cons_of_mem _ hq), hrest⟩

/-- Only the walk with less trust loses all of it. -/
theorem tracks_clobberAll_bind {f : Snapshot → Step β} {n : Step β} (hxy : Paired W x y)
    (hf : ∀ W' z, W ⊆ W' → Paired W' z y → Tracks w W' (f z) n Q) :
    Tracks w W (tick >>= fun now => f (x.clobberAll now)) n Q := by
  intro s t c s' h hs
  obtain ⟨now, s₁, hnow, hc⟩ := step_bind_eq_ok.1 hs
  obtain ⟨rfl, rfl⟩ := tick_eq_ok.1 hnow
  have hbelow : Below (x.clobberAll s.clock) y :=
    ⟨(owners_clobberAll ..).trans (h.paired hxy).1.owners,
      fun _ _ _ hb => (not_trustsAt_clobberAll hb).elim⟩
  obtain ⟨d, t', W', hd, hsub, hrest⟩ := hf _ _ (List.subset_cons_self _ W) List.mem_cons_self
    _ _ c s' (h.make_lower hxy (.clobberAll (.held hxy.mem_fst)) hbelow) hc
  exact ⟨d, t', W', hd, fun q hq => hsub (List.mem_cons_of_mem _ hq), hrest⟩

theorem tracks_forM {γ : Type} {g g' : γ → Step Unit}
    (hg : ∀ W' c, W ⊆ W' → Tracks w W' (g c) (g' c) Anyhow) (cs : List γ) :
    Tracks w W (cs.forM g) (cs.forM g') Anyhow := by
  induction cs generalizing W with
  | nil => exact tracks_pure trivial
  | cons c cs ih =>
    exact (hg W c (List.Subset.refl W)).bind fun W' _ _ hsub _ =>
      ih fun W'' c' hsub' => hg W'' c' fun q hq => hsub' (hsub hq)

theorem tracks_foldlM {γ : Type} {g : Snapshot → γ → Step Snapshot}
    (hg : ∀ W x y c, Paired W x y → Tracks w W (g x c) (g y c) Paired) (cs : List γ)
    (hxy : Paired W x y) : Tracks w W (cs.foldlM g x) (cs.foldlM g y) Paired := by
  induction cs generalizing W x y with
  | nil => exact tracks_pure hxy
  | cons c cs ih =>
    rw [List.foldlM_cons, List.foldlM_cons]
    exact (hg W x y c hxy).bind fun W' x' y' _ hxy' => ih hxy'

theorem tracks_filterMapM {γ δ : Type} {g : γ → Except Fault (Option δ)} (cs : List γ) :
    Tracks w W (cs.filterMapM fun c => (liftM (g c) : Step (Option δ)))
      (cs.filterMapM fun c => (liftM (g c) : Step (Option δ))) fun _ a b => a = b := by
  induction cs with
  | nil =>
    rw [List.filterMapM_nil]
    exact tracks_pure rfl
  | cons c cs ih =>
    rw [List.filterMapM_cons]
    refine tracks_lift_bind fun o _ => ?_
    cases o with
    | none => exact ih
    | some d =>
      refine ih.bind fun W' ds ds' _ hds => ?_
      subst hds
      exact tracks_pure rfl

end Rules

/-! ## Leaving and picking up snapshots -/

theorem tracks_leaveFor (c : ContextId) (b : BlockId) (hxy : Paired W x y) :
    Tracks w W (leaveFor c b x) (leaveFor c b y) Anyhow :=
  tracks_modify fun _ _ h => h.leave hxy (.block c b)

/-- Meets of snapshots side by side are side by side. -/
theorem below_of_pairs {qs : Pairs} {m m' : Snapshot} (hqs : ∀ q ∈ qs, Below q.1 q.2)
    (hne : qs ≠ []) (hm : IsMeet (qs.map Prod.fst) m) (hm' : IsMeet (qs.map Prod.snd) m') :
    Below m m' := by
  refine ⟨?_, fun ℓ o b hb => (hm'.trusts ℓ o b).2 fun y hy => ?_⟩
  · obtain ⟨q, qs, rfl⟩ := List.exists_cons_of_ne_nil hne
    rw [← hm.owners q.1 List.mem_cons_self, ← hm'.owners q.2 List.mem_cons_self]
    exact (hqs q List.mem_cons_self).owners
  · obtain ⟨q, hq, rfl⟩ := List.mem_map.1 hy
    exact (hqs q hq).trusts ℓ o b ((hm.trusts ℓ o b).1 hb q.1 (List.mem_map_of_mem hq))

theorem tracks_meet {qs : Pairs} (hqs : qs ⊆ W) :
    Tracks w W (meet (qs.map Prod.fst)) (meet (qs.map Prod.snd)) PairedIf := by
  intro s t out s' h hs
  obtain ⟨-, hpick, -⟩ := meet_spec hs h.kept_lower (List.map_subset Prod.fst hqs)
  simp only [meet, step_bind_eq_ok, tick_eq_ok, step_lift_eq_ok] at hs
  obtain ⟨_, _, ⟨rfl, rfl⟩, hmeet, rfl⟩ := hs
  cases out with
  | none =>
    obtain rfl : qs = [] := List.map_eq_nil_iff.1 hpick
    exact ⟨none, _, W, rfl, List.Subset.refl W, h.wait, .none⟩
  | some m =>
    obtain ⟨hne, hm, -⟩ := hpick
    have hupper : ∀ y ∈ qs.map Prod.snd, y ∈ W.map Prod.snd := List.map_subset Prod.snd hqs
    have howners : ∀ q ∈ qs, q.2.owners = m.owners := fun q hq =>
      (h.below q (hqs hq)).owners.symm.trans (hm.owners q.1 (List.mem_map_of_mem hq))
    have hcoherent := h.upper.coherent.1.mono hupper
    cases qs with
    | nil => exact absurd rfl hne
    | cons q qs =>
      -- with more trust the frames are the same, so that there is a meet as well
      obtain ⟨m', hmeet', hm', -⟩ := hcoherent.meetAll_eq_ok (fun y hy => by
        obtain ⟨q', hq', rfl⟩ := List.mem_map.1 hy
        rw [howners q' (List.mem_cons_of_mem _ hq'), howners q List.mem_cons_self]) t.clock
      have hbelow := below_of_pairs (fun q hq => h.below q (hqs hq)) (List.cons_ne_nil q qs)
        hm hm'
      refine ⟨some m', { t with clock := t.clock + 1 }, (m, m') :: W, ?_, List.subset_cons_self _ W,
        h.make (.meet (List.map_subset Prod.fst hqs) hmeet) (.meet hupper hmeet') hbelow,
        .some List.mem_cons_self⟩
      simp only [meet, step_bind_eq_ok, tick_eq_ok, step_lift_eq_ok]
      exact ⟨_, _, ⟨rfl, rfl⟩, hmeet', rfl⟩

theorem tracks_pick (k : Bin) {m : Step (Option Snapshot)}
    (hm : ∀ s, m s = meet (s.bin k) (s.clear k)) : Tracks w W m m PairedIf := by
  intro s t out s' h hs
  obtain ⟨qs, hqs, hbin, hbin'⟩ := h.bin k
  rw [hm, hbin] at hs
  obtain ⟨out', t', W', ht, hrest⟩ := tracks_meet hqs _ _ _ _ (h.clear k) hs
  exact ⟨out', t', W', by rw [hm, hbin', ht], hrest⟩

theorem tracks_pickUp (c : ContextId) (b : BlockId) :
    Tracks w W (pickUp c b) (pickUp c b) PairedIf :=
  tracks_pick (.block c b) (pickUp_eq c b)

theorem tracks_pickUpBackEdge (c : ContextId) :
    Tracks w W (pickUpBackEdge c) (pickUpBackEdge c) PairedIf :=
  tracks_pick (.back c) (pickUpBackEdge_eq c)

theorem tracks_pickUpReturns (c : ContextId) :
    Tracks w W (pickUpReturns c) (pickUpReturns c) PairedIf :=
  tracks_pick (.returns c) (pickUpReturns_eq c)

/-! ## Instructions -/

/-- Where no reference is missing, no value is given up. -/
theorem silence_eq (h : s.references.missing = ∅) (inst : InstId) (values : List SpecValue) :
    silence w inst values s = .ok (false, s) := by
  have hnone : (values.filterMap SpecValue.object?).filter (fun o =>
      w.program.needsReference o && s.references.missing.contains o) = [] := by
    rw [List.filter_eq_nil_iff, h]
    intro o _ ho
    exact IdentSet.not_mem_empty o (Bool.and_eq_true_iff.1 ho).2
  show (if ((values.filterMap SpecValue.object?).filter fun o =>
      w.program.needsReference o && s.references.missing.contains o).isEmpty then
    pure false else _ : Step Bool) s = _
  rw [hnone]
  rfl

/-- Where no reference is missing, no value becomes one. -/
theorem promote_eq (h : s.references.missing = ∅) (inst : InstId) (result : ReadValue) :
    promote w inst result s = .ok ((), s) := by
  unfold promote
  cases namedObject? result with
  | none => rfl
  | some object =>
    have hnot : ¬ (w.program.needsReference object &&
        s.references.missing.contains object) = true := by
      rw [h]
      exact fun ho => IdentSet.not_mem_empty object (Bool.and_eq_true_iff.1 ho).2
    show (if w.program.needsReference object && s.references.missing.contains object then _
      else pure () : Step Unit) s = _
    rw [if_neg hnot]
    rfl

/-- The state after a visit of a read with the need `need`. -/
def State.visit (w : Setting) (scope : Scope) (inst : Instr) (x : Snapshot) (need : Need)
    (s : State) : State :=
  { s with
    clock := s.clock + 1
    findings := { s.findings with
      needs := s.findings.needs.insert inst.id need
      tentative :=
        if need = .must then s.findings.tentative.insert scope.context else s.findings.tentative }
    visits := ⟨scope.context, inst, x,
      w.program.transfer w.settings s.clock inst.op (some need) scope.suppressed x⟩ :: s.visits }

/-- A visit of a read where no reference is missing. -/
theorem visitRead_eq (h : s.references.missing = ∅) (scope : Scope) (certain : Bool) (inst : Instr)
    (x : Snapshot) :
    visitRead w scope certain inst x s =
      let need := needNow w inst x (s.findings.needs.get? inst.id)
      .ok (w.program.transfer w.settings s.clock inst.op (some need) scope.suppressed x,
        s.visit w scope inst x need) := by
  dsimp only
  simp only [visitRead, step_bind_eq_ok, step_get_eq_ok]
  refine ⟨s, s, ⟨rfl, rfl⟩, ?_⟩
  unfold State.visit
  split
  · let s₁ : State := { s with findings := { s.findings with
      tentative := s.findings.tentative.insert scope.context } }
    have hsilence : silence w inst.id inst.op.readValues s₁ = .ok (false, s₁) :=
      silence_eq (s := s₁) h _ _
    exact step_bind_eq_ok.2 ⟨(), s₁, rfl, step_bind_eq_ok.2 ⟨false, s₁, hsilence, rfl⟩⟩
  · cases hop : inst.op with
    | load ptr size ordering result =>
      dsimp only
      split
      · exact step_bind_eq_ok.2 ⟨(), s, promote_eq h _ _, rfl⟩
      · rfl
    | _ => rfl

theorem tracks_visitRead {scope : Scope} {certain : Bool} {inst : Instr} (hop : inst.op.ReadsBytes)
    (hxy : Paired W x y) : Tracks w W (visitRead w scope certain inst x)
      (visitRead w scope certain inst y) Paired := by
  intro s t x' s' h hs
  rw [visitRead_eq h.missing.1] at hs
  cases hs
  obtain ⟨hbelow, hx, hy⟩ := h.paired hxy
  have hover := needNow_over (w := w) hbelow hx hy hop (h.needs inst.id)
  have hmake := h.make (makes_transfer (.held hxy.mem_fst) inst.op _ scope.suppressed)
    (makes_transfer (.held hxy.mem_snd) inst.op _ scope.suppressed)
    (transfer_below_of_over (w := w) hbelow hx hy hover)
  refine ⟨_, _, _, visitRead_eq h.missing.2 .., List.subset_cons_self _ W, ?_, List.mem_cons_self⟩
  refine { hmake with needs := fun i => ?_, tentative := ?_, visits := ?_ }
  · simp only [State.visit, IdentMap.get?_insert]
    split
    · exact .some hover
    · exact h.needs i
  · intro c hc
    simp only [State.visit] at hc ⊢
    split at hc
    · next hb =>
      rw [if_pos (hover.must hb)]
      exact IdentSet.mem_insert.2 ((IdentSet.mem_insert.1 hc).imp_right (h.tentative c))
    · split
      · exact IdentSet.mem_insert.2 (.inr (h.tentative c hc))
      · exact h.tentative c hc
  · refine List.forall_mem_cons.2 ⟨⟨_, List.mem_cons_self, rfl, ?_⟩, fun v hv => ?_⟩
    · exact Program.need_antitone hbelow hx hy hop
    · obtain ⟨u, hu, huv⟩ := h.visits v hv
      exact ⟨u, List.mem_cons_of_mem _ hu, huv⟩

theorem tracks_visitInstr {scope : Scope} {certain : Bool} {inst : Instr} (hop : inst.op.ReadsBytes)
    (hxy : Paired W x y) : Tracks w W (visitInstr w scope certain inst x)
      (visitInstr w scope certain inst y) Paired := by
  have htransfer (op : Operation) : Tracks w W
      (do return w.program.transfer w.settings (← tick) op none scope.suppressed x)
      (do return w.program.transfer w.settings (← tick) op none scope.suppressed y) Paired :=
    tracks_change_bind (f := pure) (changes_transfer op scope.suppressed) hxy
      fun _ _ _ _ hz => tracks_pure hz
  unfold visitInstr
  split
  · exact tracks_visitRead hop hxy
  split
  · exact tracks_pure hxy
  cases inst.op with
  | call site =>
    dsimp only
    split
    · have hpromote (s : State) (h : s.references.missing = ∅) :
          promote w inst.id site.result s = .ok ((), s) := promote_eq h _ _
      exact tracks_lower_bind hpromote (tracks_upper_bind hpromote (htransfer _))
    · exact htransfer _
  | _ => exact htransfer _

/-! ## The end of a block -/

theorem tracks_leaveAt (hxy : Paired W x y) (d : Destination) :
    Tracks w W (leaveAt x d) (leaveAt y d) Anyhow := by
  cases d with
  | block c b => exact tracks_modify fun _ _ h => h.leave hxy (.block c b)
  | nextIteration c => exact tracks_modify fun _ _ h => h.leave hxy (.back c)
  | closing c header => exact tracks_modify fun _ _ h => h.leave hxy (.closing c header)

theorem tracks_popFrame_bind {β : Type} {f : ContextId × Snapshot → Step β}
    {Q : Pairs → β → β → Prop} (hxy : Paired W x y)
    (hf : ∀ W' c z z', W ⊆ W' → Paired W' z z' → Tracks w W' (f (c, z)) (f (c, z')) Q) :
    Tracks w W (tick >>= fun now => (liftM (x.popFrame now) : Step _) >>= f)
      (tick >>= fun now => (liftM (y.popFrame now) : Step _) >>= f) Q := by
  intro s t a s' h hs
  simp only [step_bind_eq_ok, tick_eq_ok, step_lift_eq_ok] at hs
  obtain ⟨_, _, ⟨rfl, rfl⟩, ⟨c, z⟩, _, ⟨hpop, rfl⟩, hs⟩ := hs
  have hbelow := (h.paired hxy).1
  -- the innermost frame has the same owner in both
  obtain ⟨z', hpop'⟩ : ∃ z', y.popFrame t.clock = .ok (c, z') :=
    exists_popFrame _ _ (hbelow.owners.symm.trans (popFrame_eq_ok hpop).1)
  obtain ⟨b, t', W', ht, hsub, hrest⟩ := hf _ c z z' (List.subset_cons_self _ W) List.mem_cons_self
    _ _ a s' (h.make (.popFrame (.held hxy.mem_fst) hpop) (.popFrame (.held hxy.mem_snd) hpop')
      (hbelow.popFrame hpop hpop')) hs
  refine ⟨b, t', W', ?_, fun q hq => hsub (List.mem_cons_of_mem _ hq), hrest⟩
  simp only [step_bind_eq_ok, tick_eq_ok, step_lift_eq_ok]
  exact ⟨_, _, ⟨rfl, rfl⟩, (c, z'), _, ⟨hpop', rfl⟩, ht⟩

theorem tracks_finishBlock {scope : Scope} {block : Block} (hxy : Paired W x y) :
    Tracks w W (finishBlock w scope block x) (finishBlock w scope block y) Anyhow := by
  unfold finishBlock
  cases block.terminator with
  | ret =>
    dsimp only
    split
    · exact tracks_pure trivial
    · exact tracks_popFrame_bind hxy fun W' _ z z' _ hz =>
        tracks_modify fun _ _ h => h.leave hz (.returns (w.layout.functionRoot scope.context))
  | unreachable => exact tracks_pure trivial
  | branch =>
    refine (tracks_filterMapM _).bind fun W' ds ds' hsub hds => ?_
    subst hds
    exact tracks_forM (fun W'' d hsub' => tracks_leaveAt (hsub' (hsub hxy)) d) ds

/-! ## Functions, calls and blocks -/

/-- What walks the regions of contexts tracks itself. -/
def Tracking (w : Setting) (inner : Scope → Step Unit) : Prop :=
  ∀ W scope, Tracks w W (inner scope) (inner scope) Anyhow

variable {inner : Scope → Step Unit} {scope : Scope}

theorem Tracking.function (hinner : Tracking w inner) (c : ContextId) (loops : List ActiveLoop)
    (suppressed : Bool) (hxy : Paired W x y) :
    Tracks w W (walkFunction w inner c loops suppressed x)
      (walkFunction w inner c loops suppressed y) PairedIf := by
  unfold walkFunction
  refine tracks_lift_bind fun context _ => tracks_modify_bind (fun _ _ h => { h with }) ?_
  refine tracks_change_bind (f := fun z => do
    leaveFor c context.entry z
    inner ⟨c, loops, suppressed⟩
    pickUpReturns c) (changes_pushFrame c) hxy fun W₂ z z' _ hz => ?_
  exact (tracks_leaveFor c context.entry hz).bind fun W₃ _ _ _ _ =>
    (hinner W₃ _).bind fun W₄ _ _ _ _ => tracks_pickUpReturns c

theorem Tracking.condition (hinner : Tracking w inner) (cond : PathCondition)
    (hxy : Paired W x y) :
    Tracks w W (applyCondition w inner scope x cond) (applyCondition w inner scope y cond)
      Paired := by
  unfold applyCondition
  cases cond.fact with
  | bytes ptr offset len =>
    exact tracks_change_bind (f := pure) (changes_vouchUnless scope.suppressed ptr offset len) hxy
      fun _ _ _ _ hz => tracks_pure hz
  | checker c =>
    refine (hinner.function c scope.loops false hxy).bind fun W₁ out out' hsub hout => ?_
    cases hout with
    | some hz => exact tracks_pure hz
    | none =>
      exact tracks_change_bind (f := pure) changes_clobberAll (hsub hxy)
        fun _ _ _ _ hz => tracks_pure hz

/-- Whether all trust is lost after a call. Where it is lost with more trust, it is so with less. -/
theorem tracks_isTentative {callee : ContextId} {c : Context} (hgrounded : w.program.Grounded)
    (hc : w.program.context callee = .ok c) {f f' : Findings}
    (hf : ∀ c ∈ f'.tentative, c ∈ f.tentative) :
    Tracks w W (liftM (w.program.isTentative f callee) : Step Bool)
      (liftM (w.program.isTentative f' callee)) fun _ lost lost' => lost' = true → lost = true := by
  intro s t lost s' h hs
  obtain ⟨hlost, rfl⟩ := step_lift_eq_ok.1 hs
  obtain ⟨lost', hlost'⟩ := hgrounded.isTentative_eq_ok (Program.context_eq_ok.1 hc) f'
  refine ⟨lost', t, W, step_lift_eq_ok.2 ⟨hlost', rfl⟩, List.Subset.refl W, h, ?_⟩
  rintro rfl
  have htrue : w.program.isTentative f callee = .ok true := Program.reaches_mono hf hlost'
  exact Except.ok.inj (hlost.symm.trans htrue)

/-- What is lost with more trust is lost with less. -/
theorem tracks_afterCall {certain lost lost' : Bool} {inst : InstId} {site : CallSite}
    (hlost : lost' = true → lost = true) (hxy : Paired W x y) :
    Tracks w W (afterCall w scope certain inst site lost x)
      (afterCall w scope certain inst site lost' y) PairedIf := by
  have hsilence (s : State) (h : s.references.missing = ∅) :
      discard (silence w inst site.result.values) s = .ok (PUnit.unit, s) :=
    step_discard_eq_ok.2 ⟨false, silence_eq h _ _⟩
  have hpromote (s : State) (h : s.references.missing = ∅) :
      promote w inst site.result s = .ok ((), s) := promote_eq h _ _
  unfold afterCall
  cases lost with
  | true =>
    refine tracks_lower_bind hsilence ?_
    cases lost' with
    | true =>
      exact tracks_upper_bind hsilence (tracks_change_bind (f := fun z => pure (some z))
        changes_clobberAll hxy fun _ _ _ _ hz => tracks_pure (.some hz))
    | false =>
      refine tracks_clobberAll_bind (f := fun z => pure (some z)) hxy fun W' z _ hz => ?_
      rw [if_neg Bool.false_ne_true]
      dsimp only
      split
      · exact tracks_upper_bind hpromote (tracks_pure (.some hz))
      · exact tracks_pure (.some hz)
  | false =>
    obtain rfl : lost' = false := Bool.eq_false_iff.2 fun h => by cases hlost h
    rw [if_neg Bool.false_ne_true, if_neg Bool.false_ne_true]
    dsimp only
    split
    · exact tracks_lower_bind hpromote (tracks_upper_bind hpromote (tracks_pure (.some hxy)))
    · exact tracks_pure (.some hxy)

theorem Tracking.call (hgrounded : w.program.Grounded) (hinner : Tracking w inner) {certain : Bool}
    {inst : InstId} {site : CallSite} {callee : ContextId} (hxy : Paired W x y) :
    Tracks w W (walkCall w inner scope certain inst site callee x)
      (walkCall w inner scope certain inst site callee y) PairedIf := by
  unfold walkCall
  refine tracks_get_bind fun s t h => ?_
  rw [h.firstCalls]
  split
  · refine tracks_modify_bind (fun _ _ h => { h with }) ?_
    exact tracks_change_bind (f := fun z => pure (some z)) changes_clobberAll hxy
      fun _ _ _ _ hz => tracks_pure (.some hz)
  · refine tracks_modify_bind (fun s t h => { h with firstCalls := by rw [h.firstCalls] }) ?_
    refine tracks_lift_bind fun c hc => ?_
    refine (hinner.function callee scope.loops _ hxy).bind fun W₂ out out' _ hout => ?_
    cases hout with
    | none => exact tracks_pure .none
    | @some z z' hz =>
      refine tracks_get_bind fun s t h => ?_
      dsimp only
      split
      · have hkept : (false : Bool) = true → (false : Bool) = true := id
        exact tracks_afterCall hkept hz
      · exact (tracks_isTentative hgrounded hc h.tentative).bind fun W₃ lost lost' hsub hlost =>
          tracks_afterCall hlost (hsub hz)

theorem Tracking.instrs (hgrounded : w.program.Grounded) (hinner : Tracking w inner)
    {certain : Bool} {insts : List Instr} (hinsts : ∀ i ∈ insts, i.op.ReadsBytes)
    (hxy : Paired W x y) :
    Tracks w W (walkInstrs w inner scope certain insts x) (walkInstrs w inner scope certain insts y)
      PairedIf := by
  induction insts generalizing W x y with
  | nil => exact tracks_pure (.some hxy)
  | cons inst insts ih =>
    obtain ⟨hinst, hinsts⟩ := List.forall_mem_cons.1 hinsts
    cases hcallee : inst.op.callee? with
    | none =>
      rw [walkInstrs_instr hcallee, walkInstrs_instr hcallee]
      exact (tracks_visitInstr hinst hxy).bind fun W' z z' _ hz => ih hinsts hz
    | some callee =>
      obtain ⟨site, heq⟩ :
          ∃ site, ∀ insts x, walkInstrs w inner scope certain (inst :: insts) x = _ :=
        walkInstrs_call hcallee
      rw [heq, heq]
      refine (hinner.call hgrounded hxy).bind fun W' out out' _ hout => ?_
      cases hout with
      | none => exact tracks_pure .none
      | some hz => exact ih hinsts hz

theorem Tracking.block (hgrounded : w.program.Grounded)
    (hbytes : ∀ inst ∈ w.program.instrs, inst.op.ReadsBytes) (hinner : Tracking w inner)
    (b : BlockId) : Tracks w W (walkBlock w inner scope b) (walkBlock w inner scope b) Anyhow := by
  unfold walkBlock
  refine tracks_lift_bind fun block hblock => (tracks_pickUp _ _).bind fun W₁ out out' _ hout => ?_
  cases hout with
  | none => exact tracks_pure trivial
  | some hxy =>
    refine tracks_lift_bind fun conds _ => ?_
    refine (tracks_foldlM (fun W x y cond => hinner.condition cond) conds hxy).bind
      fun W₂ x₁ y₁ _ hxy₁ => ?_
    have hinsts : ∀ i ∈ block.insts, i.op.ReadsBytes := fun i hi =>
      hbytes i (Program.Holds.mem_instrs ⟨b, block, hblock, hi⟩)
    refine (hinner.instrs hgrounded hinsts hxy₁).bind fun W₃ out out' _ hout => ?_
    cases hout with
    | none => exact tracks_pure trivial
    | some hz => exact tracks_finishBlock hz

/-! ## Loops -/

theorem Tracking.iterations (hinner : Tracking w inner) (cs : List ContextId)
    {out out' : Option Snapshot} (hout : PairedIf W out out') :
    Tracks w W (walkIterations w inner scope cs out) (walkIterations w inner scope cs out')
      Anyhow := by
  induction cs generalizing W out out' with
  | nil => cases hout <;> exact tracks_pure trivial
  | cons c cs ih =>
    cases hout with
    | none => exact tracks_pure trivial
    | some hxy =>
      unfold walkIterations
      refine tracks_lift_bind fun context _ => tracks_modify_bind (fun _ _ h => { h with }) ?_
      exact (tracks_leaveFor c context.entry hxy).bind fun W₁ _ _ _ _ =>
        (hinner W₁ _).bind fun W₂ _ _ _ _ =>
          (tracks_pickUpBackEdge c).bind fun W₃ _ _ _ hout => ih hout

theorem PairedIf.toList {out out' : Option Snapshot} (h : PairedIf W out out') :
    ∃ qs, qs ⊆ W ∧ out.toList = qs.map Prod.fst ∧ out'.toList = qs.map Prod.snd := by
  cases h with
  | none => exact ⟨[], List.nil_subset W, rfl, rfl⟩
  | some hxy => exact ⟨[(_, _)], List.cons_subset.2 ⟨hxy, List.nil_subset W⟩, rfl, rfl⟩

theorem tracks_takeClosing (c : ContextId) (header : BlockId) :
    Tracks w W (takeClosing c header) (takeClosing c header) fun _ _ _ => True := by
  intro s t closing s' h hs
  rw [takeClosing_eq] at hs
  cases hs
  exact ⟨_, _, W, takeClosing_eq .., List.Subset.refl W, h.clear (.closing c header), trivial⟩

mutual

theorem Tracking.region (hgrounded : w.program.Grounded)
    (hbytes : ∀ inst ∈ w.program.instrs, inst.op.ReadsBytes) (hinner : Tracking w inner)
    (scope : Scope) (W : Pairs) :
    ∀ r, Tracks w W (walkRegion w inner scope r) (walkRegion w inner scope r) Anyhow
  | .block b => by
    rw [walkRegion]
    exact hinner.block hgrounded hbytes b
  | .loop info body => by
    have hbody (scope : Scope) (W : Pairs) := hinner.regions hgrounded hbytes scope W body
    rw [walkRegion]
    refine (tracks_pickUp _ _).bind fun W₁ entering entering' _ hentering => ?_
    cases hpeel : info.terminatedPeel? with
    | some peel => exact hinner.iterations _ hentering
    | none =>
      cases hentering with
      | none => exact tracks_pure trivial
      | some hxy =>
        refine tracks_lift_bind fun latch _ => ?_
        split
        · exact (tracks_leaveFor _ _ hxy).bind fun W₂ _ _ _ _ => hbody scope W₂
        · refine (tracks_leaveFor _ _ hxy).bind fun W₂ _ _ hsub₂ _ => (hbody _ W₂).bind
            fun W₃ _ _ hsub₃ _ => (tracks_pickUp _ _).bind fun W₄ again again' hsub₄ hagain => ?_
          obtain ⟨qs, hqs, hagain, hagain'⟩ := hagain.toList
          rw [hagain, hagain']
          have hall := List.cons_subset.2 ⟨hsub₄ (hsub₃ (hsub₂ hxy)), hqs⟩
          refine (tracks_meet hall).bind fun W₅ second second' _ hsecond => ?_
          cases hsecond with
          | none => exact tracks_pure trivial
          | some hz =>
            exact (tracks_leaveFor _ _ hz).bind fun W₆ _ _ _ _ => (hbody _ W₆).bind
              fun W₇ _ _ _ _ => (tracks_takeClosing _ _).bind fun W₈ _ _ _ _ =>
                tracks_modify fun _ _ h => { h with }

theorem Tracking.regions (hgrounded : w.program.Grounded)
    (hbytes : ∀ inst ∈ w.program.instrs, inst.op.ReadsBytes) (hinner : Tracking w inner)
    (scope : Scope) (W : Pairs) :
    ∀ rs, Tracks w W (walkRegions w inner scope rs) (walkRegions w inner scope rs) Anyhow
  | [] => by
    rw [walkRegions]
    exact tracks_pure trivial
  | r :: rs => by
    rw [walkRegions]
    exact (hinner.region hgrounded hbytes scope W r).bind fun W' _ _ _ _ =>
      hinner.regions hgrounded hbytes scope W' rs

end

/-- The walk through a context tracks itself. -/
theorem tracking_walkContext (hgrounded : w.program.Grounded)
    (hbytes : ∀ inst ∈ w.program.instrs, inst.op.ReadsBytes) (depth : Nat) :
    Tracking w (walkContext w depth) := by
  induction depth with
  | zero =>
    intro W scope s t u s' h hs
    cases hs
  | succ depth ih =>
    intro W scope
    rw [walkContext]
    exact tracks_lift_bind fun c _ => ih.regions hgrounded hbytes scope W c.regions

end Walk

end ByteTrust
