import ByteTrust.Proofs.Snapshot.Meet
import Mathlib.Algebra.Order.BigOperators.Group.List
import Mathlib.Algebra.Order.Ring.Nat

/-!
# What the operations do to trusted bytes

Seen byte by byte, each operation on snapshots makes some bytes trusted, takes trust from others
and leaves the rest as they are, and which bytes these are hangs on the owners of the frames and
on nothing else (`Flows`). So operations keep the order of trust (`Below`), and even the order at
one single byte (`Flows.imp`). The operations of a program come in three kinds (`Effect`): some
ranges of bytes become trusted, or some objects lose all trust, or every object does.
-/

namespace ByteTrust

/-- No set of bytes holds every number. -/
theorem ByteSet.exists_not_mem (bytes : ByteSet) : ∃ b, b ∉ bytes := by
  refine ⟨(bytes.ranges.map ByteRange.stop).sum, ?_⟩
  rintro ⟨r, hr, -, hlt⟩
  exact absurd (List.le_sum_of_mem (List.mem_map_of_mem hr)) (Nat.not_le.2 hlt)

namespace Snapshot

variable {s t u : Snapshot} {ℓ : Level} {o : ObjectId} {b : Nat} {now : Stamp} {slot : Slot}
  {cs : List ContextId}

/-- Every listed set on every sheet is canonical. -/
def Canonical (s : Snapshot) : Prop :=
  ∀ ℓ m, s.at? ℓ = some m → m.Canonical

/-- `s` trusts no byte that `t` does not trust, with the same frames. -/
structure Below (s t : Snapshot) : Prop where
  owners : s.owners = t.owners
  trusts : ∀ ℓ o b, s.TrustsAt ℓ o b → t.TrustsAt ℓ o b

theorem Below.refl (s : Snapshot) : Below s s := ⟨rfl, fun _ _ _ h => h⟩

theorem Below.trans (h : Below s t) (h' : Below t u) : Below s u :=
  ⟨h.owners.trans h'.owners, fun ℓ o b hb => h'.trusts ℓ o b (h.trusts ℓ o b hb)⟩

theorem IsMeet.below {xs : List Snapshot} {m x : Snapshot} (h : IsMeet xs m) (hx : x ∈ xs) :
    Below m x :=
  ⟨(h.owners x hx).symm, fun ℓ o b hb => (h.trusts ℓ o b).1 hb x hx⟩

/-! ## Bytes at a slot -/

/-- The level is one of a snapshot whose frames have these owners. -/
def Level.Within (cs : List ContextId) : Level → Prop
  | .shared => True
  | .frame d => d < cs.length

theorem exists_at?_iff : (∃ m, s.at? ℓ = some m) ↔ ℓ.Within s.owners := by
  rw [← Option.isSome_iff_exists, ← Option.ne_none_iff_isSome, Ne, at?_eq_none_iff]
  cases ℓ <;> simp [Level.Within]

theorem TrustsAt.within (h : s.TrustsAt ℓ o b) : ℓ.Within s.owners := by
  obtain ⟨m, hm, -⟩ := h
  exact exists_at?_iff.1 ⟨m, hm⟩

theorem trustsAt_iff {m : Sheet} (hm : s.at? ℓ = some m) :
    s.TrustsAt ℓ o b ↔ m.Trusts s.othersClobbered o b := by
  simp [TrustsAt, hm]

/-- A byte of a listed slot is trusted when it is among the listed bytes. -/
theorem trustsAt_of_bytes? {bytes : ByteSet} (h : s.bytes? slot = some bytes) :
    s.TrustsAt (slot.level s.owners) slot.object b ↔ b ∈ bytes := by
  rw [trustsAt_iff (sheetOf_eq s slot), Sheet.Trusts,
    show (s.sheetOf slot).listed.get? _ = _ from h]

/-- A byte of a slot that is not listed is trusted unless all others are clobbered. -/
theorem trustsAt_of_unlisted (h : s.bytes? slot = none) :
    s.TrustsAt (slot.level s.owners) slot.object b ↔ s.othersClobbered = false := by
  rw [trustsAt_iff (sheetOf_eq s slot), Sheet.Trusts,
    show (s.sheetOf slot).listed.get? _ = _ from h]

theorem Canonical.bytes? {bytes : ByteSet} (hs : s.Canonical) (h : s.bytes? slot = some bytes) :
    bytes.Canonical :=
  hs _ _ (sheetOf_eq s slot) _ _ h

/-- A write at a slot changes the trust in the objects of one sheet. -/
theorem trustsAt_write {f : IdentMap .object ByteSet → IdentMap .object ByteSet} :
    (s.write now slot f).TrustsAt ℓ o b ↔
      if ℓ = slot.level s.owners then
        ((s.sheetOf slot).write now f).Trusts s.othersClobbered o b
      else s.TrustsAt ℓ o b := by
  unfold TrustsAt
  rw [at?_write, othersClobbered_write]
  split
  · next h => simp [h, sheetOf_eq]
  · rfl

theorem trustsAt_modify {f : ByteSet → ByteSet} :
    (s.modify now slot f).TrustsAt ℓ o b ↔
      if ℓ = slot.level s.owners ∧ o = slot.object then b ∈ f ((s.bytes? slot).getD ∅)
      else s.TrustsAt ℓ o b := by
  unfold modify
  rw [trustsAt_write]
  by_cases hℓ : ℓ = slot.level s.owners
  · subst hℓ
    simp only [if_true, true_and, Sheet.Trusts, Sheet.write, IdentMap.get?_insert,
      trustsAt_iff (sheetOf_eq s slot)]
    by_cases ho : o = slot.object
    · simp only [ho, if_true]
      rfl
    · simp only [ho, if_false]
  · simp [hℓ]

theorem trustsAt_erase :
    (s.write now slot fun m => m.erase slot.object).TrustsAt ℓ o b ↔
      if ℓ = slot.level s.owners ∧ o = slot.object then s.othersClobbered = false
      else s.TrustsAt ℓ o b := by
  rw [trustsAt_write]
  by_cases hℓ : ℓ = slot.level s.owners
  · subst hℓ
    simp only [if_true, true_and, Sheet.Trusts, Sheet.write, IdentMap.get?_erase,
      trustsAt_iff (sheetOf_eq s slot)]
    by_cases ho : o = slot.object
    · simp only [ho, if_true]
    · simp only [ho, if_false]
  · simp [hℓ]

theorem Canonical.write {f : IdentMap .object ByteSet → IdentMap .object ByteSet}
    (hs : s.Canonical) (hf : ∀ m : Sheet, m.Canonical → (m.write now f).Canonical) :
    (s.write now slot f).Canonical := by
  intro ℓ m hm
  rw [at?_write] at hm
  split at hm
  · obtain ⟨n, hn, rfl⟩ := Option.map_eq_some_iff.1 hm
    exact hf n (hs ℓ n hn)
  · exact hs ℓ m hm

theorem Canonical.modify {f : ByteSet → ByteSet} (hs : s.Canonical)
    (hf : ∀ bytes, bytes.Canonical → (f bytes).Canonical) : (s.modify now slot f).Canonical := by
  refine hs.write fun m hm o bytes h => ?_
  simp only [Sheet.write, IdentMap.get?_insert] at h
  split at h
  · obtain rfl := Option.some.inj h
    apply hf
    cases hg : m.listed.get? slot.object with
    | none => exact ByteSet.canonical_empty
    | some old => exact hm _ old hg
  · exact hm o bytes h

/-- A copy trusts what the snapshot trusts. -/
theorem trustsAt_copy : (s.copy now).TrustsAt ℓ o b ↔ s.TrustsAt ℓ o b := by
  unfold TrustsAt
  rw [at?_copy]
  cases s.at? ℓ with
  | none => simp
  | some m => simp [Sheet.Trusts, Snapshot.copy]

theorem below_copy : Below s (s.copy now) :=
  ⟨(owners_copy s now).symm, fun _ _ _ hb => trustsAt_copy.2 hb⟩

theorem copy_below : Below (s.copy now) s :=
  ⟨owners_copy s now, fun _ _ _ hb => trustsAt_copy.1 hb⟩

/-! ## Entering and leaving a call -/

theorem trustsAt_pushFrame {c : ContextId} : (s.pushFrame now c).TrustsAt ℓ o b ↔
    if ℓ = .frame s.owners.length then s.othersClobbered = false else s.TrustsAt ℓ o b := by
  unfold TrustsAt
  rw [at?_pushFrame]
  split
  · simp only [Option.some.injEq, exists_eq_left', othersClobbered_pushFrame]
    rfl
  · rfl

theorem trustsAt_popFrame {c : ContextId} (h : s.popFrame now = .ok (c, t)) :
    t.TrustsAt ℓ o b ↔ ℓ.Within t.owners ∧ s.TrustsAt ℓ o b := by
  obtain ⟨howners, -, hflag, hat⟩ := popFrame_eq_ok h
  constructor
  · intro hb
    refine ⟨hb.within, ?_⟩
    obtain ⟨m, hm, hb⟩ := hb
    rw [hat] at hm
    split at hm
    · cases hm
    · exact ⟨m, hm, hflag ▸ hb⟩
  · rintro ⟨hℓ, m, hm, hb⟩
    refine ⟨m, ?_, hflag ▸ hb⟩
    rw [hat, if_neg, hm]
    rintro rfl
    exact Nat.lt_irrefl _ hℓ

theorem Canonical.pushFrame (hs : s.Canonical) (c : ContextId) : (s.pushFrame now c).Canonical := by
  intro ℓ m hm
  rw [at?_pushFrame] at hm
  split at hm
  · cases hm
    exact Sheet.canonical_blank now
  · exact hs ℓ m hm

theorem Canonical.popFrame {c : ContextId} (hs : s.Canonical) (h : s.popFrame now = .ok (c, t)) :
    t.Canonical := by
  obtain ⟨-, -, -, hat⟩ := popFrame_eq_ok h
  intro ℓ m hm
  rw [hat] at hm
  split at hm
  · cases hm
  · exact hs ℓ m hm

/-- Some object is listed on neither of two sheets. -/
theorem exists_unlisted (m n : Sheet) :
    ∃ o, m.listed.get? o = none ∧ n.listed.get? o = none := by
  let ks := m.listed.keys ++ n.listed.keys
  have hfresh : ⟨(ks.map Ident.number).sum + 1⟩ ∉ ks := fun hk =>
    Nat.not_succ_le_self (ks.map Ident.number).sum
      (List.le_sum_of_mem (List.mem_map_of_mem (f := Ident.number) hk))
  rw [List.mem_append, not_or, IdentMap.mem_keys, IdentMap.mem_keys] at hfresh
  exact ⟨_, Option.eq_none_iff_forall_ne_some.2 fun bytes h => hfresh.1 ⟨bytes, h⟩,
    Option.eq_none_iff_forall_ne_some.2 fun bytes h => hfresh.2 ⟨bytes, h⟩⟩

/-- Where other objects are trusted as a whole, they are so in any snapshot that trusts more. -/
theorem Below.flag (h : Below s t) (hs : s.othersClobbered = false) :
    t.othersClobbered = false := by
  obtain ⟨o, hso, hto⟩ := exists_unlisted s.shared t.shared
  have hb := h.trusts .shared o 0 ⟨_, rfl, by rw [Sheet.Trusts, hso]; exact hs⟩
  rwa [trustsAt_iff rfl, Sheet.Trusts, hto] at hb

theorem Below.pushFrame (h : Below s t) {now' : Stamp} (c : ContextId) :
    Below (s.pushFrame now c) (t.pushFrame now' c) := by
  refine ⟨by simp [h.owners], fun ℓ o b hb => ?_⟩
  rw [trustsAt_pushFrame] at hb ⊢
  rw [← h.owners]
  split at hb
  · next hℓ => exact (if_pos hℓ).mpr (h.flag hb)
  · next hℓ => exact (if_neg hℓ).mpr (h.trusts ℓ o b hb)

theorem Below.popFrame {s' t' : Snapshot} {now' : Stamp} {c c' : ContextId} (h : Below s t)
    (hs : s.popFrame now = .ok (c, s')) (ht : t.popFrame now' = .ok (c', t')) : Below s' t' := by
  have howners : s'.owners = t'.owners := by
    have := (popFrame_eq_ok hs).1.symm.trans (h.owners.trans (popFrame_eq_ok ht).1)
    exact (List.cons.inj this).2
  refine ⟨howners, fun ℓ o b hb => ?_⟩
  rw [trustsAt_popFrame hs] at hb
  exact (trustsAt_popFrame ht).2 ⟨howners ▸ hb.1, h.trusts ℓ o b hb.2⟩

/-! ## Flows -/

/-- Whatever the time, `f` makes the bytes `gen` trusted and takes trust from the bytes `kill`,
in snapshots whose frames have the owners `cs`. -/
structure GenKill (cs : List ContextId) (f : Stamp → Snapshot → Snapshot)
    (gen kill : Level → ObjectId → Nat → Prop) : Prop where
  canonical : ∀ now s, s.Canonical → s.owners = cs → (f now s).Canonical
  owners : ∀ now s, s.Canonical → s.owners = cs → (f now s).owners = cs
  trusts : ∀ now s, s.Canonical → s.owners = cs → ∀ ℓ o b,
    (f now s).TrustsAt ℓ o b ↔ gen ℓ o b ∨ s.TrustsAt ℓ o b ∧ ¬ kill ℓ o b

/-- A change of snapshots that looks at single bytes only. -/
def Flows (cs : List ContextId) (f : Stamp → Snapshot → Snapshot) : Prop :=
  ∃ gen kill, GenKill cs f gen kill

variable {f g : Stamp → Snapshot → Snapshot}

section GenKill

variable {gen gen' kill kill' : Level → ObjectId → Nat → Prop}

theorem genKill_id : GenKill cs (fun _ s => s) (fun _ _ _ => False) fun _ _ _ => False :=
  ⟨fun _ _ hs _ => hs, fun _ _ _ h => h, fun _ _ _ _ _ _ _ => by simp⟩

theorem GenKill.comp (hf : GenKill cs f gen kill) (hg : GenKill cs g gen' kill') :
    GenKill cs (fun now s => g now (f now s))
      (fun ℓ o b => gen' ℓ o b ∨ gen ℓ o b ∧ ¬ kill' ℓ o b)
      (fun ℓ o b => kill ℓ o b ∨ kill' ℓ o b) := by
  refine ⟨?_, ?_, ?_⟩ <;> intro now s hs hcs
  · exact hg.canonical now _ (hf.canonical now s hs hcs) (hf.owners now s hs hcs)
  · exact hg.owners now _ (hf.canonical now s hs hcs) (hf.owners now s hs hcs)
  · intro ℓ o b
    rw [hg.trusts now _ (hf.canonical now s hs hcs) (hf.owners now s hs hcs),
      hf.trusts now s hs hcs]
    tauto

theorem GenKill.congr (h : GenKill cs f gen kill) (hgen : ∀ ℓ o b, gen ℓ o b ↔ gen' ℓ o b)
    (hkill : ∀ ℓ o b, kill ℓ o b ↔ kill' ℓ o b) : GenKill cs f gen' kill' := by
  refine ⟨h.canonical, h.owners, fun now s hs hcs ℓ o b => ?_⟩
  rw [h.trusts now s hs hcs, hgen, hkill]

end GenKill

theorem flows_id : Flows cs fun _ s => s := ⟨_, _, genKill_id⟩

/-- At one byte, a flow keeps the order of two snapshots. -/
theorem Flows.imp (hf : Flows cs f) (hs : s.Canonical) (ht : t.Canonical) (hscs : s.owners = cs)
    (htcs : t.owners = cs) {now now' : Stamp} (h : s.TrustsAt ℓ o b → t.TrustsAt ℓ o b)
    (hb : (f now s).TrustsAt ℓ o b) : (f now' t).TrustsAt ℓ o b := by
  obtain ⟨gen, kill, hf⟩ := hf
  rw [hf.trusts now s hs hscs] at hb
  rw [hf.trusts now' t ht htcs]
  exact hb.imp_right fun hb => ⟨h hb.1, hb.2⟩

theorem Flows.canonical (hf : Flows cs f) (hs : s.Canonical) (hcs : s.owners = cs) :
    (f now s).Canonical := by
  obtain ⟨gen, kill, hf⟩ := hf
  exact hf.canonical now s hs hcs

theorem Flows.owners (hf : Flows cs f) (hs : s.Canonical) (hcs : s.owners = cs) :
    (f now s).owners = cs := by
  obtain ⟨gen, kill, hf⟩ := hf
  exact hf.owners now s hs hcs

theorem Flows.below (hf : Flows cs f) (hs : s.Canonical) (ht : t.Canonical) (hcs : s.owners = cs)
    {now now' : Stamp} (h : Below s t) : Below (f now s) (f now' t) := by
  have htcs : t.owners = cs := h.owners.symm.trans hcs
  refine ⟨(hf.owners hs hcs).trans (hf.owners ht htcs).symm, fun ℓ o b hb => ?_⟩
  exact hf.imp hs ht hcs htcs (h.trusts ℓ o b) hb

/-! ## Effects -/

/-- What an operation does to trusted bytes. -/
inductive Effect
  /-- Ranges of bytes become trusted. -/
  | vouch (ranges : List (Slot × ByteRange))
  /-- No byte of these slots is trusted any more. -/
  | clobber (slots : List Slot)
  /-- No byte is trusted any more. -/
  | clobberAll

namespace Effect

/-- The bytes that become trusted, where the frames have the owners `cs`. -/
def Gives (cs : List ContextId) : Effect → Level → ObjectId → Nat → Prop
  | .vouch ranges, ℓ, o, b => ∃ e ∈ ranges, ℓ = e.1.level cs ∧ o = e.1.object ∧ b ∈ e.2
  | _, _, _, _ => False

/-- The bytes that trust is taken from, where the frames have the owners `cs`. -/
def Takes (cs : List ContextId) : Effect → Level → ObjectId → Nat → Prop
  | .vouch _, _, _, _ => False
  | .clobber slots, ℓ, o, _ => ∃ slot ∈ slots, ℓ = slot.level cs ∧ o = slot.object
  | .clobberAll, _, _, _ => True

instance (cs : List ContextId) (e : Effect) (ℓ : Level) (o : ObjectId) (b : Nat) :
    Decidable (e.Gives cs ℓ o b) :=
  match e with
  | .vouch ranges =>
    inferInstanceAs (Decidable (∃ e ∈ ranges, ℓ = e.1.level cs ∧ o = e.1.object ∧ b ∈ e.2))
  | .clobber _ | .clobberAll => inferInstanceAs (Decidable False)

instance (cs : List ContextId) (e : Effect) (ℓ : Level) (o : ObjectId) (b : Nat) :
    Decidable (e.Takes cs ℓ o b) :=
  match e with
  | .vouch _ => inferInstanceAs (Decidable False)
  | .clobber slots =>
    inferInstanceAs (Decidable (∃ slot ∈ slots, ℓ = slot.level cs ∧ o = slot.object))
  | .clobberAll => inferInstanceAs (Decidable True)

end Effect

/-- The change has the effect, in snapshots whose frames have the owners `cs`. -/
def HasEffect (cs : List ContextId) (f : Stamp → Snapshot → Snapshot) (e : Effect) : Prop :=
  GenKill cs f (e.Gives cs) (e.Takes cs)

theorem HasEffect.flows {e : Effect} (h : HasEffect cs f e) : Flows cs f := ⟨_, _, h⟩

theorem hasEffect_id : HasEffect cs (fun _ s => s) (.vouch []) :=
  genKill_id.congr (fun ℓ o b => by simp [Effect.Gives]) fun ℓ o b => Iff.rfl

theorem HasEffect.vouch_append {ranges ranges' : List (Slot × ByteRange)}
    (hf : HasEffect cs f (.vouch ranges)) (hg : HasEffect cs g (.vouch ranges')) :
    HasEffect cs (fun now s => g now (f now s)) (.vouch (ranges ++ ranges')) := by
  refine (GenKill.comp hf hg).congr (fun ℓ o b => ?_) fun ℓ o b => ?_
  · simp only [Effect.Gives, Effect.Takes, not_false_eq_true, and_true, List.mem_append,
      or_and_right, exists_or]
    exact or_comm
  · simp [Effect.Takes]

/-- A change that makes a range of bytes of a slot trusted, unless they are already. -/
theorem hasEffect_insert (slot : Slot) (range : ByteRange)
    (hf : ∀ now s, s.Canonical →
      f now s = s ∧ (∀ b ∈ range, s.TrustsAt (slot.level s.owners) slot.object b) ∨
      f now s = s.modify now slot (·.insert range) ∧
        (s.bytes? slot = none → s.othersClobbered = true)) :
    HasEffect cs f (.vouch [(slot, range)]) := by
  refine ⟨fun now s hs _ => ?_, fun now s hs h => ?_, fun now s hs hcs ℓ o b => ?_⟩
  · rcases hf now s hs with ⟨h, -⟩ | ⟨h, -⟩ <;> rw [h]
    · exact hs
    · exact hs.modify fun _ hb => hb.insert range
  · rcases hf now s hs with ⟨h', -⟩ | ⟨h', -⟩ <;> rw [h']
    · exact h
    · exact (owners_write ..).trans h
  · subst hcs
    simp only [Effect.Gives, Effect.Takes, List.mem_singleton, exists_eq_left, not_false_eq_true,
      and_true]
    rcases hf now s hs with ⟨h, htrusts⟩ | ⟨h, hflag⟩ <;> rw [h]
    · refine (or_iff_right_of_imp ?_).symm
      rintro ⟨rfl, rfl, hb⟩
      exact htrusts b hb
    · rw [trustsAt_modify]
      by_cases hslot : ℓ = slot.level s.owners ∧ o = slot.object
      · obtain ⟨rfl, rfl⟩ := hslot
        simp only [true_and, and_self, if_true]
        cases hbytes : s.bytes? slot with
        | some bytes =>
          rw [trustsAt_of_bytes? hbytes, Option.getD_some, (hs.bytes? hbytes).mem_insert, or_comm]
        | none =>
          rw [trustsAt_of_unlisted hbytes, Option.getD_none, ByteSet.canonical_empty.mem_insert]
          simp [hflag hbytes]
      · rw [if_neg hslot]
        refine (or_iff_right_of_imp fun hb => ?_).symm
        exact absurd ⟨hb.1, hb.2.1⟩ hslot

theorem not_trustsAt_clobberAll : ¬ (s.clobberAll now).TrustsAt ℓ o b := by
  rintro ⟨m, hm, hb⟩
  rw [at?_clobberAll, Option.map_eq_some_iff] at hm
  obtain ⟨n, -, rfl⟩ := hm
  rw [Sheet.Trusts, listed_clobber] at hb
  cases hb

theorem hasEffect_clobberAll : HasEffect cs (fun now s => s.clobberAll now) .clobberAll := by
  refine ⟨fun now s _ _ ℓ m hm => ?_, fun now s _ h => (owners_clobberAll s now).trans h,
    fun now s _ _ ℓ o b => ?_⟩
  · rw [at?_clobberAll, Option.map_eq_some_iff] at hm
    obtain ⟨n, -, rfl⟩ := hm
    intro o bytes h
    rw [listed_clobber] at h
    cases h
  · simp only [Effect.Gives, Effect.Takes, not_true, and_false, or_false, iff_false]
    exact not_trustsAt_clobberAll

theorem flows_clobberAll : Flows cs fun now s => s.clobberAll now := hasEffect_clobberAll.flows

theorem hasEffect_clobber (slot : Slot) :
    HasEffect cs (fun now s => s.clobber now slot) (.clobber [slot]) := by
  refine ⟨fun now s hs _ => ?_, fun now s _ h => ?_, fun now s hs hcs ℓ o b => ?_⟩
  · unfold clobber
    split
    · split
      · refine hs.write fun m hm o bytes h => ?_
        simp only [Sheet.write, IdentMap.get?_erase] at h
        split at h
        · cases h
        · exact hm o bytes h
      · exact hs
    · exact hs.modify fun _ _ => ByteSet.canonical_empty
  · unfold clobber
    split
    · split
      · exact (owners_write ..).trans h
      · exact h
    · exact (owners_write ..).trans h
  · subst hcs
    simp only [Effect.Gives, Effect.Takes, List.mem_singleton, exists_eq_left, false_or]
    unfold clobber
    by_cases hslot : ℓ = slot.level s.owners ∧ o = slot.object
    · simp only [hslot, and_self, not_true, and_false, iff_false]
      cases hflag : s.othersClobbered
      · simp [trustsAt_modify]
      · cases hbytes : s.bytes? slot
        · simp [trustsAt_of_unlisted hbytes, hflag]
        · simp [trustsAt_erase, hflag]
    · simp only [hslot, not_false_eq_true, and_true]
      split
      · split
        · rw [trustsAt_erase, if_neg hslot]
        · rfl
      · rw [trustsAt_modify, if_neg hslot]

theorem flows_clobber (slot : Slot) : Flows cs fun now s => s.clobber now slot :=
  (hasEffect_clobber slot).flows

theorem hasEffect_foldl_clobber (slots : List Slot) :
    HasEffect cs (fun now s => slots.foldl (fun s slot => s.clobber now slot) s)
      (.clobber slots) := by
  induction slots with
  | nil => exact genKill_id.congr (fun ℓ o b => Iff.rfl) fun ℓ o b => by simp [Effect.Takes]
  | cons slot slots ih =>
    refine (GenKill.comp (hasEffect_clobber slot) ih).congr (fun ℓ o b => ?_) fun ℓ o b => ?_
    · simp [Effect.Gives]
    · simp [Effect.Takes]

end Snapshot

end ByteTrust
