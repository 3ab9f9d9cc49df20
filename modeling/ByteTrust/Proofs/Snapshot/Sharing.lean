import ByteTrust.Proofs.Interference.Bins
import ByteTrust.Proofs.Interference.Transfer
import ByteTrust.Proofs.Snapshot.Compare

/-!
# Sharing is invisible

Snapshots are kept in named registers and changed by operations. A register is filled with another
reference to the snapshot of a second one, or with a copy that shares nothing with it. Which of the
two it is decides whether a later meet keeps a sheet as it is, so that an object may stay listed
without bytes in one case and not in the other. Nothing else comes of it: where references are
replaced by copies, all registers have the same frames and trust the same bytes, the same operations
fail, and comparisons and reads are answered alike (`run_unshared`).

`Twin` is what the snapshots of the two runs have in common. One lemma says that each operation
keeps it (`Op.outcome_twin`), and the run follows by induction.
-/

namespace ByteTrust

namespace Snapshot

variable {s t u : Snapshot} {now now' : Stamp} {slot : Slot}

/-- The two snapshots have the same frames and trust the same bytes. What they list may differ:
where other objects are clobbered, an object may be listed without bytes, or not be listed. -/
structure Twin (s t : Snapshot) : Prop where
  below : Below s t
  above : Below t s

namespace Twin

theorem symm (h : Twin s t) : Twin t s := ⟨h.above, h.below⟩

theorem trans (h : Twin s t) (h' : Twin t u) : Twin s u :=
  ⟨h.below.trans h'.below, h'.above.trans h.above⟩

theorem trustsAt_iff (h : Twin s t) {ℓ : Level} {o : ObjectId} {b : Nat} :
    s.TrustsAt ℓ o b ↔ t.TrustsAt ℓ o b :=
  ⟨h.below.trusts ℓ o b, h.above.trusts ℓ o b⟩

theorem flag (h : Twin s t) : s.othersClobbered = t.othersClobbered := by
  cases hs : s.othersClobbered with
  | false => exact (h.below.flag hs).symm
  | true =>
    cases ht : t.othersClobbered with
    | false => exact hs.symm.trans (h.above.flag ht)
    | true => rfl

theorem trusts_iff (h : Twin s t) (pos : Position) (o : ObjectId) (b : Nat) :
    s.Trusts pos o b ↔ t.Trusts pos o b := by
  rw [trusts_iff_trustsAt, trusts_iff_trustsAt, ← h.below.owners]
  exact h.trustsAt_iff

theorem copy (h : Twin s t) : Twin s (t.copy now) :=
  h.trans ⟨below_copy, copy_below⟩

/-- A slot that only one of the snapshots lists is listed there without bytes. -/
theorem not_mem_of_unlisted {bytes : ByteSet} (h : Twin s t) (hs : s.bytes? slot = some bytes)
    (ht : t.bytes? slot = none) (b : Nat) : b ∉ bytes := by
  have hiff (b : Nat) : b ∈ bytes ↔ t.othersClobbered = false := by
    rw [← trustsAt_of_bytes? hs, ← trustsAt_of_unlisted ht, h.trustsAt_iff, h.below.owners]
  obtain ⟨b', hb'⟩ := bytes.exists_not_mem
  exact fun hb => hb' ((hiff b').2 ((hiff b).1 hb))

theorem getD_bytes? (h : Twin s t) (hs : s.Canonical) (ht : t.Canonical) :
    (s.bytes? slot).getD ∅ = (t.bytes? slot).getD ∅ := by
  have hempty {s t : Snapshot} {bytes : ByteSet} (h : Twin s t) (hcanonical : s.Canonical)
      (hs : s.bytes? slot = some bytes) (ht : t.bytes? slot = none) : bytes = ∅ := by
    refine (hcanonical.bytes? hs).ext ByteSet.canonical_empty fun b => ?_
    exact iff_of_false (h.not_mem_of_unlisted hs ht b) (ByteSet.not_mem_empty b)
  cases hsb : s.bytes? slot with
  | none =>
    cases htb : t.bytes? slot with
    | none => rfl
    | some bytes => exact (hempty h.symm ht htb hsb).symm
  | some bytes =>
    cases htb : t.bytes? slot with
    | none => exact hempty h hs hsb htb
    | some bytes' =>
      refine (hs.bytes? hsb).ext (ht.bytes? htb) fun b => ?_
      rw [← trustsAt_of_bytes? hsb, h.trustsAt_iff, h.below.owners]
      exact trustsAt_of_bytes? htb

theorem modify (h : Twin s t) (hs : s.Canonical) (ht : t.Canonical) (f : ByteSet → ByteSet) :
    Twin (s.modify now slot f) (t.modify now' slot f) := by
  have howners : (s.modify now slot f).owners = (t.modify now' slot f).owners := by
    rw [Snapshot.modify, Snapshot.modify, owners_write, owners_write, h.below.owners]
  have hiff (ℓ : Level) (o : ObjectId) (b : Nat) :
      (s.modify now slot f).TrustsAt ℓ o b ↔ (t.modify now' slot f).TrustsAt ℓ o b := by
    rw [trustsAt_modify, trustsAt_modify, h.getD_bytes? hs ht, h.below.owners, h.trustsAt_iff]
  exact ⟨⟨howners, fun ℓ o b => (hiff ℓ o b).1⟩, ⟨howners.symm, fun ℓ o b => (hiff ℓ o b).2⟩⟩

theorem pushFrame (h : Twin s t) (c : ContextId) :
    Twin (s.pushFrame now c) (t.pushFrame now' c) :=
  ⟨h.below.pushFrame c, h.above.pushFrame c⟩

/-- A change that looks at single bytes keeps the agreement. -/
theorem flow {g : Stamp → Snapshot → Snapshot} (hg : ∀ cs, Flows cs g) (h : Twin s t)
    (hs : s.Canonical) (ht : t.Canonical) : Twin (g now s) (g now' t) :=
  ⟨(hg _).below hs ht rfl h.below, (hg _).below ht hs rfl h.above⟩

theorem isBelow_eq {s' t' : Snapshot} (hs : Twin s s') (ht : Twin t t') (hcs : s.Canonical)
    (hcs' : s'.Canonical) (hct : t.Canonical) (hct' : t'.Canonical) :
    s.isBelow t = s'.isBelow t' := by
  rw [Bool.eq_iff_iff, isBelow_iff hcs hct, isBelow_iff hcs' hct']
  exact ⟨fun h => hs.above.trans (h.trans ht.below), fun h => hs.below.trans (h.trans ht.above)⟩

theorem isStale_eq (h : Twin s t) (hs : s.Canonical) (ht : t.Canonical) (p : Program)
    (ptr : Pointer) {size : Nat} (hsize : 0 < size) :
    p.isStale s ptr size = p.isStale t ptr size := by
  rw [Bool.eq_iff_iff]
  exact ⟨Program.isStale_antitone h.above ht hs hsize, Program.isStale_antitone h.below hs ht hsize⟩

end Twin

/-! ## Meets -/

/-- Both operations fail alike, or their outcomes agree. -/
def SameOutcome : Except Fault (Option Snapshot) → Except Fault (Option Snapshot) → Prop
  | .ok x, .ok y => Option.Rel Twin x y
  | .error f, .error g => f = g
  | _, _ => False

variable {xs ys : List Snapshot}

theorem IsMeet.twin {m n : Snapshot} (h : List.Forall₂ Twin xs ys) (hne : xs ≠ [])
    (hm : IsMeet xs m) (hn : IsMeet ys n) : Twin m n := by
  have hiff (ℓ : Level) (o : ObjectId) (b : Nat) : m.TrustsAt ℓ o b ↔ n.TrustsAt ℓ o b := by
    rw [hm.trusts, hn.trusts]
    clear hm hn hne
    induction h with
    | nil => simp
    | cons hxy _ ih => rw [List.forall_mem_cons, List.forall_mem_cons, hxy.trustsAt_iff, ih]
  have howners : m.owners = n.owners := by
    cases h with
    | nil => exact absurd rfl hne
    | cons hxy _ =>
      rw [← hm.owners _ List.mem_cons_self, ← hn.owners _ List.mem_cons_self, hxy.below.owners]
  exact ⟨⟨howners, fun ℓ o b => (hiff ℓ o b).1⟩, ⟨howners.symm, fun ℓ o b => (hiff ℓ o b).2⟩⟩

theorem firstUnlike?_twin (hst : Twin s t) (h : List.Forall₂ Twin xs ys) :
    Option.Rel Twin (firstUnlike? s xs) (firstUnlike? t ys) := by
  unfold firstUnlike?
  rw [hst.below.owners]
  induction h with
  | nil => exact .none
  | cons hxy _ ih =>
    rw [List.find?_cons, List.find?_cons, hxy.below.owners]
    split
    · exact .some hxy
    · exact ih

/-- Coherent snapshots with different frames do not meet. -/
theorem Coherent.meetAll_of_unlike (h : Coherent (s :: xs)) (hu : firstUnlike? s xs = some u) :
    meetAll now (s :: xs) = .error (.frameMismatch s.frames.length u.frames.length) := by
  have hmem : u ∈ xs := List.mem_of_find?_eq_some hu
  have hne : u.owners ≠ s.owners := by simpa using List.find?_some hu
  have hnew : ¬ (xs.all fun x => x.isSame s) = true := by
    intro hall
    have hsame : u.stamp = s.stamp := of_decide_eq_true (List.all_eq_true.1 hall u hmem)
    exact hne (congrArg owners
      (h.same u (List.mem_cons_of_mem s hmem) s List.mem_cons_self hsame))
  rw [meetAll, if_neg hnew, hu]

/-- Meets of snapshots that agree one by one succeed or fail alike, and agree. -/
theorem meetAll_twin (hxs : Coherent xs) (hys : Coherent ys) (h : List.Forall₂ Twin xs ys) :
    SameOutcome (meetAll now xs) (meetAll now' ys) := by
  cases h with
  | nil => exact .none
  | @cons s t xs ys hst h =>
    have hfirst := firstUnlike?_twin hst h
    cases hu : firstUnlike? s xs with
    | some u =>
      rw [hu] at hfirst
      cases hv : firstUnlike? t ys with
      | none =>
        rw [hv] at hfirst
        cases hfirst
      | some v =>
        rw [hv] at hfirst
        cases hfirst with
        | some huv =>
          have hlen {s t : Snapshot} (h : Twin s t) : s.frames.length = t.frames.length := by
            simpa using congrArg List.length h.below.owners
          rw [hxs.meetAll_of_unlike hu, hys.meetAll_of_unlike hv, hlen hst, hlen huv]
          rfl
    | none =>
      have hv : firstUnlike? t ys = none := by
        rw [hu] at hfirst
        generalize firstUnlike? t ys = v at hfirst
        cases hfirst
        rfl
      have hlike {s : Snapshot} {xs : List Snapshot} (hu : firstUnlike? s xs = none) :
          ∀ x ∈ xs, x.owners = s.owners := by
        simpa [firstUnlike?] using hu
      obtain ⟨m, hm, hmeet, -⟩ := hxs.meetAll_eq_ok (hlike hu) now
      obtain ⟨n, hn, hmeet', -⟩ := hys.meetAll_eq_ok (hlike hv) now'
      rw [hm, hn]
      exact .some (hmeet.twin (.cons hst h) (List.cons_ne_nil s xs) hmeet')

/-! ## Registers -/

/-- A change of the trusted bytes of one slot. -/
inductive Edit
  | insert (range : ByteRange)
  | clear

/-- Change a set of bytes. -/
def Edit.apply (bytes : ByteSet) : Edit → ByteSet
  | .insert range => bytes.insert range
  | .clear => ∅

/-- An operation on registers, which are numbered. The first one named is the one that is filled. -/
inductive Op
  /-- A new snapshot that trusts everything. -/
  | trusting (r : Nat)
  /-- Another reference to the snapshot in `source`. -/
  | clone (r source : Nat)
  /-- A copy of the snapshot in `source` that shares nothing with it. -/
  | copy (r source : Nat)
  | pushFrame (r : Nat) (owner : ContextId)
  | popFrame (r : Nat)
  | clobberAll (r : Nat)
  | clobber (r : Nat) (slot : Slot)
  /-- Changes of the trusted bytes of a slot, which is listed with none at first. -/
  | edit (r : Nat) (slot : Slot) (edits : List Edit)
  | vouch (r : Nat) (suppressed : Bool) (ptr : PointerValue) (offset : Int) (len : Nat)
  | transfer (r : Nat) (op : Operation) (need : Option Need) (suppressed : Bool)
  | meet (r : Nat) (sources : List Nat)

/-- The register that an operation fills. -/
def Op.target : Op → Nat
  | .trusting r | .clone r _ | .copy r _ | .pushFrame r _ | .popFrame r | .clobberAll r
  | .clobber r _ | .edit r _ _ | .vouch r _ _ _ _ | .transfer r _ _ _ | .meet r _ => r

/-- Registers, some of them filled, and how the operations so far ended. -/
structure Machine where
  clock : Stamp := 0
  registers : Nat → Option Snapshot := fun _ => none
  /-- The faults of the operations, latest first, and nothing for those that succeeded. -/
  faults : List (Option Fault) := []

/-- What an operation puts into its register. With an empty register nothing is done. -/
def Op.outcome (p : Program) (settings : Settings) (m : Machine) :
    Op → Except Fault (Option Snapshot)
  | .trusting _ => .ok (some (.trusting m.clock))
  | .clone _ source => .ok (m.registers source)
  | .copy _ source => .ok ((m.registers source).map (·.copy m.clock))
  | .pushFrame r owner => .ok ((m.registers r).map (·.pushFrame m.clock owner))
  | .popFrame r =>
    match m.registers r with
    | none => .ok none
    | some x => (x.popFrame m.clock).map fun e => some e.2
  | .clobberAll r => .ok ((m.registers r).map (·.clobberAll m.clock))
  | .clobber r slot => .ok ((m.registers r).map (·.clobber m.clock slot))
  | .edit r slot edits =>
    .ok ((m.registers r).map (·.modify m.clock slot fun bytes => edits.foldl Edit.apply bytes))
  | .vouch r suppressed ptr offset len =>
    .ok ((m.registers r).map (p.vouchUnless suppressed m.clock ptr offset len))
  | .transfer r op need suppressed =>
    .ok ((m.registers r).map (p.transfer settings m.clock op need suppressed))
  | .meet _ sources =>
    match sources.mapM m.registers with
    | none => .ok none
    | some xs => meetAll m.clock xs

/-- Do one operation. -/
def Machine.step (p : Program) (settings : Settings) (m : Machine) (op : Op) : Machine :=
  match op.outcome p settings m with
  | .ok none => { m with clock := m.clock + 1, faults := none :: m.faults }
  | .ok (some x) =>
    { clock := m.clock + 1
      registers := fun r => if r = op.target then some x else m.registers r
      faults := none :: m.faults }
  | .error f => { m with clock := m.clock + 1, faults := some f :: m.faults }

/-- Do operations in order, with all registers empty at first. -/
def Machine.run (p : Program) (settings : Settings) (ops : List Op) : Machine :=
  ops.foldl (Machine.step p settings) {}

/-- The second operation is the first one, or makes a copy in place of a reference. -/
inductive Op.Unshared : Op → Op → Prop
  | same (op : Op) : Unshared op op
  | copied (r source : Nat) : Unshared (.clone r source) (.copy r source)

/-! ## Two runs -/

/-- All snapshots in the registers were made before the present time. -/
def Machine.Held (m : Machine) (H : List Snapshot) : Prop :=
  History m.clock H ∧ ∀ r, ∀ x ∈ m.registers r, x ∈ H

/-- The registers of two machines agree, and the same operations failed. -/
structure Mirrors (m m' : Machine) : Prop where
  twin : ∀ r, Option.Rel Twin (m.registers r) (m'.registers r)
  faults : m.faults = m'.faults
  held : ∃ H, m.Held H
  held' : ∃ H, m'.Held H

variable {p : Program} {settings : Settings} {m m' : Machine} {H : List Snapshot} {op op' : Op}

theorem Edit.canonical_foldl (edits : List Edit) {bytes : ByteSet} (h : bytes.Canonical) :
    (edits.foldl Edit.apply bytes).Canonical := by
  induction edits generalizing bytes with
  | nil => exact h
  | cons e edits ih =>
    rw [List.foldl_cons]
    cases e with
    | insert range => exact ih (h.insert range)
    | clear => exact ih ByteSet.canonical_empty

theorem mem_of_mapM {α β : Type} {f : α → Option β} {as : List α} {bs : List β}
    (h : as.mapM f = some bs) : ∀ b ∈ bs, ∃ a ∈ as, f a = some b := by
  induction as generalizing bs with
  | nil =>
    cases h
    exact fun b hb => absurd hb List.not_mem_nil
  | cons a as ih =>
    simp only [List.mapM_cons, Option.bind_eq_bind, Option.bind_eq_some_iff, Option.pure_def,
      Option.some.injEq] at h
    obtain ⟨b, hb, bs, hbs, rfl⟩ := h
    refine List.forall_mem_cons.2 ⟨⟨a, List.mem_cons_self, hb⟩, fun b' hb' => ?_⟩
    obtain ⟨a', ha', h'⟩ := ih hbs b' hb'
    exact ⟨a', List.mem_cons_of_mem a ha', h'⟩

/-- What an operation puts into a register is made of what was in the registers. -/
theorem Op.makes (hm : m.Held H) {x : Snapshot} (h : op.outcome p settings m = .ok (some x)) :
    Makes m.clock H x := by
  have hmap {r : Nat} {g : Snapshot → Snapshot} (hx : (m.registers r).map g = some x)
      (hg : ∀ y, Makes m.clock H y → Makes m.clock H (g y)) : Makes m.clock H x := by
    obtain ⟨y, hy, rfl⟩ := Option.map_eq_some_iff.1 hx
    exact hg y (.held (hm.2 r y hy))
  cases op with
  | trusting r =>
    cases h
    exact .trusting
  | clone r source => exact .held (hm.2 source x (Except.ok.inj h))
  | copy r source => exact hmap (Except.ok.inj h) fun _ hy => hy.copy
  | pushFrame r owner => exact hmap (Except.ok.inj h) fun _ hy => hy.pushFrame owner
  | popFrame r =>
    simp only [outcome] at h
    split at h
    · cases h
    · next y hy =>
      cases hpop : y.popFrame m.clock with
      | error f =>
        rw [hpop] at h
        cases h
      | ok e =>
        rw [hpop] at h
        cases h
        exact .popFrame (.held (hm.2 r y hy)) hpop
  | clobberAll r => exact hmap (Except.ok.inj h) fun _ hy => hy.clobberAll
  | clobber r slot => exact hmap (Except.ok.inj h) fun _ hy => hy.clobber slot
  | edit r slot edits =>
    exact hmap (Except.ok.inj h) fun _ hy => hy.modify slot fun _ => Edit.canonical_foldl edits
  | vouch r suppressed ptr offset len =>
    exact hmap (Except.ok.inj h) fun _ hy => Walk.makes_vouchUnless hy suppressed ptr offset len
  | transfer r op need suppressed =>
    exact hmap (Except.ok.inj h) fun _ hy => Walk.makes_transfer hy op need suppressed
  | meet r sources =>
    simp only [outcome] at h
    split at h
    · cases h
    · next xs hxs =>
      refine .meet (fun y hy => ?_) h
      obtain ⟨r', -, hr'⟩ := mem_of_mapM hxs y hy
      exact hm.2 r' y hr'

theorem Machine.Held.step (hm : m.Held H) : ∃ H', (m.step p settings op).Held H' := by
  have hwait : History (m.clock + 1) H := hm.1.wait (Nat.le_succ _)
  unfold Machine.step
  split
  · exact ⟨H, hwait, hm.2⟩
  · next x hx =>
    refine ⟨x :: H, hm.1.next (op.makes hm hx), fun r y hy => ?_⟩
    dsimp only at hy
    split at hy
    · cases hy
      exact List.mem_cons_self
    · exact List.mem_cons_of_mem x (hm.2 r y hy)
  · exact ⟨H, hwait, hm.2⟩

/-- What agrees and is canonical. -/
def Firm (s t : Snapshot) : Prop := Twin s t ∧ s.Canonical ∧ t.Canonical

theorem Mirrors.firm (h : Mirrors m m') (r : Nat) :
    Option.Rel Firm (m.registers r) (m'.registers r) := by
  obtain ⟨H, hH, hmem⟩ := h.held
  obtain ⟨H', hH', hmem'⟩ := h.held'
  have htwin := h.twin r
  have hcanonical := fun x hx => hH.coherent.1.canonical x (hmem r x hx)
  have hcanonical' := fun x hx => hH'.coherent.1.canonical x (hmem' r x hx)
  generalize m.registers r = a at htwin hcanonical ⊢
  generalize m'.registers r = b at htwin hcanonical' ⊢
  cases htwin with
  | none => exact .none
  | some hxy => exact .some ⟨hxy, hcanonical _ rfl, hcanonical' _ rfl⟩

theorem rel_map {α β : Type} {R : α → α → Prop} {S : β → β → Prop} {a b : Option α} {f g : α → β}
    (hab : Option.Rel R a b) (h : ∀ x y, R x y → S (f x) (g y)) :
    Option.Rel S (a.map f) (b.map g) := by
  cases hab with
  | none => exact .none
  | some hxy => exact .some (h _ _ hxy)

theorem popFrame_twin (h : Twin s t) :
    SameOutcome ((s.popFrame now).map fun e => some e.2)
      ((t.popFrame now').map fun e => some e.2) := by
  cases hs : s.owners with
  | nil =>
    have hnone {s : Snapshot} {now : Stamp} (h : s.owners = []) :
        s.popFrame now = .error .noFrame := by
      have hframes : s.frames = [] := List.map_eq_nil_iff.1 h
      rw [popFrame, hframes]
    rw [hnone hs, hnone (h.below.owners ▸ hs)]
    rfl
  | cons c cs =>
    obtain ⟨u, hu⟩ := exists_popFrame s now hs
    obtain ⟨v, hv⟩ := exists_popFrame t now' (h.below.owners ▸ hs)
    rw [hu, hv]
    exact .some ⟨h.below.popFrame hu hv, h.above.popFrame hv hu⟩

theorem mapM_twin (h : Mirrors m m') (sources : List Nat) :
    Option.Rel (List.Forall₂ Twin) (sources.mapM m.registers) (sources.mapM m'.registers) := by
  induction sources with
  | nil => exact .some .nil
  | cons r rs ih =>
    have hr := h.twin r
    simp only [List.mapM_cons, Option.bind_eq_bind, Option.pure_def]
    generalize m.registers r = a at hr ⊢
    generalize m'.registers r = b at hr ⊢
    cases hr with
    | none => exact .none
    | some hxy =>
      generalize rs.mapM m.registers = xs at ih ⊢
      generalize rs.mapM m'.registers = ys at ih ⊢
      cases ih with
      | none => exact .none
      | some hxs => exact .some (.cons hxy hxs)

theorem meet_twin (h : Mirrors m m') (r : Nat) (sources : List Nat) :
    SameOutcome ((Op.meet r sources).outcome p settings m)
      ((Op.meet r sources).outcome p settings m') := by
  obtain ⟨H, hH, hmem⟩ := h.held
  obtain ⟨H', hH', hmem'⟩ := h.held'
  have hsources := mapM_twin h sources
  have hcoherent {m : Machine} {H xs : List Snapshot} (hH : m.Held H)
      (hxs : sources.mapM m.registers = some xs) : Coherent xs := by
    refine hH.1.coherent.1.mono fun x hx => ?_
    obtain ⟨r, -, hr⟩ := mem_of_mapM hxs x hx
    exact hH.2 r x hr
  simp only [Op.outcome]
  cases hxs : sources.mapM m.registers with
  | none =>
    cases hys : sources.mapM m'.registers with
    | none => exact Option.Rel.none
    | some ys =>
      rw [hxs, hys] at hsources
      cases hsources
  | some xs =>
    cases hys : sources.mapM m'.registers with
    | none =>
      rw [hxs, hys] at hsources
      cases hsources
    | some ys =>
      rw [hxs, hys] at hsources
      cases hsources with
      | some hall => exact meetAll_twin (hcoherent ⟨hH, hmem⟩ hxs) (hcoherent ⟨hH', hmem'⟩ hys) hall

/-- Each operation keeps the agreement, and so does a copy in place of a reference. -/
theorem Op.outcome_twin (h : Mirrors m m') (hop : Op.Unshared op op') :
    SameOutcome (op.outcome p settings m) (op'.outcome p settings m') := by
  have hflow {r : Nat} {g : Stamp → Snapshot → Snapshot} (hg : ∀ cs, Flows cs g) :
      Option.Rel Twin ((m.registers r).map (g m.clock)) ((m'.registers r).map (g m'.clock)) :=
    rel_map (h.firm r) fun _ _ hxy => hxy.1.flow hg hxy.2.1 hxy.2.2
  cases hop with
  | copied r source =>
    have hcopy := rel_map (f := id) (g := (·.copy m'.clock)) (h.twin source) fun _ _ hxy =>
      hxy.copy
    rwa [Option.map_id] at hcopy
  | same =>
    cases op with
    | trusting r =>
      have hcopy : (Snapshot.trusting m.clock).copy m'.clock = .trusting m'.clock := rfl
      exact .some (hcopy ▸ ⟨below_copy, copy_below⟩)
    | clone r source => exact h.twin source
    | copy r source =>
      exact rel_map (h.twin source) fun _ _ hxy => (hxy.symm.copy.symm).copy
    | pushFrame r owner => exact rel_map (h.twin r) fun _ _ hxy => hxy.pushFrame owner
    | popFrame r =>
      have hr := h.twin r
      simp only [outcome]
      generalize m.registers r = a at hr ⊢
      generalize m'.registers r = b at hr ⊢
      cases hr with
      | none => exact Option.Rel.none
      | some hxy => exact popFrame_twin hxy
    | clobberAll r => exact hflow fun _ => flows_clobberAll
    | clobber r slot => exact hflow fun _ => flows_clobber slot
    | edit r slot edits =>
      exact rel_map (h.firm r) fun _ _ hxy => hxy.1.modify hxy.2.1 hxy.2.2 _
    | vouch r suppressed ptr offset len =>
      exact hflow fun _ => Program.vouchUnless_flows suppressed ptr offset len
    | transfer r op need suppressed =>
      exact hflow fun _ => Program.transfer_flows op need suppressed
    | meet r sources => exact meet_twin h r sources

theorem Op.Unshared.target_eq (hop : Op.Unshared op op') : op'.target = op.target := by
  cases hop <;> rfl

theorem Mirrors.step (h : Mirrors m m') (hop : Op.Unshared op op') :
    Mirrors (m.step p settings op) (m'.step p settings op') := by
  obtain ⟨H, hH⟩ := h.held
  obtain ⟨H', hH'⟩ := h.held'
  refine ⟨fun r => ?_, ?_, hH.step, hH'.step⟩
  all_goals
    have hout : SameOutcome (op.outcome p settings m) (op'.outcome p settings m') :=
      Op.outcome_twin h hop
    unfold Machine.step
    generalize op.outcome p settings m = a at hout ⊢
    generalize op'.outcome p settings m' = b at hout ⊢
    rw [hop.target_eq]
    rcases a with f | _ | x <;> rcases b with g | _ | y <;> cases hout
  · exact h.twin r
  · exact h.twin r
  · next hxy =>
    dsimp only
    split
    · exact .some hxy
    · exact h.twin r
  all_goals exact congrArg (List.cons _) h.faults

theorem Mirrors.foldl {ops ops' : List Op} (hops : List.Forall₂ Op.Unshared ops ops')
    (h : Mirrors m m') :
    Mirrors (ops.foldl (Machine.step p settings) m) (ops'.foldl (Machine.step p settings) m') := by
  induction hops generalizing m m' with
  | nil => exact h
  | cons hop _ ih => exact ih (h.step hop)

/-- Where references are replaced by copies, the same operations fail, every register has the same
frames and trusts the same bytes, and comparisons and reads are answered alike. -/
theorem run_unshared (p : Program) (settings : Settings) {ops ops' : List Op}
    (hops : List.Forall₂ Op.Unshared ops ops') :
    (Machine.run p settings ops).faults = (Machine.run p settings ops').faults ∧
    (∀ r, Option.Rel (fun x x' => x.owners = x'.owners ∧
        x.othersClobbered = x'.othersClobbered ∧
        (∀ pos o b, x.Trusts pos o b ↔ x'.Trusts pos o b) ∧
        ∀ ptr size, 0 < size → p.isStale x ptr size = p.isStale x' ptr size)
      ((Machine.run p settings ops).registers r) ((Machine.run p settings ops').registers r)) ∧
    ∀ r q x x' y y', (Machine.run p settings ops).registers r = some x →
      (Machine.run p settings ops').registers r = some x' →
      (Machine.run p settings ops).registers q = some y →
      (Machine.run p settings ops').registers q = some y' → x.isBelow y = x'.isBelow y' := by
  have hempty : ∃ H, Machine.Held {} H := ⟨[], .start 0, nofun⟩
  have hrun : Mirrors (Machine.run p settings ops) (Machine.run p settings ops') :=
    Mirrors.foldl hops ⟨fun _ => .none, rfl, hempty, hempty⟩
  refine ⟨hrun.faults, fun r => ?_, ?_⟩
  · have hfirm := hrun.firm r
    generalize (Machine.run p settings ops).registers r = a at hfirm ⊢
    generalize (Machine.run p settings ops').registers r = b at hfirm ⊢
    cases hfirm with
    | none => exact .none
    | some h =>
      obtain ⟨htwin, hx, hx'⟩ := h
      exact .some ⟨htwin.below.owners, htwin.flag, htwin.trusts_iff,
        fun ptr size hsize => htwin.isStale_eq hx hx' p ptr hsize⟩
  · intro r q x x' y y' hx hx' hy hy'
    have hr := hrun.firm r
    have hq := hrun.firm q
    rw [hx, hx'] at hr
    rw [hy, hy'] at hq
    cases hr with
    | some hr =>
      cases hq with
      | some hq => exact hr.1.isBelow_eq hq.1 hr.2.1 hr.2.2 hq.2.1 hq.2.2

/-- A snapshot with an object listed without bytes, and a second register with the same snapshot or
a copy of it. -/
def pairUp (second : Op) : List Op :=
  [.trusting 0, .clobberAll 0, .edit 0 (.shared ⟨7⟩) [], second, .meet 2 [0, 1]]

/-- The program without objects and contexts. -/
def noProgram : Program := { objects := ∅, contexts := ∅, root := ⟨0⟩ }

/-- The meet with the same snapshot lists an object without bytes, and the meet with a copy does
not; both trust the same bytes. -/
theorem run_unshared_listed :
    ((Machine.run noProgram {} (pairUp (.clone 1 0))).registers 2).map (·.shared.listed.keys) =
      some [⟨7⟩] ∧
    ((Machine.run noProgram {} (pairUp (.copy 1 0))).registers 2).map (·.shared.listed.keys) =
      some [] ∧
    Option.Rel (fun x x' => ∀ pos o b, x.Trusts pos o b ↔ x'.Trusts pos o b)
      ((Machine.run noProgram {} (pairUp (.clone 1 0))).registers 2)
      ((Machine.run noProgram {} (pairUp (.copy 1 0))).registers 2) := by
  have hops : List.Forall₂ Op.Unshared (pairUp (.clone 1 0)) (pairUp (.copy 1 0)) :=
    .cons (.same _) (.cons (.same _) (.cons (.same _) (.cons (.copied 1 0) (.cons (.same _) .nil))))
  obtain ⟨-, hregisters, -⟩ := run_unshared noProgram {} hops
  refine ⟨by decide +kernel, by decide +kernel, ?_⟩
  have hmeet := hregisters 2
  generalize (Machine.run noProgram {} (pairUp (.clone 1 0))).registers 2 = a at hmeet ⊢
  generalize (Machine.run noProgram {} (pairUp (.copy 1 0))).registers 2 = b at hmeet ⊢
  cases hmeet with
  | none => exact .none
  | some h => exact .some h.2.2.1

end Snapshot

end ByteTrust
