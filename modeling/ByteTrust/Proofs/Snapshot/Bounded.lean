import ByteTrust.Proofs.Interference.Vouched
import ByteTrust.Proofs.Snapshot.Sharing

/-!
# Comparing snapshots up to the last byte

The numbers of objects lie below `Ident.bound` and the positions of bytes below `UInt64.size`, so
there is a last object and a last byte. The comparison of snapshots is exact there as well: whatever
operations made two snapshots, one is below the other exactly when no object and no byte within
these bounds tells against it (`isBelow_exact`).

Two facts carry this. The end of a range is a position too, so no listed set has the last byte: an
object that is not listed is trusted up to its last byte, or not at all, and a listed one never is.
This is an invariant of all operations (`Machine.run_bounded`). And the flags of the two snapshots
can be told from any object that neither of them lists.
-/

namespace ByteTrust

/-! ## Bounded sets and sheets -/

/-- The set is canonical and does not have the last byte. -/
structure ByteSet.Bounded (s : ByteSet) : Prop where
  canonical : s.Canonical
  lt : ∀ b ∈ s, b + 1 < UInt64.size

theorem ByteSet.bounded_empty : (∅ : ByteSet).Bounded :=
  ⟨canonical_empty, fun b hb => (not_mem_empty b hb).elim⟩

theorem ByteSet.Bounded.insert {s : ByteSet} (h : s.Bounded) {r : ByteRange}
    (hr : r.stop < UInt64.size) : (s.insert r).Bounded := by
  refine ⟨h.canonical.insert r, fun b hb => ?_⟩
  rcases h.canonical.mem_insert.1 hb with hb | hb
  · exact h.lt b hb
  · exact Nat.lt_of_le_of_lt hb.2 hr

/-- What is listed are objects, with bounded sets. -/
def Sheet.Bounded (m : Sheet) : Prop :=
  ∀ o bytes, m.listed.get? o = some bytes → o.number < Ident.bound ∧ bytes.Bounded

theorem Sheet.bounded_of_listed_eq_empty {m : Sheet} (h : m.listed = ∅) : m.Bounded := by
  intro o bytes hget
  rw [h, IdentMap.get?_empty] at hget
  cases hget

/-- A bounded sheet that trusts the last byte of an object does not list it. -/
theorem Sheet.Bounded.unlisted {n : Sheet} {clobbered : Bool} {o : ObjectId} (hn : n.Bounded)
    (h : n.Trusts clobbered o (UInt64.size - 1)) :
    n.listed.get? o = none ∧ clobbered = false := by
  unfold Sheet.Trusts at h
  cases hget : n.listed.get? o with
  | none => exact ⟨rfl, by simpa [hget] using h⟩
  | some bytes =>
    rw [hget] at h
    exact absurd ((hn o bytes hget).2.lt _ h) (by decide)

/-- Between bounded sheets the objects and bytes within bounds stand for all others, once the flags
are ordered. -/
theorem Sheet.Bounded.trusts_of_bounded {k n : Sheet} {f g : Bool} (hk : k.Bounded)
    (hn : n.Bounded) (hflag : f = false → g = false)
    (h : ∀ o b, o.number < Ident.bound → b < UInt64.size → k.Trusts f o b → n.Trusts g o b)
    (o : ObjectId) (b : Nat) (hb : k.Trusts f o b) : n.Trusts g o b := by
  cases hko : k.listed.get? o with
  | some bytes =>
    obtain ⟨ho, hbytes⟩ := hk o bytes hko
    have hmem : b ∈ bytes := by simpa [Sheet.Trusts, hko] using hb
    exact h o b ho (Nat.lt_of_succ_lt (hbytes.lt b hmem)) hb
  | none =>
    have hf : f = false := by simpa [Sheet.Trusts, hko] using hb
    have hunlisted : n.listed.get? o = none := by
      cases hno : n.listed.get? o with
      | none => rfl
      | some bytes =>
        -- the last byte would be trusted by the first sheet and not by the second
        have hlast := h o (UInt64.size - 1) (hn o bytes hno).1 (by decide)
          (by simpa [Sheet.Trusts, hko] using hf)
        exact absurd hno (by simp [(hn.unlisted hlast).1])
    simpa [Sheet.Trusts, hunlisted] using hflag hf

namespace Snapshot

/-- All sheets are bounded. -/
def Bounded (s : Snapshot) : Prop := ∀ ℓ m, s.at? ℓ = some m → m.Bounded

variable {s t : Snapshot} {now : Stamp} {slot : Slot}

theorem Bounded.canonical (h : s.Bounded) : s.Canonical :=
  fun ℓ m hm o bytes hget => (h ℓ m hm o bytes hget).2.canonical

/-! ## The operations -/

theorem bounded_trusting : (trusting now).Bounded := by
  intro ℓ m hm
  cases ℓ with
  | shared =>
    cases hm
    exact Sheet.bounded_of_listed_eq_empty rfl
  | frame d => cases hm

theorem Bounded.copy (h : s.Bounded) : (s.copy now).Bounded := by
  intro ℓ m hm
  rw [at?_copy, Option.map_eq_some_iff] at hm
  obtain ⟨n, hn, rfl⟩ := hm
  exact h ℓ n hn

theorem Bounded.pushFrame (h : s.Bounded) (owner : ContextId) :
    (s.pushFrame now owner).Bounded := by
  intro ℓ m hm
  rw [at?_pushFrame] at hm
  split at hm
  · cases hm
    exact Sheet.bounded_of_listed_eq_empty rfl
  · exact h ℓ m hm

theorem Bounded.popFrame {owner : ContextId} (h : s.Bounded)
    (hpop : s.popFrame now = .ok (owner, t)) : t.Bounded := by
  obtain ⟨-, -, -, hat⟩ := popFrame_eq_ok hpop
  intro ℓ m hm
  rw [hat] at hm
  split at hm
  · cases hm
  · exact h ℓ m hm

theorem bounded_clobberAll : (s.clobberAll now).Bounded := by
  intro ℓ m hm
  rw [at?_clobberAll, Option.map_eq_some_iff] at hm
  obtain ⟨n, -, rfl⟩ := hm
  exact Sheet.bounded_of_listed_eq_empty (listed_clobber now n)

theorem Bounded.write {f : IdentMap .object ByteSet → IdentMap .object ByteSet} (h : s.Bounded)
    (hf : ∀ m : Sheet, m.Bounded → (m.write now f).Bounded) : (s.write now slot f).Bounded := by
  intro ℓ m hm
  rw [at?_write] at hm
  split at hm
  · obtain ⟨n, hn, rfl⟩ := Option.map_eq_some_iff.1 hm
    exact hf n (h ℓ n hn)
  · exact h ℓ m hm

theorem Bounded.modify {f : ByteSet → ByteSet} (h : s.Bounded)
    (hslot : slot.object.number < Ident.bound) (hf : ∀ bytes, bytes.Bounded → (f bytes).Bounded) :
    (s.modify now slot f).Bounded := by
  refine h.write fun m hm o bytes hget => ?_
  simp only [Sheet.write, IdentMap.get?_insert] at hget
  split at hget
  · next ho =>
    obtain rfl := Option.some.inj hget
    refine ⟨ho ▸ hslot, hf _ ?_⟩
    cases hold : m.listed.get? slot.object with
    | none => exact ByteSet.bounded_empty
    | some old => exact (hm _ old hold).2
  · exact hm o bytes hget

theorem Bounded.clobber (h : s.Bounded) (hslot : slot.object.number < Ident.bound) :
    (s.clobber now slot).Bounded := by
  unfold Snapshot.clobber
  split
  · split
    · refine h.write fun m hm o bytes hget => ?_
      simp only [Sheet.write, IdentMap.get?_erase] at hget
      split at hget
      · cases hget
      · exact hm o bytes hget
    · exact h
  · exact h.modify hslot fun _ _ => ByteSet.bounded_empty

/-- A meet lists an object only if one of its sheets does, with no more bytes. -/
theorem bounded_meetSheets (clobbered : Bool) {first : Sheet × Bool} {rest : List (Sheet × Bool)}
    (h : ∀ e ∈ first :: rest, e.1.Bounded) : (meetSheets now clobbered first rest).Bounded := by
  have hcanonical : ∀ e ∈ first :: rest, e.1.Canonical :=
    fun e he o bytes hget => (h e he o bytes hget).2.canonical
  unfold meetSheets
  split
  · exact h first List.mem_cons_self
  intro o bytes hget
  simp only [get?_foldl_listMeet, IdentSet.mem_toList, IdentSet.mem_ofList, IdentMap.get?_empty,
    Option.or_none, Option.ite_none_right_eq_some, List.mem_flatMap, IdentMap.mem_keys] at hget
  obtain ⟨⟨e, he, listed, hlisted⟩, hlisting⟩ := hget
  have hjoint : joint (first :: rest) o = .only bytes := by
    unfold listing? at hlisting
    split at hlisting
    · cases hlisting
    · next hjoint =>
      rw [hjoint]
      split at hlisting <;> cases hlisting
      rfl
  obtain ⟨ho, hbounded⟩ := h e he o listed hlisted
  refine ⟨ho, ?_, fun b hb => ?_⟩
  · have := joint_canonical (o := o) hcanonical
    rwa [hjoint] at this
  · have hhas : (joint (first :: rest) o).Has b := hjoint ▸ hb
    have htrusts := (joint_has hcanonical).1 hhas e he
    rw [Sheet.Trusts, hlisted] at htrusts
    exact hbounded.lt b htrusts

theorem bounded_meetAll {xs : List Snapshot} {m : Snapshot} (h : ∀ x ∈ xs, x.Bounded)
    (hm : meetAll now xs = .ok (some m)) : m.Bounded := by
  cases xs with
  | nil => cases hm
  | cons s ts =>
    obtain ⟨hs, hts⟩ := List.forall_mem_cons.1 h
    by_cases hnew : (ts.all fun t => t.isSame s) = true
    · rw [meetAll, if_pos hnew] at hm
      cases hm
      exact hs
    · have howners : ∀ t ∈ ts, t.owners = s.owners := by
        rw [meetAll, if_neg hnew] at hm
        split at hm
        · cases hm
        · next hlike => simpa [firstUnlike?] using hlike
      obtain ⟨m', hm', -, -, -, hlevels⟩ := meetAll_eq_new howners hnew now
      rw [hm'] at hm
      cases hm
      intro ℓ n hn
      rw [hlevels, Option.map_eq_some_iff] at hn
      obtain ⟨k, hk, rfl⟩ := hn
      refine bounded_meetSheets _ (List.forall_mem_cons.2 ⟨hs ℓ k hk, fun e he => ?_⟩)
      obtain ⟨t, ht, hat, -⟩ := mem_sheetsAt.1 he
      exact hts t ht ℓ _ hat

/-! ## Runs -/

/-- The operation names objects and positions within bounds. -/
def Op.Bounded (p : Program) : Op → Prop
  | .clobber _ slot => slot.object.number < Ident.bound
  | .edit _ slot edits => slot.object.number < Ident.bound ∧
      ∀ range, Edit.insert range ∈ edits → range.stop < UInt64.size
  | .vouch _ _ ptr _ _ => ∀ target ∈ ptr.listed, (p.slot target.object).object.number < Ident.bound
  | .transfer _ op _ _ => ∀ o ∈ Walk.touched op, (p.slot o).object.number < Ident.bound
  | _ => True

theorem persists_bounded {p : Program} {os : List ObjectId}
    (h : ∀ o ∈ os, (p.slot o).object.number < Ident.bound) : Walk.Persists Bounded p now os :=
  ⟨fun o ho _ hrange _ hx => hx.modify (h o ho) fun _ hbytes => hbytes.insert hrange,
    fun o ho _ hx => hx.clobber (h o ho), fun _ _ => bounded_clobberAll⟩

theorem Edit.bounded_foldl {edits : List Edit} {bytes : ByteSet} (hbytes : bytes.Bounded)
    (h : ∀ range, Edit.insert range ∈ edits → range.stop < UInt64.size) :
    (edits.foldl Edit.apply bytes).Bounded := by
  induction edits generalizing bytes with
  | nil => exact hbytes
  | cons e edits ih =>
    have hrest := fun range hrange => h range (List.mem_cons_of_mem e hrange)
    cases e with
    | insert range => exact ih (hbytes.insert (h range List.mem_cons_self)) hrest
    | clear => exact ih ByteSet.bounded_empty hrest

variable {p : Program} {settings : Settings} {m : Machine} {op : Op} {x y : Snapshot}

/-- What an operation puts into a register is bounded, if what was in the registers is. -/
theorem Op.outcome_bounded (hm : ∀ r, ∀ x ∈ m.registers r, x.Bounded) (hop : op.Bounded p)
    (h : op.outcome p settings m = .ok (some x)) : x.Bounded := by
  have hmap {r : Nat} {g : Snapshot → Snapshot} (hx : (m.registers r).map g = some x)
      (hg : ∀ y, y.Bounded → (g y).Bounded) : x.Bounded := by
    obtain ⟨y, hy, rfl⟩ := Option.map_eq_some_iff.1 hx
    exact hg y (hm r y hy)
  cases op with
  | trusting r =>
    cases h
    exact bounded_trusting
  | clone r source => exact hm source x (Except.ok.inj h)
  | copy r source => exact hmap (Except.ok.inj h) fun _ hy => hy.copy
  | pushFrame r owner => exact hmap (Except.ok.inj h) fun _ hy => hy.pushFrame owner
  | popFrame r =>
    simp only [outcome] at h
    split at h
    · cases h
    · next y hy =>
      cases hpop : y.popFrame m.clock with
      | error f =>
        rw [hpop] at h
        cases h
      | ok e =>
        rw [hpop] at h
        cases h
        exact (hm r y hy).popFrame hpop
  | clobberAll r => exact hmap (Except.ok.inj h) fun _ _ => bounded_clobberAll
  | clobber r slot => exact hmap (Except.ok.inj h) fun _ hy => hy.clobber hop
  | edit r slot edits =>
    exact hmap (Except.ok.inj h) fun _ hy =>
      hy.modify hop.1 fun _ hbytes => Edit.bounded_foldl hbytes hop.2
  | vouch r suppressed ptr offset len =>
    refine hmap (Except.ok.inj h) fun _ hy => ?_
    exact (persists_bounded (List.forall_mem_map.2 hop)).vouchUnless hy
      (fun _ => List.mem_map_of_mem) suppressed offset len
  | transfer r op need suppressed =>
    exact hmap (Except.ok.inj h) fun _ hy => (persists_bounded hop).transfer hy need suppressed
  | meet r sources =>
    simp only [outcome] at h
    split at h
    · cases h
    · next xs hxs =>
      refine bounded_meetAll (fun y hy => ?_) h
      obtain ⟨r', -, hr'⟩ := mem_of_mapM hxs y hy
      exact hm r' y hr'

theorem Machine.step_bounded (hm : ∀ r, ∀ x ∈ m.registers r, x.Bounded) (hop : op.Bounded p) :
    ∀ r, ∀ x ∈ (m.step p settings op).registers r, x.Bounded := by
  unfold Machine.step
  split
  · exact hm
  · next y hy =>
    intro r x hx
    dsimp only at hx
    split at hx
    · cases hx
      exact Op.outcome_bounded hm hop hy
    · exact hm r x hx
  · exact hm

/-- Whatever bounded operations make is bounded. -/
theorem Machine.run_bounded {ops : List Op} (hops : ∀ op ∈ ops, op.Bounded p) :
    ∀ r, ∀ x ∈ (Machine.run p settings ops).registers r, x.Bounded := by
  have hfold : ∀ m : Machine, (∀ r, ∀ x ∈ m.registers r, x.Bounded) →
      ∀ r, ∀ x ∈ (ops.foldl (Machine.step p settings) m).registers r, x.Bounded := by
    induction ops with
    | nil => exact fun m hm => hm
    | cons op ops ih =>
      obtain ⟨hop, hops⟩ := List.forall_mem_cons.1 hops
      exact fun m hm => ih hops (m.step p settings op) (Machine.step_bounded hm hop)
  exact hfold {} fun r x hx => by cases hx

/-! ## The comparison -/

theorem Level.Within.exists_position {ℓ : Level} {cs : List ContextId} (h : ℓ.Within cs) :
    ∃ pos : Position, pos.level cs.length = ℓ := by
  cases ℓ with
  | shared => exact ⟨.shared, rfl⟩
  | frame d =>
    have hd : d < cs.length := h
    refine ⟨.frame (cs.length - 1 - d), ?_⟩
    rw [Position.level, if_pos (by omega)]
    congr 1
    omega

/-- Where some object is on neither of two sheets at one position, the comparison of the snapshots
is decided by the objects and bytes within bounds. -/
theorem isBelow_exact (p : Program) (settings : Settings) {ops : List Op}
    (hops : ∀ op ∈ ops, op.Bounded p) {r q : Nat}
    (hx : (Machine.run p settings ops).registers r = some x)
    (hy : (Machine.run p settings ops).registers q = some y)
    (hfree : ∃ pos k n o, x.sheet? pos = some k ∧ y.sheet? pos = some n ∧
      o.number < Ident.bound ∧ k.listed.get? o = none ∧ n.listed.get? o = none) :
    x.isBelow y = true ↔ x.owners = y.owners ∧
      ∀ pos o b, o.number < Ident.bound → b < UInt64.size → x.Trusts pos o b →
        y.Trusts pos o b := by
  have hbx : x.Bounded := Machine.run_bounded hops r x hx
  have hby : y.Bounded := Machine.run_bounded hops q y hy
  rw [isBelow_iff hbx.canonical hby.canonical]
  constructor
  · rintro ⟨howners, hbelow⟩
    refine ⟨howners, fun pos o b _ _ hb => ?_⟩
    rw [trusts_iff_trustsAt] at hb ⊢
    exact howners ▸ hbelow _ o b hb
  · rintro ⟨howners, hbelow⟩
    refine ⟨howners, ?_⟩
    have hflag : x.othersClobbered = false → y.othersClobbered = false := by
      intro hxflag
      obtain ⟨pos, k, n, o, hk, hn, ho, hko, hno⟩ := hfree
      obtain ⟨n', hn', htrusts⟩ := hbelow pos o 0 ho (by decide)
        ⟨k, hk, by simpa [Sheet.Trusts, hko] using hxflag⟩
      rw [hn] at hn'
      cases hn'
      simpa [Sheet.Trusts, hno] using htrusts
    rintro ℓ o b ⟨k, hk, hb⟩
    obtain ⟨n, hn⟩ := exists_at?_of_owners howners.symm hk
    refine ⟨n, hn, (hbx ℓ k hk).trusts_of_bounded (hby ℓ n hn) hflag ?_ o b hb⟩
    intro o b ho hlt hb
    obtain ⟨pos, rfl⟩ := (exists_at?_iff.1 ⟨k, hk⟩).exists_position
    obtain ⟨n', hn', htrusts⟩ := hbelow pos o b ho hlt (trusts_iff_trustsAt.2 ⟨k, hk, hb⟩)
    rw [sheet?_eq_at?, ← howners, hn] at hn'
    cases hn'
    exact htrusts

/-- A snapshot with one frame, and a second one with an object of that frame listed with all bytes
but the last one. -/
def allButLast : List Op :=
  [.trusting 0, .pushFrame 0 ⟨1⟩, .clone 1 0,
    .edit 1 (.frame ⟨1⟩ ⟨5⟩) [.insert ⟨0, UInt64.size - 1⟩]]

/-- Only the last byte tells the two snapshots apart. -/
theorem isBelow_exact_allButLast : ∃ x y,
    (Machine.run noProgram {} allButLast).registers 0 = some x ∧
    (Machine.run noProgram {} allButLast).registers 1 = some y ∧
    y.isBelow x = true ∧ x.isBelow y = false ∧
    (∀ pos o b, o.number < Ident.bound → b < UInt64.size → y.Trusts pos o b → x.Trusts pos o b) ∧
    ¬ ∀ pos o b, o.number < Ident.bound → b < UInt64.size → x.Trusts pos o b →
      y.Trusts pos o b := by
  have hops : ∀ op ∈ allButLast, op.Bounded noProgram := by
    simp [allButLast, Op.Bounded, Slot.object, Ident.bound, UInt32.size, UInt64.size]
  refine ⟨_, _, rfl, rfl, by decide +kernel, by decide +kernel, ?_, fun hall => ?_⟩
  · exact ((isBelow_exact noProgram {} (r := 1) (q := 0) hops rfl rfl
      ⟨.shared, _, _, ⟨0⟩, rfl, rfl, by decide, rfl, rfl⟩).1 (by decide +kernel)).2
  · have hbelow := (isBelow_exact noProgram {} (r := 0) (q := 1) hops rfl rfl
      ⟨.shared, _, _, ⟨0⟩, rfl, rfl, by decide, rfl, rfl⟩).2 ⟨rfl, hall⟩
    exact absurd hbelow (by decide +kernel)

end Snapshot

end ByteTrust
