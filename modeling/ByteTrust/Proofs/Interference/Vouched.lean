import ByteTrust.Proofs.Interference.Transfer
import ByteTrust.Proofs.Snapshot.History

/-!
# The bytes that are vouched for

What is asked for is a number of bytes at some offset from a pointer. Where they start is a sum of
two offsets, and sums of offsets stop at the greatest offset. A start before the object and an end
beyond the greatest word are refused, and then nothing becomes trusted; a start beyond the greatest
offset is not refused. So the bytes that become trusted are those from the sum or from the greatest
offset on, whichever comes first (`vouched_bytes`). As long as the sum is an offset they are the
bytes asked for, and beyond that they are others (`vouched_beyond_greatest`).
-/

namespace ByteTrust

open Snapshot

/-! ## The positions of slots -/

/-- The position at which a slot is listed when the frames have these owners, innermost first. -/
def Slot.position (slot : Slot) (cs : List ContextId) : Position :=
  match slot with
  | .shared _ => .shared
  | .frame owner _ =>
    match cs.findIdx? fun c => c = owner with
    | some i => .frame i
    | none => .shared

/-- Counted from the inside, a slot is listed where it is listed counted from the outside. -/
theorem Slot.level_position (slot : Slot) (cs : List ContextId) :
    (slot.position cs).level cs.length = slot.level cs := by
  cases slot with
  | shared o => simp [position, Position.level, level]
  | frame owner o =>
    induction cs with
    | nil => rfl
    | cons c cs ih =>
      simp only [position, List.findIdx?_cons, level] at ih ⊢
      by_cases hc : c = owner
      · simp [hc, Position.level]
      · simp only [hc, decide_false, Bool.false_eq_true, if_false]
        rw [← ih]
        cases hi : cs.findIdx? fun c => c = owner with
        | none => rfl
        | some i =>
          have hlt : i < cs.length := (List.findIdx?_eq_some_iff_findIdx_eq.1 hi).1
          simp only [Option.map_some, Position.level, List.length_cons, hlt, if_true,
            Nat.add_lt_add_iff_right]
          congr 1
          omega

theorem Slot.lt_of_position {slot : Slot} {cs : List ContextId} {i : Nat}
    (h : slot.position cs = .frame i) : i < cs.length := by
  unfold position at h
  split at h
  · cases h
  · split at h
    · next hi =>
      cases h
      exact (List.findIdx?_eq_some_iff_findIdx_eq.1 hi).1
    · cases h

/-- A slot is listed at one position only. -/
theorem Slot.level_eq_iff {slot : Slot} {cs : List ContextId} {pos : Position} :
    pos.level cs.length = slot.level cs ↔ pos = slot.position cs := by
  rw [← level_position]
  constructor
  · intro h
    cases hslot : slot.position cs with
    | shared =>
      rw [hslot] at h
      cases pos with
      | shared => rfl
      | frame i => by_cases hi : i < cs.length <;> simp [Position.level, hi] at h
    | frame j =>
      have hj := lt_of_position hslot
      rw [hslot] at h
      cases pos with
      | shared => simp [Position.level, hj] at h
      | frame i =>
        simp only [Position.level, hj, if_true] at h
        split at h <;> simp only [Level.frame.injEq] at h
        · rw [Position.frame.injEq]
          omega
        · omega
  · rintro rfl
    rfl

/-! ## Sums of offsets -/

/-- Where a pointer comes to when it is moved. It does not get beyond the greatest offset. -/
def Pointer.reach (target : Pointer) (offset : Int) : Int :=
  min (target.offset + offset) Offset.greatest

/-- The bytes at an offset from a pointer start where the pointer comes to, unless this is before
the object, or they end beyond the greatest word. -/
theorem Pointer.bytes?_shift (target : Pointer) (offset : Int) (len : Nat) :
    (target.shift offset).bytes? len =
      if 0 ≤ target.reach offset ∧ target.reach offset + len < UInt64.size then
        some ⟨(target.reach offset).toNat, (target.reach offset).toNat + len⟩
      else none := by
  have hclamp : 0 ≤ target.reach offset →
      (target.shift offset).offset = target.reach offset := by
    intro h
    simp only [shift, reach, Offset.clamp, Offset.least, Offset.greatest] at h ⊢
    omega
  have hneg : target.reach offset < 0 → (target.shift offset).offset < 0 := by
    intro h
    simp only [shift, reach, Offset.clamp, Offset.least, Offset.greatest] at h ⊢
    omega
  unfold bytes?
  by_cases h : 0 ≤ target.reach offset
  · rw [hclamp h]
    congr 1
    simp only [h, true_and, eq_iff_iff]
    omega
  · rw [if_neg (by omega), if_neg (by omega)]

theorem mem_range_toNat {start : Int} (hstart : 0 ≤ start) {len b : Nat} :
    b ∈ (⟨start.toNat, start.toNat + len⟩ : ByteRange) ↔ start ≤ b ∧ b < start + len := by
  rw [ByteRange.mem_def]
  dsimp only
  omega

/-! ## The bytes of a request -/

/-- Byte `b` of object `o` at a position is one of the `len` bytes from `start` on in the object
that `target` points to, where the frames have the owners `cs`. -/
structure Program.Spans (p : Program) (cs : List ContextId) (target : Pointer) (start : Int)
    (len : Nat) (pos : Position) (o : ObjectId) (b : Nat) : Prop where
  position : pos = (p.slot target.object).position cs
  object : o = (p.slot target.object).object
  start_le : start ≤ b
  lt_stop : b < start + len

namespace Program

variable {p : Program} {ptr : PointerValue} {offset : Int} {len : Nat}

theorem mem_vouched {e : Slot × ByteRange} :
    e ∈ p.vouched ptr offset len ↔
      ∃ target, ptr.unique? = some target ∧ p.isConstant target.object = false ∧
        (0 ≤ target.reach offset ∧ target.reach offset + len < UInt64.size) ∧
        e = (p.slot target.object,
          ⟨(target.reach offset).toNat, (target.reach offset).toNat + len⟩) := by
  unfold vouched
  cases ptr.unique? with
  | none => simp
  | some target =>
    simp only [Option.some.injEq, exists_eq_left', Pointer.bytes?_shift]
    cases p.isConstant target.object with
    | true => simp
    | false =>
      by_cases hfits : 0 ≤ target.reach offset ∧ target.reach offset + len < UInt64.size
      · rw [if_pos hfits]
        simp only [hfits, Bool.false_eq_true, if_false, List.mem_singleton, and_self, true_and]
      · rw [if_neg hfits]
        simp only [hfits, Bool.false_eq_true, if_false, List.not_mem_nil, false_and, and_false]

/-- The bytes that become trusted, where the frames have the owners `cs`. -/
theorem vouchedUnless_gives {cs : List ContextId} {suppressed : Bool} {pos : Position}
    {o : ObjectId} {b : Nat} :
    (Effect.vouch (p.vouchedUnless suppressed ptr offset len)).Gives cs (pos.level cs.length) o b ↔
      suppressed = false ∧ ∃ target, ptr.unique? = some target ∧
        p.isConstant target.object = false ∧ 0 ≤ target.reach offset ∧
        target.reach offset + len < UInt64.size ∧
        p.Spans cs target (target.reach offset) len pos o b := by
  cases suppressed with
  | true => simp [vouchedUnless, Effect.Gives]
  | false =>
    simp only [vouchedUnless, Bool.false_eq_true, if_false, true_and, Effect.Gives, mem_vouched]
    constructor
    · rintro ⟨e, ⟨target, htarget, hconst, ⟨hstart, hstop⟩, rfl⟩, hℓ, ho, hb⟩
      obtain ⟨hle, hlt⟩ := (mem_range_toNat hstart).1 hb
      exact ⟨target, htarget, hconst, hstart, hstop, Slot.level_eq_iff.1 hℓ, ho, hle, hlt⟩
    · rintro ⟨target, htarget, hconst, hstart, hstop, hpos, ho, hle, hlt⟩
      exact ⟨_, ⟨target, htarget, hconst, ⟨hstart, hstop⟩, rfl⟩, Slot.level_eq_iff.2 hpos, ho,
        (mem_range_toNat hstart).2 ⟨hle, hlt⟩⟩

/-- Vouching for bytes keeps all trust, and outside of suppressed contexts it gives trust to the
bytes from where the unique target of the pointer comes to, unless the target is in a constant, or
they start before the object or end beyond the greatest word. If the sum of the offsets is an
offset, then a byte that becomes trusted is one of those asked for: `len` bytes from the sum on, in
unbounded numbers. -/
theorem vouched_bytes {now : Stamp} {H : List Snapshot} {s : Snapshot} (hH : History now H)
    (hs : s ∈ H) (p : Program) (suppressed : Bool) (ptr : PointerValue) (offset : Int) (len : Nat)
    (later : Stamp) :
    (∀ pos o b, (p.vouchUnless suppressed later ptr offset len s).Trusts pos o b ↔
      s.Trusts pos o b ∨ suppressed = false ∧ ∃ target, ptr.unique? = some target ∧
        p.isConstant target.object = false ∧ 0 ≤ target.reach offset ∧
        target.reach offset + len < UInt64.size ∧
        p.Spans s.owners target (target.reach offset) len pos o b) ∧
    ((∀ target, ptr.unique? = some target → target.offset + offset ≤ Offset.greatest) →
      ∀ pos o b, (p.vouchUnless suppressed later ptr offset len s).Trusts pos o b →
        s.Trusts pos o b ∨ ∃ target, ptr.unique? = some target ∧
          p.Spans s.owners target (target.offset + offset) len pos o b) := by
  have hcanonical : s.Canonical := hH.coherent.1.canonical s hs
  have heffect : HasEffect s.owners (fun now s => p.vouchUnless suppressed now ptr offset len s)
      (.vouch (p.vouchedUnless suppressed ptr offset len)) :=
    vouchUnless_hasEffect suppressed ptr offset len
  have howners := heffect.owners later s hcanonical rfl
  have hexact (pos : Position) (o : ObjectId) (b : Nat) :
      (p.vouchUnless suppressed later ptr offset len s).Trusts pos o b ↔
        s.Trusts pos o b ∨ suppressed = false ∧ ∃ target, ptr.unique? = some target ∧
          p.isConstant target.object = false ∧ 0 ≤ target.reach offset ∧
          target.reach offset + len < UInt64.size ∧
          p.Spans s.owners target (target.reach offset) len pos o b := by
    rw [trusts_iff_trustsAt, howners, heffect.trusts later s hcanonical rfl, vouchedUnless_gives,
      trusts_iff_trustsAt, or_comm]
    simp only [Effect.Takes, not_false_eq_true, and_true]
  refine ⟨hexact, fun hsum pos o b hb => ?_⟩
  refine ((hexact pos o b).1 hb).imp_right ?_
  rintro ⟨-, target, htarget, -, -, -, hspans⟩
  have hreach : target.reach offset = target.offset + offset := min_eq_left (hsum target htarget)
  exact ⟨target, htarget, hreach ▸ hspans⟩

/-- Bytes that start at the greatest offset and end at the greatest word: the last one becomes
trusted, and the one before the first does not. -/
theorem vouched_bytes_greatest :
    let p : Program := { objects := ∅, contexts := ∅, root := ⟨0⟩ }
    let s := (Snapshot.trusting 0).clobberAll 0
    let after := p.vouchUnless false 1 (.single ⟨0⟩ (Offset.greatest - 3)) 3 0x8000000000000000 s
    after.Trusts .shared ⟨0⟩ 0xfffffffffffffffe ∧ ¬ after.Trusts .shared ⟨0⟩ 0x7ffffffffffffffe := by
  intro p s after
  have hH : History 1 [s] := .next (.start 0) (.clobberAll .trusting)
  have hold (b : Nat) : ¬ s.Trusts .shared ⟨0⟩ b := by
    rw [trusts_iff_trustsAt]
    exact not_trustsAt_clobberAll
  obtain ⟨hexact, hasked⟩ := vouched_bytes hH List.mem_cons_self p false
    (.single ⟨0⟩ (Offset.greatest - 3)) 3 0x8000000000000000 1
  refine ⟨(hexact _ _ _).2 (.inr ⟨rfl, _, rfl, rfl, by decide, by decide, rfl, rfl, by decide,
    by decide⟩), fun hb => ?_⟩
  have hsum : ∀ target, (PointerValue.single ⟨0⟩ (Offset.greatest - 3)).unique? = some target →
      target.offset + 3 ≤ Offset.greatest := by
    rintro _ ⟨⟩
    decide
  rcases hasked hsum _ _ _ hb with hb | ⟨target, htarget, hspans⟩
  · exact hold _ hb
  · cases htarget
    exact absurd hspans.start_le (by decide)

/-- The sum of the offsets is beyond the greatest offset: a byte becomes trusted that comes before
all bytes asked for. -/
theorem vouched_beyond_greatest :
    let p : Program := { objects := ∅, contexts := ∅, root := ⟨0⟩ }
    let s := (Snapshot.trusting 0).clobberAll 0
    let ptr := PointerValue.single ⟨0⟩ Offset.greatest
    let b := Offset.greatest.toNat
    History 1 [s] ∧ ¬ s.Trusts .shared ⟨0⟩ b ∧
      (p.vouchUnless false 1 ptr Offset.greatest 2 s).Trusts .shared ⟨0⟩ b ∧
      ∀ target, ptr.unique? = some target → ¬ target.offset + Offset.greatest ≤ b := by
  intro p s ptr b
  refine ⟨.next (.start 0) (.clobberAll .trusting), ?_, ⟨_, rfl, ?_⟩, ?_⟩
  · rw [trusts_iff_trustsAt]
    exact not_trustsAt_clobberAll
  · exact (by decide : b ∈ ByteSet.ofRange ⟨b, b + 2⟩)
  · rintro _ ⟨⟩
    decide

end Program

end ByteTrust
