import ByteTrust.Proofs.Interference.Transfer
import ByteTrust.Proofs.Snapshot.History

/-!
# A check is needed just where an untrusted byte is read

A read is decided target by target and piece by piece, each time by a search among the ranges that
are listed for an object, or by a flag where the object is not listed. The outcome is told by single
bytes: a plain load or a copy needs a check if and only if a byte whose value it takes for known is
not trusted (`need_eq_must_iff`). This asks that nothing is read before the start of an object, that
no known piece is empty, and that offsets stay in their range, where sums of offsets are exact. A
read that goes beyond the greatest word is stale wherever its object is listed, and rightly so, as
listed ranges end at words (`Snapshot.InWords`).
-/

namespace ByteTrust

open Snapshot

variable {s : Snapshot} {slot : Slot} {b : Nat}

/-- The ends of the listed ranges are unsigned numbers of 64 bits. -/
def Sheet.InWords (m : Sheet) : Prop :=
  ∀ e ∈ m.listed.entries, ∀ range ∈ e.2.ranges, range.stop < UInt64.size

instance (m : Sheet) : Decidable m.InWords :=
  inferInstanceAs (Decidable (∀ e ∈ m.listed.entries, ∀ range ∈ e.2.ranges, _))

namespace Snapshot

/-- Byte `b` of the slot is trusted. -/
def TrustsSlot (s : Snapshot) (slot : Slot) (b : Nat) : Prop :=
  (s.sheetOf slot).Trusts s.othersClobbered slot.object b

theorem trustsSlot_iff :
    s.TrustsSlot slot b ↔ s.TrustsAt (slot.level s.owners) slot.object b :=
  (trustsAt_iff (sheetOf_eq s slot)).symm

/-- The listed ranges of every sheet are in words. -/
def InWords (s : Snapshot) : Prop := s.shared.InWords ∧ ∀ f ∈ s.frames, f.sheet.InWords

instance : Decidable s.InWords := inferInstanceAs (Decidable (_ ∧ _))

theorem InWords.sheetOf (h : s.InWords) (slot : Slot) : (s.sheetOf slot).InWords := by
  cases slot with
  | shared o => exact h.1
  | frame owner o =>
    unfold Snapshot.sheetOf
    dsimp only
    split
    · next f hf => exact h.2 f (List.mem_of_find?_eq_some hf)
    · exact h.1

theorem InWords.lt_size {bytes : ByteSet} (h : s.InWords) (hbytes : s.bytes? slot = some bytes)
    (hb : b ∈ bytes) : b + 1 < UInt64.size := by
  obtain ⟨range, hrange, -, hlt⟩ := hb
  have hstop := h.sheetOf slot _ (IdentMap.mem_entries.2 hbytes) range hrange
  omega

end Snapshot

/-! ## The bytes that are read -/

/-- The piece has a known value, and byte `b` is one of its bytes in a read from `base`. -/
structure ValuePiece.Covers (piece : ValuePiece) (base : Pointer) (b : Nat) : Prop where
  known : piece.value.isSome = true
  start_le : base.offset + piece.start ≤ b
  lt_stop : b < base.offset + piece.stop

/-- Byte `b` is read from `base` on as one of `size` bytes, and its value is known. -/
def ReadValue.Covers (size : Nat) (base : Pointer) (b : Nat) : ReadValue → Prop
  | .unknown => False
  | .known _ => base.offset ≤ b ∧ b < base.offset + size
  | .pieces ps => ∃ piece ∈ ps, piece.Covers base b

/-- The pieces of a result. -/
def ReadValue.pieceList : ReadValue → List ValuePiece
  | .pieces ps => ps
  | _ => []

/-- A copy from `src` of a number of bytes that is known and not zero reads byte `b` of an object,
in a piece with a known value. -/
def CopyReads (src : PointerValue) (len : Option Nat) (copied : List ValuePiece) (o : ObjectId)
    (b : Nat) : Prop :=
  ∃ n target, len = some n ∧ 0 < n ∧ src.unique? = some target ∧ target.object = o ∧
    ∃ piece ∈ copied, piece.Covers target b

/-- The operation reads byte `b` of an object, and takes its value for known. -/
def Operation.Reads (o : ObjectId) (b : Nat) : Operation → Prop
  | .load ptr size _ result =>
    ∃ target ∈ ptr.listed, target.object = o ∧ result.Covers size target b
  | .memcpy _ src len copied => CopyReads src len copied o b
  | .realloc _ source len copied => CopyReads source len copied o b
  | _ => False

/-- A read from `base` starts in the object, and each known piece has bytes and starts at an
offset. -/
structure Pointer.Fits (base : Pointer) (pieces : List ValuePiece) : Prop where
  nonneg : 0 ≤ base.offset
  nonempty : ∀ piece ∈ pieces, piece.value.isSome = true → piece.start < piece.stop
  le_greatest : ∀ piece ∈ pieces, piece.value.isSome = true →
    base.offset + piece.start ≤ Offset.greatest

/-- A plain load or a copy all of whose reads fit. -/
inductive Operation.Fits : Operation → Prop
  | load {ptr : PointerValue} {size : Nat} {result : ReadValue} (hsize : 0 < size)
      (htargets : ∀ target ∈ ptr.listed, target.Fits result.pieceList) :
      Fits (.load ptr size .plain result)
  | memcpy {dest src : PointerValue} {len : Option Nat} {copied : List ValuePiece}
      (htarget : ∀ target, src.unique? = some target → target.Fits copied) :
      Fits (.memcpy dest src len copied)
  | realloc {object : ObjectId} {source : PointerValue} {len : Option Nat}
      {copied : List ValuePiece}
      (htarget : ∀ target, source.unique? = some target → target.Fits copied) :
      Fits (.realloc object source len copied)

namespace Program

variable {p : Program} {settings : Settings} {base ptr : Pointer} {size : Nat}
  {pieces : List ValuePiece}

/-! ## One range of bytes -/

/-- A range of bytes is stale if it has a byte that is not trusted. -/
theorem isStale_iff (hs : s.Canonical) (hwords : s.InWords) (hoffset : 0 ≤ ptr.offset)
    (hsize : 0 < size) :
    p.isStale s ptr size = true ↔ p.isConstant ptr.object = false ∧
      ∃ b : Nat, ptr.offset ≤ b ∧ b < ptr.offset + size ∧
        ¬ s.TrustsSlot (p.slot ptr.object) b := by
  unfold isStale
  split
  · next hconst => simp [hconst]
  next hconst =>
  simp only [Bool.eq_false_iff.2 hconst, true_and, trustsSlot_iff]
  obtain ⟨n, hn⟩ := Int.eq_ofNat_of_zero_le hoffset
  rw [hn]
  cases hbytes : s.bytes? (p.slot ptr.object) with
  | none =>
    simp only [trustsAt_of_unlisted hbytes, Bool.not_eq_false]
    constructor
    · intro hflag
      exact ⟨n, by omega, by omega, hflag⟩
    · rintro ⟨b, -, -, hflag⟩
      exact hflag
  | some bytes =>
    simp only [trustsAt_of_bytes? hbytes]
    unfold Pointer.bytes?
    rw [hn]
    by_cases hend : n + size < UInt64.size
    · simp only [Int.toNat_natCast, hend, and_true, Int.natCast_nonneg, if_true, Bool.not_eq_true',
        Bool.eq_false_iff, ne_eq, (hs.bytes? hbytes).covers_iff, not_forall]
      constructor
      · rintro ⟨b, hrange, hb⟩
        simp only [ByteRange.mem_def] at hrange
        exact ⟨b, by omega, by omega, hb⟩
      · rintro ⟨b, hlow, hhigh, hb⟩
        refine ⟨b, ?_, hb⟩
        simp only [ByteRange.mem_def]
        omega
    · -- the last byte lies beyond every listed range
      simp only [Int.toNat_natCast, hend, and_false, if_false, true_iff]
      refine ⟨n + size - 1, by omega, by omega, fun hb => ?_⟩
      have hlast := hwords.lt_size hbytes hb
      omega

/-! ## Pieces -/

/-- Where a piece fits, it starts at the sum of the offsets. -/
theorem pointer_of_fits {piece : ValuePiece} (hoffset : 0 ≤ base.offset)
    (hfits : base.offset + piece.start ≤ Offset.greatest) :
    piece.pointer base = ⟨base.object, base.offset + piece.start⟩ := by
  unfold ValuePiece.pointer Pointer.shift Offset.clamp
  simp only [Offset.greatest, Offset.least, Pointer.mk.injEq, true_and] at hfits ⊢
  omega

/-- The pieces of a read are stale if a byte of a known piece is not trusted. -/
theorem anyStale_iff (hs : s.Canonical) (hwords : s.InWords) (hbase : base.Fits pieces) :
    p.anyStale s base pieces = true ↔ p.isConstant base.object = false ∧
      ∃ piece ∈ pieces, ∃ b, piece.Covers base b ∧ ¬ s.TrustsSlot (p.slot base.object) b := by
  have hpiece {piece : ValuePiece} (hmem : piece ∈ pieces) (hvalue : piece.value.isSome = true) :
      p.isStale s (piece.pointer base) piece.length = true ↔ p.isConstant base.object = false ∧
        ∃ b, piece.Covers base b ∧ ¬ s.TrustsSlot (p.slot base.object) b := by
    have hnonneg := hbase.nonneg
    have hlength := hbase.nonempty piece hmem hvalue
    rw [pointer_of_fits hnonneg (hbase.le_greatest piece hmem hvalue), isStale_iff hs hwords
      (by dsimp only; omega) (by unfold ValuePiece.length; omega)]
    refine and_congr_right fun _ => exists_congr fun b => ?_
    rw [← and_assoc]
    refine and_congr_left fun _ => ⟨fun hb => ⟨hvalue, hb.1, ?_⟩, fun hb => ⟨hb.start_le, ?_⟩⟩
    · have hstop := hb.2
      simp only [ValuePiece.length] at hstop
      omega
    · have hstop := hb.lt_stop
      simp only [ValuePiece.length]
      omega
  simp only [anyStale, List.any_eq_true, Bool.and_eq_true]
  constructor
  · rintro ⟨piece, hmem, hvalue, hstale⟩
    obtain ⟨hconst, hb⟩ := (hpiece hmem hvalue).1 hstale
    exact ⟨hconst, piece, hmem, hb⟩
  · rintro ⟨hconst, piece, hmem, b, hb, htrusts⟩
    exact ⟨piece, hmem, hb.known, (hpiece hmem hb.known).2 ⟨hconst, b, hb, htrusts⟩⟩

/-! ## Whole operations -/

theorem needFrom_eq_must_iff (hs : s.Canonical) (hwords : s.InWords) {result : ReadValue}
    (hknown : result ≠ .unknown) (hsize : 0 < size) (hbase : base.Fits result.pieceList) :
    p.needFrom s size result base = .must ↔ p.isConstant base.object = false ∧
      ∃ b, result.Covers size base b ∧ ¬ s.TrustsSlot (p.slot base.object) b := by
  unfold needFrom
  split
  · next hconst => simp [hconst]
  cases result with
  | unknown => exact absurd rfl hknown
  | known v =>
    simp only [Need.ofBool_eq_must, isStale_iff hs hwords hbase.nonneg hsize, ReadValue.Covers,
      and_assoc]
  | pieces ps =>
    have hpieces : base.Fits ps := hbase
    simp only [Need.ofBool_eq_must, anyStale_iff hs hwords hpieces, ReadValue.Covers]
    refine and_congr_right fun _ => ⟨?_, ?_⟩
    · rintro ⟨piece, hmem, b, hb, htrusts⟩
      exact ⟨b, ⟨piece, hmem, hb⟩, htrusts⟩
    · rintro ⟨b, ⟨piece, hmem, hb⟩, htrusts⟩
      exact ⟨piece, hmem, b, hb, htrusts⟩

theorem needOfCopy_eq_must_iff (hs : s.Canonical) (hwords : s.InWords) {src : PointerValue}
    {len : Option Nat} {copied : List ValuePiece}
    (hfits : ∀ target, src.unique? = some target → target.Fits copied) :
    p.needOfCopy s src len copied = .must ↔ ∃ o b, CopyReads src len copied o b ∧
      p.isConstant o = false ∧ ¬ s.TrustsSlot (p.slot o) b := by
  unfold needOfCopy
  split
  · next n target htarget =>
    split
    · next hnone =>
      refine iff_of_false (by decide) ?_
      rintro ⟨o, b, ⟨n', target', hlen, hpos, -, -, piece, hmem, -⟩, -⟩
      cases hlen
      rcases hnone with rfl | hempty
      · exact absurd hpos (Nat.lt_irrefl 0)
      · rw [List.isEmpty_iff.1 hempty] at hmem
        cases hmem
    · next hsome =>
      rw [Need.ofBool_eq_must, anyStale_iff hs hwords (hfits target htarget)]
      constructor
      · rintro ⟨hconst, piece, hmem, b, hb, htrusts⟩
        have hpos : 0 < n := Nat.pos_of_ne_zero fun hn => hsome (.inl hn)
        exact ⟨target.object, b, ⟨n, target, rfl, hpos, htarget, rfl, piece, hmem, hb⟩, hconst,
          htrusts⟩
      · rintro ⟨o, b, ⟨n', target', -, -, htarget', rfl, piece, hmem, hb⟩, hconst, htrusts⟩
        obtain rfl := Option.some.inj (htarget.symm.trans htarget')
        exact ⟨hconst, piece, hmem, b, hb, htrusts⟩
  · next hnone =>
    refine iff_of_false (by decide) ?_
    rintro ⟨o, b, ⟨n, target, hlen, -, htarget, -⟩, -⟩
    exact hnone n target hlen htarget

/-- A result without a known value covers no byte. -/
theorem not_covers_of_isWhollyUnknown {result : ReadValue} {b : Nat}
    (h : result.isWhollyUnknown = true) : ¬ result.Covers size base b := by
  cases result with
  | unknown => exact not_false
  | known v => cases h
  | pieces ps =>
    rintro ⟨piece, hmem, hb⟩
    have hnone := List.all_eq_true.1 h piece hmem
    rw [Option.isNone_iff_eq_none] at hnone
    have hsome := hb.known
    rw [hnone] at hsome
    cases hsome

/-- A plain load or a copy needs a check if and only if it reads a byte of an object, other than a
constant, that is not trusted in the slot of the object. -/
theorem need_eq_must_iff (hthreads : settings.singleThreaded = false) {now : Stamp}
    {H : List Snapshot} (hH : History now H) (hs : s ∈ H) (hwords : s.InWords) {op : Operation}
    (hop : op.Fits) :
    p.need settings s op = .must ↔
      ∃ o b, op.Reads o b ∧ p.isConstant o = false ∧ ¬ s.TrustsSlot (p.slot o) b := by
  have hcanonical : s.Canonical := hH.coherent.1.canonical s hs
  unfold need
  rw [if_neg (by simp [hthreads])]
  cases hop with
  | @load ptr size result hsize htargets =>
    simp only [Operation.Reads]
    by_cases hunknown : result.isWhollyUnknown = true
    · rw [if_pos hunknown]
      refine iff_of_false (by decide) ?_
      rintro ⟨o, b, ⟨target, -, -, hb⟩, -⟩
      exact not_covers_of_isWhollyUnknown hunknown hb
    have hknown : result ≠ .unknown := by
      rintro rfl
      exact hunknown rfl
    rw [if_neg hunknown, if_neg (by decide), Need.foldl_max_eq_must, List.mem_map]
    constructor
    · rintro (hnever | ⟨target, htarget, hmust⟩)
      · cases hnever
      obtain ⟨hconst, b, hb, htrusts⟩ :=
        (needFrom_eq_must_iff hcanonical hwords hknown hsize (htargets target htarget)).1 hmust
      exact ⟨target.object, b, ⟨target, htarget, rfl, hb⟩, hconst, htrusts⟩
    · rintro ⟨o, b, ⟨target, htarget, rfl, hb⟩, hconst, htrusts⟩
      exact .inr ⟨target, htarget,
        (needFrom_eq_must_iff hcanonical hwords hknown hsize (htargets target htarget)).2
          ⟨hconst, b, hb, htrusts⟩⟩
  | memcpy htarget => exact needOfCopy_eq_must_iff hcanonical hwords htarget
  | realloc htarget => exact needOfCopy_eq_must_iff hcanonical hwords htarget

/-- A load of two pieces with two targets: of the second object the last two bytes that it reads
are not trusted. -/
theorem need_eq_must_iff_pieces :
    let p : Program := { objects := ∅, contexts := ∅, root := ⟨0⟩ }
    let s := (((Snapshot.trusting 0).clobberAll 0).modify 0 (.shared ⟨0⟩) (·.insert ⟨0, 6⟩)).modify
      0 (.shared ⟨1⟩) (·.insert ⟨0, 8⟩)
    let op := Operation.load (.targets [⟨⟨0⟩, 0⟩, ⟨⟨1⟩, 4⟩]) 6 .plain
      (.pieces [⟨0, 2, some (.scalar 1)⟩, ⟨4, 6, some (.scalar 2)⟩])
    p.need {} s op = .must ∧
      ∃ o b, op.Reads o b ∧ p.isConstant o = false ∧ ¬ s.TrustsSlot (p.slot o) b := by
  intro p s op
  have hmakes : Makes 0 [] s :=
    .modify (.modify (.clobberAll .trusting) _ fun _ h => h.insert _) _ fun _ h => h.insert _
  have hfits : op.Fits := by
    refine .load (by decide) fun target htarget => ?_
    have htarget : target = ⟨⟨0⟩, 0⟩ ∨ target = ⟨⟨1⟩, 4⟩ := by
      simpa [PointerValue.listed] using htarget
    rcases htarget with rfl | rfl <;> exact ⟨by decide, by decide, by decide⟩
  have hmust : p.need {} s op = .must := by decide +kernel
  exact ⟨hmust, (need_eq_must_iff rfl (.next (.start 0) hmakes) List.mem_cons_self
    (by decide +kernel) hfits).1 hmust⟩

end Program

end ByteTrust
