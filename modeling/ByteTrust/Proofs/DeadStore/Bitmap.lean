import ByteTrust.DeadStore.Search
import ByteTrust.Proofs.ByteSet

/-!
# Overwritten bytes, one bit for each

A search keeps the overwritten bytes of a write as a set of positions. The set is exact, whatever
later writes come one after the other and however far off they are: a position is in it exactly if
one of them has a unique target in the object of the write and falls on that byte
(`overwritten_exact`).

The same can be computed with one bit for each byte, in machine numbers. Then a sum may not be a
number of the machine, and a slice may reach beyond the bitmap; `Write.mark?` has no result in these
cases. For offsets and lengths of 64 bits they do not occur, and the bitmap shows the set
(`Write.mark?_bitmap`). Likewise for the ends of the ranges that a read is compared by
(`mayOverlap?_eq`).
-/

namespace ByteTrust

/-- A signed number of 64 bits. -/
def Offset.InRange (i : Int) : Prop := least ≤ i ∧ i ≤ greatest

instance (i : Int) : Decidable (Offset.InRange i) := inferInstanceAs (Decidable (_ ∧ _))

namespace DeadStore

/-! ## Later writes -/

/-- A write of `len` bytes to `dest`. -/
structure LaterWrite where
  dest : PointerValue
  len : Nat

/-- Its targets have offsets of 64 bits, and its length is a number of 64 bits too. -/
def LaterWrite.InRange (l : LaterWrite) : Prop :=
  (∀ p ∈ l.dest.listed, Offset.InRange p.offset) ∧ l.len < UInt64.size

instance (l : LaterWrite) : Decidable l.InRange := inferInstanceAs (Decidable (_ ∧ _))

/-- A later write has a unique target, in the object of `w`. -/
def Write.Meets (w : Write) (l : LaterWrite) : Prop :=
  ∃ p, l.dest.unique? = some p ∧ p.object = w.target.object

/-- A later write with a unique target in the object of `w` falls on the byte of `w` at `k`. -/
def Write.Loses (w : Write) (l : LaterWrite) (k : Nat) : Prop :=
  ∃ p, l.dest.unique? = some p ∧ p.object = w.target.object ∧
    p.offset ≤ w.target.offset + k ∧ w.target.offset + k < p.offset + l.len

/-- The overwritten bytes after later writes, and whether the last of these was found to complete
them. -/
def Write.after (w : Write) (later : List LaterWrite) : Overwritten × Bool :=
  later.foldl (fun state l => w.overwrite l.dest l.len state.1) (w.fresh, false)

variable {w : Write} {l : LaterWrite} {size k : Nat} {bytes : ByteSet} {p : Pointer}

theorem mem_listed_of_unique? {dest : PointerValue} (h : dest.unique? = some p) :
    p ∈ dest.listed := by
  cases dest with
  | unknown => cases h
  | null => cases h
  | targets ps =>
    unfold PointerValue.unique? at h
    split at h
    · next heq =>
      cases heq
      cases h
      exact List.mem_singleton_self p
    · cases h

/-- The positions that a later write falls on, told in numbers without bounds. -/
theorem Write.mem_overlap {len : Nat} :
    k ∈ w.overlap size p len ↔
      k < size ∧ p.offset ≤ w.target.offset + k ∧ w.target.offset + k < p.offset + len := by
  simp only [Write.overlap, ByteRange.mem_def]
  omega

theorem isComplete_iff (hcan : bytes.Canonical) :
    isComplete size bytes = true ↔ ∀ k, k < size → k ∈ bytes := by
  rw [isComplete, hcan.covers_iff]
  simp only [ByteRange.mem_def, Nat.zero_le, true_and]

/-- A later write in the object of `w` adds the bytes that it falls on. -/
theorem Write.overwrite_of_target {dest : PointerValue} {len : Nat} (hsize : w.size = some size)
    (hp : dest.unique? = some p) (hobject : p.object = w.target.object) :
    w.overwrite dest len (some bytes) = (some (bytes.insert (w.overlap size p len)),
      isComplete size (bytes.insert (w.overlap size p len))) := by
  simp only [overwrite, hsize, hp, if_pos hobject]

/-- Any other later write changes nothing. -/
theorem Write.overwrite_of_not_meets (h : ¬ w.Meets l) (bits : Overwritten) :
    w.overwrite l.dest l.len bits = (bits, false) := by
  unfold Write.overwrite
  split
  · next hp => exact if_neg fun hobject => h ⟨_, hp, hobject⟩
  · rfl

theorem visitWrite_eq_stop_iff {dest : PointerValue} {len : Nat} {bits : Overwritten} :
    visitWrite w dest len bits = .stop ↔ (w.overwrite dest len bits).2 = true := by
  unfold visitWrite
  split
  · next h => simp [h]
  · next h => simp [h]

/-! ## Bitmaps -/

/-- The greatest signed number of 128 bits. -/
def greatestWide : Int := 0x7fffffffffffffffffffffffffffffff

/-- The number itself, if it is a signed number of 128 bits. -/
def wide? (i : Int) : Option Int :=
  if -greatestWide - 1 ≤ i ∧ i ≤ greatestWide then some i else none

/-- Set the bits from `lo` to before `hi`, if there are any. There is no result unless they are bits
of the bitmap. -/
def fill? (bits : List Bool) (lo hi : Int) : Option (List Bool) :=
  if lo < hi then
    if 0 ≤ lo ∧ hi ≤ bits.length then
      some (bits.mapIdx fun k bit => bit || (lo ≤ k && k < hi))
    else none
  else some bits

/-- Where `len` bytes at `p` start and end in a bitmap for `w`, cut off at its ends. -/
def Write.slice? (w : Write) (size : Nat) (p : Pointer) (len : Nat) : Option (Int × Int) := do
  let first ← wide? (p.offset - w.target.offset)
  let sum ← wide? (p.offset + len)
  let beyond ← wide? (sum - w.target.offset)
  return (max first 0, min beyond size)

/-- A later write, on a bitmap: the bits after it, and whether all of them are set by now. -/
def Write.mark? (w : Write) (bits : List Bool) (l : LaterWrite) : Option (List Bool × Bool) :=
  match l.dest.unique? with
  | none => some (bits, false)
  | some p =>
    if p.object = w.target.object then do
      let slice ← w.slice? bits.length p l.len
      let bits ← fill? bits slice.1 slice.2
      return (bits, bits.all id)
    else some (bits, false)

/-- Later writes one after the other, on a bitmap. -/
def Write.markAll? (w : Write) (later : List LaterWrite) (state : List Bool × Bool) :
    Option (List Bool × Bool) :=
  later.foldlM (fun state l => w.mark? state.1 l) state

/-- The set as a bitmap of `size` bits. -/
def bitmap (size : Nat) (bytes : ByteSet) : List Bool :=
  (List.range size).map fun k => decide (k ∈ bytes)

@[simp] theorem length_bitmap (size : Nat) (bytes : ByteSet) :
    (bitmap size bytes).length = size := by
  simp [bitmap]

theorem bitmap_empty (size : Nat) : bitmap size ∅ = List.replicate size false := by
  simp [bitmap, List.map_const']

theorem all_bitmap : (bitmap size bytes).all id = true ↔ ∀ k, k < size → k ∈ bytes := by
  simp [bitmap]

theorem bitmap_congr {bytes' : ByteSet} (h : ∀ k, k < size → (k ∈ bytes ↔ k ∈ bytes')) :
    bitmap size bytes = bitmap size bytes' := by
  apply List.map_congr_left
  intro k hk
  simp only [h k (List.mem_range.1 hk)]

theorem all_bitmap_eq_isComplete (hcan : bytes.Canonical) :
    (bitmap size bytes).all id = isComplete size bytes := by
  rw [Bool.eq_iff_iff, all_bitmap, isComplete_iff hcan]

/-- Bits that are set are bytes that are inserted. -/
theorem fill?_bitmap {lo hi : Int} (hcan : bytes.Canonical) (hlo : 0 ≤ lo) (hhi : hi ≤ size) :
    fill? (bitmap size bytes) lo hi = some (bitmap size (bytes.insert ⟨lo.toNat, hi.toNat⟩)) := by
  unfold fill?
  split
  · rw [if_pos ⟨hlo, by simpa using hhi⟩, Option.some.injEq]
    apply List.ext_getElem
    · simp
    · intro k _ _
      simp only [bitmap, List.getElem_mapIdx, List.getElem_map, List.getElem_range,
        ← Bool.decide_and, ← Bool.decide_or, hcan.mem_insert, ByteRange.mem_def]
      apply decide_eq_decide.2
      apply or_congr_right
      omega
  · next hle =>
    -- a slice that ends before it starts, also before the bitmap, is a range without bytes
    rw [Option.some.injEq]
    apply bitmap_congr
    intro k _
    simp only [hcan.mem_insert, ByteRange.mem_def]
    apply (or_iff_left _).symm
    omega

/-! ## Machine numbers are enough -/

/-- Numbers of 64 bits can be added without leaving the numbers of 128 bits. -/
theorem wide?_eq_some {i : Int} (h₁ : -0x40000000000000000 ≤ i) (h₂ : i ≤ 0x40000000000000000) :
    wide? i = some i := by
  rw [wide?, if_pos]
  simp only [greatestWide]
  omega

theorem Write.slice?_eq_some {len : Nat} (hbase : Offset.InRange w.target.offset)
    (hp : Offset.InRange p.offset) (hlen : len < UInt64.size) (size : Nat) :
    w.slice? size p len =
      some (max (p.offset - w.target.offset) 0, min (p.offset + len - w.target.offset) size) := by
  simp only [Offset.InRange, Offset.least, Offset.greatest, UInt64.size] at hbase hp hlen
  have hfirst : wide? (p.offset - w.target.offset) = some (p.offset - w.target.offset) :=
    wide?_eq_some (by omega) (by omega)
  have hsum : wide? (p.offset + len) = some (p.offset + len) :=
    wide?_eq_some (by omega) (by omega)
  have hbeyond : wide? (p.offset + len - w.target.offset) =
      some (p.offset + len - w.target.offset) := wide?_eq_some (by omega) (by omega)
  simp only [Write.slice?, hfirst, hsum, hbeyond, Option.bind_eq_bind, Option.bind_some,
    Option.pure_def]

/-- The bits of the slice are the bytes that a later write falls on. -/
theorem Write.toNat_slice {len : Nat} :
    (⟨(max (p.offset - w.target.offset) 0).toNat,
      (min (p.offset + len - w.target.offset) size).toNat⟩ : ByteRange) =
        w.overlap size p len := by
  simp only [Write.overlap, ByteRange.mk.injEq, and_true]
  omega

theorem Write.mark?_of_not_meets (h : ¬ w.Meets l) (bits : List Bool) :
    w.mark? bits l = some (bits, false) := by
  unfold Write.mark?
  split
  · rfl
  · next hp => exact if_neg fun hobject => h ⟨_, hp, hobject⟩

/-- **A bitmap shows the set.** A later write with numbers of 64 bits has a result on the bitmap of
a set: the bitmap of the set after it, complete at the same time. -/
theorem Write.mark?_bitmap {bytes' : ByteSet} {complete : Bool} (hsize : w.size = some size)
    (hbase : Offset.InRange w.target.offset) (hl : l.InRange) (hcan : bytes.Canonical)
    (h : w.overwrite l.dest l.len (some bytes) = (some bytes', complete)) :
    w.mark? (bitmap size bytes) l = some (bitmap size bytes', complete) := by
  by_cases hmeets : w.Meets l
  · obtain ⟨p, hp, hobject⟩ := hmeets
    rw [overwrite_of_target hsize hp hobject] at h
    cases h
    have hslice := slice?_eq_some hbase (hl.1 p (mem_listed_of_unique? hp)) hl.2 size
    have hfill : fill? (bitmap size bytes) (max (p.offset - w.target.offset) 0)
        (min (p.offset + l.len - w.target.offset) size) =
          some (bitmap size (bytes.insert (w.overlap size p l.len))) := by
      rw [fill?_bitmap hcan (by omega) (by omega), toNat_slice]
    simp only [Write.mark?, hp, if_pos hobject, length_bitmap, hslice, Option.bind_eq_bind,
      Option.bind_some, hfill, all_bitmap_eq_isComplete (hcan.insert _), Option.pure_def]
  · rw [overwrite_of_not_meets hmeets] at h
    cases h
    exact mark?_of_not_meets hmeets _

/-! ## Later writes one after the other -/

/-- What is kept after later writes: the set is exact, and found to be complete if the last of them
met the object of `w` when no byte was left. -/
structure Tracks (w : Write) (size : Nat) (later : List LaterWrite) (bytes : ByteSet)
    (complete : Bool) : Prop where
  canonical : bytes.Canonical
  mem_iff : ∀ k, k ∈ bytes ↔ k < size ∧ ∃ l ∈ later, w.Loses l k
  complete_iff : complete = true ↔
    (∃ last, later.getLast? = some last ∧ w.Meets last) ∧ ∀ k, k < size → k ∈ bytes

theorem tracks_nil (w : Write) (size : Nat) : Tracks w size [] ∅ false where
  canonical := ByteSet.canonical_empty
  mem_iff k := by simp
  complete_iff := by simp

variable {later before : List LaterWrite} {complete : Bool}

/-- One more later write is taken into account. -/
theorem Tracks.step (h : Tracks w size before bytes complete) (hsize : w.size = some size)
    (l : LaterWrite) : ∃ bytes' complete',
      w.overwrite l.dest l.len (some bytes) = (some bytes', complete') ∧
        Tracks w size (before ++ [l]) bytes' complete' := by
  by_cases hmeets : w.Meets l
  · obtain ⟨p, hp, hobject⟩ := hmeets
    have hcan := h.canonical.insert (w.overlap size p l.len)
    refine ⟨_, _, Write.overwrite_of_target hsize hp hobject, hcan, fun k => ?_, ?_⟩
    · have hloses : w.Loses l k ↔
          p.offset ≤ w.target.offset + k ∧ w.target.offset + k < p.offset + l.len := by
        simp [Write.Loses, hp, hobject]
      rw [h.canonical.mem_insert, h.mem_iff, Write.mem_overlap, ← hloses, ← and_or_left]
      simp only [List.mem_append, List.mem_singleton, or_and_right, exists_or, exists_eq_left]
    · rw [isComplete_iff hcan]
      simp [Write.Meets, hp, hobject]
  · have hloses : ∀ k, ¬ w.Loses l k := by
      rintro k ⟨p, hp, hobject, -⟩
      exact hmeets ⟨p, hp, hobject⟩
    refine ⟨_, _, Write.overwrite_of_not_meets hmeets _, h.canonical, fun k => ?_, ?_⟩
    · rw [h.mem_iff]
      simp [or_and_right, exists_or, hloses]
    · simp [hmeets]

/-- A whole list of later writes is taken into account, and the bitmap goes along with the set. -/
theorem Tracks.run (h : Tracks w size before bytes complete) (hsize : w.size = some size)
    (hbase : Offset.InRange w.target.offset) (hlater : ∀ l ∈ later, l.InRange) :
    ∃ bytes' complete',
      later.foldl (fun state l => w.overwrite l.dest l.len state.1) (some bytes, complete) =
        (some bytes', complete') ∧
      w.markAll? later (bitmap size bytes, complete) = some (bitmap size bytes', complete') ∧
      Tracks w size (before ++ later) bytes' complete' := by
  -- step by step, a write goes over from those to come to those that are taken into account
  induction later generalizing before bytes complete with
  | nil =>
    rw [List.append_nil]
    exact ⟨bytes, complete, rfl, rfl, h⟩
  | cons l later ih =>
    obtain ⟨hl, hlater⟩ := List.forall_mem_cons.1 hlater
    obtain ⟨bytes₁, complete₁, hover, h₁⟩ := h.step hsize l
    have hmark := Write.mark?_bitmap hsize hbase hl h.canonical hover
    obtain ⟨bytes₂, complete₂, hfold, hmarks, h₂⟩ := ih h₁ hlater
    rw [List.append_assoc] at h₂
    refine ⟨bytes₂, complete₂, ?_, ?_, h₂⟩
    · rw [List.foldl_cons, hover, hfold]
    · rw [← hmarks]
      simp only [Write.markAll?, List.foldlM_cons, hmark, Option.bind_eq_bind, Option.bind_some]

theorem Write.fresh_of_le (hsize : w.size = some size) (hlimit : size ≤ trackedLimit) :
    w.fresh = some ∅ := by
  simp only [Write.fresh, hsize, if_pos hlimit]

/-! ## Reads -/

/-- Where `len` bytes from `start` on end; the greatest number stands for an unknown length. -/
def end? (start : Int) : Option Nat → Option Int
  | some len => wide? (start + len)
  | none => some greatestWide

/-- `mayOverlap` in machine numbers. -/
def mayOverlap? (a : Int) (aLen : Option Nat) (b : Int) (bLen : Option Nat) : Option Bool :=
  if aLen = some 0 ∨ bLen = some 0 then some false
  else if a < 0 ∨ b < 0 then some true
  else do
    let bEnd ← end? b bLen
    let aEnd ← end? a aLen
    return a < bEnd && b < aEnd

/-- The end is a number of the machine, and offsets are compared with it as they should. -/
theorem end?_spec {start : Int} {len : Option Nat} (hstart : Offset.InRange start)
    (hlen : ∀ n ∈ len, n < UInt64.size) :
    ∃ e, end? start len = some e ∧ ∀ i, Offset.InRange i →
      decide (i < e) = len.all fun n => i < start + n := by
  simp only [Offset.InRange, Offset.least, Offset.greatest] at *
  cases len with
  | none =>
    refine ⟨greatestWide, rfl, fun i hi => ?_⟩
    apply decide_eq_true
    simp only [greatestWide]
    omega
  | some n =>
    have hn := hlen n rfl
    simp only [UInt64.size] at hn
    refine ⟨start + n, wide?_eq_some (by omega) (by omega), fun i _ => ?_⟩
    simp

theorem mayOverlap?_eq {a b : Int} {aLen bLen : Option Nat} (ha : Offset.InRange a)
    (hb : Offset.InRange b) (haLen : ∀ n ∈ aLen, n < UInt64.size)
    (hbLen : ∀ n ∈ bLen, n < UInt64.size) :
    mayOverlap? a aLen b bLen = some (mayOverlap a aLen b bLen) := by
  obtain ⟨bEnd, hbEnd, hlt⟩ := end?_spec hb hbLen
  obtain ⟨aEnd, haEnd, hlt'⟩ := end?_spec ha haLen
  unfold mayOverlap? mayOverlap
  split
  · rfl
  · split
    · rfl
    · simp only [hbEnd, haEnd, Option.bind_eq_bind, Option.bind_some, hlt a ha, hlt' b hb,
        Option.pure_def]

/-- From the start of the object on, ranges of known length may overlap exactly if they share a
byte. -/
theorem mayOverlap_iff {a b : Int} {m n : Nat} (ha : 0 ≤ a) (hb : 0 ≤ b) :
    mayOverlap a (some m) b (some n) = true ↔
      ∃ i, (a ≤ i ∧ i < a + m) ∧ b ≤ i ∧ i < b + n := by
  unfold mayOverlap
  split
  · next hzero =>
    simp only [Option.some.injEq] at hzero
    refine iff_of_false Bool.false_ne_true ?_
    rintro ⟨i, hi⟩
    omega
  · next hpos =>
    simp only [Option.some.injEq] at hpos
    rw [if_neg (by omega)]
    simp only [Option.pure_def, Option.bind_eq_bind, Option.bind_some, Option.all_some,
      Bool.and_eq_true, decide_eq_true_eq]
    constructor
    · intro h
      refine ⟨max a b, ?_⟩
      omega
    · rintro ⟨i, hi⟩
      omega

/-! ## Exactness -/

/-- **Overwritten bytes and aliases are exact at every magnitude.** After any later writes, the
overwritten bytes of a write that is followed byte by byte are those that one of them falls on, and
the last of them ends the path exactly if it meets the object and no byte is left. On a bitmap every
slice lies within its ends and no sum overflows, with the same result. And ranges of a read and of
the write are compared without overflow; those that start within the object are found to overlap
exactly if they share a byte. -/
theorem overwritten_exact (w : Write) (hsize : w.size = some size) (hlimit : size ≤ trackedLimit)
    (hbase : Offset.InRange w.target.offset) (later : List LaterWrite)
    (hlater : ∀ l ∈ later, l.InRange) :
    (∃ bytes complete, w.after later = (some bytes, complete) ∧
      w.markAll? later (List.replicate size false, false) =
        some (bitmap size bytes, complete) ∧
      (∀ k, k ∈ bytes ↔ k < size ∧ ∃ l ∈ later, w.Loses l k) ∧
      (complete = true ↔ (∃ last, later.getLast? = some last ∧ w.Meets last) ∧
        ∀ k, k < size → ∃ l ∈ later, w.Loses l k) ∧
      ∀ before last, later = before ++ [last] →
        (visitWrite w last.dest last.len (w.after before).1 = .stop ↔ complete = true)) ∧
    ∀ a aLen b bLen, Offset.InRange a → Offset.InRange b → (∀ n ∈ aLen, n < UInt64.size) →
      (∀ n ∈ bLen, n < UInt64.size) →
      mayOverlap? a aLen b bLen = some (mayOverlap a aLen b bLen) ∧
      ∀ m n, 0 ≤ a → 0 ≤ b → aLen = some m → bLen = some n →
        (mayOverlap a aLen b bLen = true ↔ ∃ i, (a ≤ i ∧ i < a + m) ∧ b ≤ i ∧ i < b + n) := by
  constructor
  · obtain ⟨bytes, complete, hfold, hmarks, h⟩ := (tracks_nil w size).run hsize hbase hlater
    have hafter : w.after later = (some bytes, complete) := by
      rw [Write.after, Write.fresh_of_le hsize hlimit, hfold]
    rw [bitmap_empty] at hmarks
    refine ⟨bytes, complete, hafter, hmarks, h.mem_iff, ?_, ?_⟩
    · have hall : (∀ k, k < size → k ∈ bytes) ↔ ∀ k, k < size → ∃ l ∈ later, w.Loses l k :=
        forall₂_congr fun k hk => by simp [h.mem_iff, hk]
      rw [h.complete_iff, hall, List.nil_append]
    · rintro before last rfl
      rw [visitWrite_eq_stop_iff]
      simp only [Write.after, List.foldl_append, List.foldl_cons, List.foldl_nil] at hafter ⊢
      rw [hafter]
  · intro a aLen b bLen ha hb haLen hbLen
    refine ⟨mayOverlap?_eq ha hb haLen hbLen, ?_⟩
    rintro m n ha₀ hb₀ rfl rfl
    exact mayOverlap_iff ha₀ hb₀

/-- A write of two bytes, of which only the first one has an offset of 64 bits. -/
def atTheEdge : Write := ⟨⟨0⟩, ⟨⟨0⟩, Offset.greatest⟩, some 2, .heap⟩

/-- Writes of the greatest length: the first one ends just before the bytes at the edge, the last
one on the first of them. -/
def reaching : List LaterWrite :=
  [⟨.single ⟨0⟩ Offset.least, 0xffffffffffffffff⟩, ⟨.unknown, 2⟩,
    ⟨.single ⟨1⟩ Offset.greatest, 2⟩, ⟨.single ⟨0⟩ (Offset.least + 1), 0xffffffffffffffff⟩]

/-- One byte is left after the writes that reach the edge; another write there ends the path. -/
theorem overwritten_exact_edge :
    let last : LaterWrite := ⟨.single ⟨0⟩ Offset.greatest, 2⟩
    (∀ k, k ∈ (⟨[⟨0, 1⟩]⟩ : ByteSet) ↔ k < 2 ∧ ∃ l ∈ reaching, atTheEdge.Loses l k) ∧
    atTheEdge.markAll? reaching ([false, false], false) = some ([true, false], false) ∧
    visitWrite atTheEdge last.dest last.len (atTheEdge.after reaching).1 = .stop ∧
    ¬ ∃ i, (Offset.greatest - 1 ≤ i ∧ i < Offset.greatest - 1 + 1) ∧
      Offset.greatest ≤ i ∧ i < Offset.greatest + 0xffffffffffffffff := by
  intro last
  have hafter : atTheEdge.after reaching = (some ⟨[⟨0, 1⟩]⟩, false) := by decide +kernel
  obtain ⟨⟨bytes, complete, hbytes, hmarks, hmem, -, -⟩, hreads⟩ :=
    overwritten_exact atTheEdge rfl (by decide) (by decide) reaching (by decide)
  obtain ⟨⟨bytes', complete', hbytes', -, -, -, hstop⟩, -⟩ :=
    overwritten_exact atTheEdge rfl (by decide) (by decide) (reaching ++ [last]) (by decide)
  rw [hafter] at hbytes
  cases hbytes
  refine ⟨hmem, hmarks, ?_, ?_⟩
  · rw [hstop reaching last rfl]
    have hall : atTheEdge.after (reaching ++ [last]) = (some ⟨[⟨0, 2⟩]⟩, true) := by
      decide +kernel
    rw [hall] at hbytes'
    cases hbytes'
    rfl
  · have hread := (hreads (Offset.greatest - 1) (some 1) Offset.greatest
      (some 0xffffffffffffffff) (by decide) (by decide) (by decide) (by decide)).2 1
      0xffffffffffffffff (by decide) (by decide) rfl rfl
    intro h
    exact absurd (hread.2 h) (by decide)

end DeadStore

end ByteTrust
