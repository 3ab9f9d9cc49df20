import ByteTrust.Program.Basic

/-!
# Writes, and what overwrites them

A write with a unique destination is followed byte by byte: the bytes that later writes have
replaced on a path are kept as a `ByteSet` of positions counted from the start of the write.
Writes of unknown or great size are not followed in this way.
-/

namespace ByteTrust.DeadStore

/-- A write that may be dead. -/
structure Write where
  inst : InstId
  target : Pointer
  size : Option Nat
  kind : ObjectKind
deriving DecidableEq

/-- The destination and size of the write that an operation does, if the destination is unique. An
allocation counts as a write of unknown size to the whole object. -/
def destination? : Operation → Option (Pointer × Option Nat)
  | .store ptr size => ptr.unique?.map fun p => (p, some size)
  | .memset dest len => dest.unique?.map fun p => (p, len)
  | .memcpy dest _ len _ => dest.unique?.map fun p => (p, len)
  | .readFile dest size => dest.unique?.map fun p => (p, size)
  | .alloc object => some (⟨object, 0⟩, none)
  | _ => none

/-- Allocations of these kinds can be dropped. -/
def isDroppable : ObjectKind → Bool
  | .stack _ | .heap => true
  | _ => false

/-- The write of an instruction, if it can be followed. -/
def Write.ofInstr? (p : Program) (i : Instr) : Option Write := do
  let (target, size) ← destination? i.op
  let object ← p.objects.get? target.object
  match i.op with
  | .alloc _ => if isDroppable object.kind then return ⟨i.id, target, size, object.kind⟩ else none
  | _ => return ⟨i.id, target, size, object.kind⟩

/-! ## Overwritten bytes -/

/-- Writes of more bytes than this are not followed byte by byte. -/
def trackedLimit : Nat := 1 <<< 20

/-- The bytes of a write that were overwritten on a path, counted from its start; nothing for a
write that is not followed byte by byte. -/
abbrev Overwritten := Option ByteSet

/-- Nothing is overwritten yet. -/
def Write.fresh (w : Write) : Overwritten :=
  match w.size with
  | some size => if size ≤ trackedLimit then some ∅ else none
  | none => none

/-- The bytes of `w` that `len` bytes at `ptr` fall on. -/
def Write.overlap (w : Write) (size : Nat) (ptr : Pointer) (len : Nat) : ByteRange :=
  ⟨(ptr.offset - w.target.offset).toNat,
    (min (ptr.offset + len - w.target.offset) size).toNat⟩

/-- All bytes of a write of `size` bytes are overwritten. -/
def isComplete (size : Nat) (bytes : ByteSet) : Bool := bytes.covers ⟨0, size⟩

/-- A later write of `len` bytes to `dest`: the bytes overwritten with it, and whether the write
is overwritten altogether by now. -/
def Write.overwrite (w : Write) (dest : PointerValue) (len : Nat) (bits : Overwritten) :
    Overwritten × Bool :=
  match bits, w.size, dest.unique? with
  | some bytes, some size, some ptr =>
    if ptr.object = w.target.object then
      let bytes := bytes.insert (w.overlap size ptr len)
      (some bytes, isComplete size bytes)
    else (bits, false)
  | _, _, _ => (bits, false)

/-- Wherever `b` goes on, so does `a`: no more bytes are overwritten in `a` than in `b`. -/
def isCoveredBy : Overwritten → Overwritten → Bool
  | some a, some b => a.subset b
  | none, none => true
  | _, _ => false

/-! ## Readers -/

/-- The ranges of `aLen` bytes at `a` and of `bLen` bytes at `b` may share a byte. Unknown lengths
run on without end, and offsets before the object may be anywhere. -/
def mayOverlap (a : Int) (aLen : Option Nat) (b : Int) (bLen : Option Nat) : Bool :=
  if aLen = some 0 ∨ bLen = some 0 then false
  else if a < 0 ∨ b < 0 then true
  else (bLen.all fun len => a < b + len) && aLen.all fun len => b < a + len

/-- `len` bytes at `ptr` may hold a byte of the write. -/
def Write.mayAlias (w : Write) (ptr : PointerValue) (len : Option Nat) : Bool :=
  match ptr with
  | .unknown => true
  | .null => false
  | .targets ps => ps.any fun p =>
      p.object = w.target.object && mayOverlap p.offset len w.target.offset w.size

end ByteTrust.DeadStore
