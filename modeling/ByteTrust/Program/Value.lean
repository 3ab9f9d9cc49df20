import ByteTrust.ByteSet
import ByteTrust.Ident.Basic

/-!
# Speculated values

Pointers and read results as the specialisation guessed them. Offsets are signed numbers of 64
bits and lengths are unsigned ones; sums of offsets stop at the ends of their range.
-/

namespace ByteTrust

/-! ## Pointers -/

namespace Offset

/-- The least offset. -/
def least : Int := -0x8000000000000000

/-- The greatest offset. -/
def greatest : Int := 0x7fffffffffffffff

/-- The offset nearest to `i`. -/
def clamp (i : Int) : Int := max least (min greatest i)

end Offset

/-- A byte position in an object. -/
structure Pointer where
  object : ObjectId
  offset : Int
deriving DecidableEq, Repr

namespace Pointer

/-- Move a pointer, stopping at the least and the greatest offset. -/
def shift (p : Pointer) (delta : Int) : Pointer := ⟨p.object, Offset.clamp (p.offset + delta)⟩

/-- The `len` bytes from `p` on. There are none to name when they start before the object, or
end beyond the greatest unsigned number of 64 bits. -/
def bytes? (p : Pointer) (len : Nat) : Option ByteRange :=
  if 0 ≤ p.offset ∧ p.offset.toNat + len < UInt64.size then
    some ⟨p.offset.toNat, p.offset.toNat + len⟩
  else none

end Pointer

/-- The speculated value of a pointer operand. -/
inductive PointerValue
  | unknown
  | null
  /-- One of the listed targets. -/
  | targets (ps : List Pointer)
deriving DecidableEq, Repr

namespace PointerValue

/-- A pointer to one known place. -/
def single (object : ObjectId) (offset : Int) : PointerValue := .targets [⟨object, offset⟩]

/-- The target, if there is exactly one. -/
def unique? : PointerValue → Option Pointer
  | .targets [p] => some p
  | _ => none

/-- The listed targets. -/
def listed : PointerValue → List Pointer
  | .targets ps => ps
  | _ => []

end PointerValue

/-! ## Read results -/

/-- A single speculated value. -/
inductive SpecValue
  | scalar (n : Nat)
  | pointer (p : Pointer)
  | descriptor (object : ObjectId)
deriving DecidableEq, Repr

/-- The object that a value names. -/
def SpecValue.object? : SpecValue → Option ObjectId
  | .scalar _ => none
  | .pointer p => some p.object
  | .descriptor o => some o

/-- The bytes from `start` to before `stop` of a read, counted from where it reads, with their
value if it is known. -/
structure ValuePiece where
  start : Nat
  stop : Nat
  value : Option SpecValue
deriving DecidableEq, Repr

/-- The number of bytes of a piece. -/
def ValuePiece.length (p : ValuePiece) : Nat := p.stop - p.start

/-- The speculated result of a read or a call. -/
inductive ReadValue
  | unknown
  | known (v : SpecValue)
  /-- A result whose bytes are guessed piece by piece. -/
  | pieces (ps : List ValuePiece)
deriving DecidableEq, Repr

namespace ReadValue

/-- No byte has a known value. -/
def isWhollyUnknown : ReadValue → Bool
  | .unknown => true
  | .known _ => false
  | .pieces ps => ps.all fun p => p.value.isNone

/-- There is a value, and every listed piece has one. -/
def isFullyKnown : ReadValue → Bool
  | .unknown => false
  | .known _ => true
  | .pieces ps => !ps.isEmpty && ps.all fun p => p.value.isSome

/-- The known values, in order. -/
def values : ReadValue → List SpecValue
  | .unknown => []
  | .known v => [v]
  | .pieces ps => ps.filterMap ValuePiece.value

end ReadValue

end ByteTrust
