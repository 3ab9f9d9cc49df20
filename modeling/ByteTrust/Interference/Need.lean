import ByteTrust.Program.Basic
import ByteTrust.Settings
import ByteTrust.Snapshot.Basic

/-!
# Which reads need a check

A read whose speculated value is used has to be checked at run time when one of the bytes it reads
is not trusted: another thread may have changed it.
-/

namespace ByteTrust

/-- Whether a read needs a run-time check, from the weakest to the strongest answer. -/
inductive Need
  /-- The read has no value to check, or its bytes belong to one thread. -/
  | never
  /-- All bytes are trusted. -/
  | safe
  /-- Some byte is not trusted. -/
  | must
deriving DecidableEq, Repr

namespace Need

/-- The stronger of two answers. -/
def max : Need → Need → Need
  | .must, _ => .must
  | _, .must => .must
  | .safe, _ => .safe
  | _, .safe => .safe
  | .never, .never => .never

/-- A check is needed exactly if `b`. -/
def ofBool (b : Bool) : Need := if b then .must else .safe

end Need

/-- Where a piece of a read from `base` starts. -/
def ValuePiece.pointer (piece : ValuePiece) (base : Pointer) : Pointer :=
  base.shift (min (piece.start : Int) Offset.greatest)

namespace Program

/-- The slot of an object. Objects that are not declared are shared. -/
def slot (p : Program) (o : ObjectId) : Slot :=
  match p.objects.get? o with
  | some object => .ofObject object
  | none => .shared o

/-- The `size` bytes from `ptr` on are not all trusted. Constants always are. -/
def isStale (p : Program) (s : Snapshot) (ptr : Pointer) (size : Nat) : Bool :=
  if p.isConstant ptr.object then false
  else
    match s.bytes? (p.slot ptr.object) with
    | none => s.othersClobbered
    | some bytes =>
      match ptr.bytes? size with
      | some range => !bytes.covers range
      | none => true

/-- Some piece with a known value has bytes that are not trusted. -/
def anyStale (p : Program) (s : Snapshot) (base : Pointer) (pieces : List ValuePiece) : Bool :=
  pieces.any fun piece => piece.value.isSome && p.isStale s (piece.pointer base) piece.length

/-- The need of a load from one target. -/
def needFrom (p : Program) (s : Snapshot) (size : Nat) (result : ReadValue) (ptr : Pointer) :
    Need :=
  if p.isConstant ptr.object then .never
  else
    match result with
    | .pieces ps => .ofBool (p.anyStale s ptr ps)
    | _ => .ofBool (p.isStale s ptr size)

/-- The need of a copy from `src`. -/
def needOfCopy (p : Program) (s : Snapshot) (src : PointerValue) (len : Option Nat)
    (copied : List ValuePiece) : Need :=
  match len, src.unique? with
  | some len, some src =>
    if len = 0 ∨ copied.isEmpty then .never else .ofBool (p.anyStale s src copied)
  | _, _ => .never

/-- The need of an operation that reads memory. -/
def need (p : Program) (settings : Settings) (s : Snapshot) (op : Operation) : Need :=
  if settings.singleThreaded then .never
  else
    match op with
    | .load ptr size ordering result =>
      if result.isWhollyUnknown then .never
      else if ordering.isOrdered then .must
      else (ptr.listed.map (p.needFrom s size result)).foldl Need.max .never
    | .atomic _ _ _ result => if result.isWhollyUnknown then .never else .must
    | .memcpy _ src len copied => p.needOfCopy s src len copied
    | .realloc _ source len copied => p.needOfCopy s source len copied
    | _ => .never

end Program

end ByteTrust
