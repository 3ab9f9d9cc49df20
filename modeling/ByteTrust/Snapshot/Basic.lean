import ByteTrust.ByteSet
import ByteTrust.Fault
import ByteTrust.Ident.Map
import ByteTrust.Program.Object

/-!
# Snapshots of trusted bytes

A snapshot says which bytes of which object still hold what they were speculated to hold. It has
one shared sheet for heap, global and descriptor objects, and one sheet for each live call frame,
for the stack slots of that frame. An object is *listed* on its sheet with its trusted bytes. An
object that is not listed is trusted as a whole, unless the snapshot says that all others are
clobbered: then no byte of it is trusted.

Sheets and snapshots are stamped with the time at which they were last written. Two sheets at one
place of two snapshots with the same stamp come from one and the same write, and so do two
snapshots with the same stamp; where snapshots meet, what all of them took from one write is kept
as it is. Each operation that changes a snapshot takes the present time, and it stamps what it
touches. The main view of a snapshot is `Snapshot.Trusts`.
-/

namespace ByteTrust

/-- A point in time. -/
abbrev Stamp := Nat

/-- The objects listed for one frame, or for the shared objects, with their trusted bytes. -/
structure Sheet where
  stamp : Stamp
  listed : IdentMap .object ByteSet
deriving DecidableEq

namespace Sheet

/-- A sheet without entries. -/
def blank (now : Stamp) : Sheet := ⟨now, ∅⟩

/-- The sheet trusts byte `b` of object `o`, given whether objects that are not listed are
clobbered. -/
def Trusts (m : Sheet) (othersClobbered : Bool) (o : ObjectId) (b : Nat) : Prop :=
  match m.listed.get? o with
  | some bytes => b ∈ bytes
  | none => othersClobbered = false

/-- Change the entries. -/
def write (m : Sheet) (now : Stamp)
    (f : IdentMap .object ByteSet → IdentMap .object ByteSet) : Sheet :=
  ⟨now, f m.listed⟩

/-- The sheet after everything was clobbered. A sheet without entries stays as it is. -/
def clobber (m : Sheet) (now : Stamp) : Sheet := if m.listed.isEmpty then m else .blank now

end Sheet

/-- The sheet of a live call frame. -/
structure Frame where
  owner : ContextId
  sheet : Sheet
deriving DecidableEq

/-- Which bytes are trusted. -/
structure Snapshot where
  stamp : Stamp
  shared : Sheet
  /-- The live frames, innermost first. -/
  frames : List Frame
  /-- Objects that are not listed have no trusted byte. -/
  othersClobbered : Bool
deriving DecidableEq

/-- Where the trusted bytes of an object are listed. -/
inductive Slot
  | shared (object : ObjectId)
  /-- On the sheet of the innermost frame of `owner`, or on the shared sheet when `owner` has no
  live frame. -/
  | frame (owner : ContextId) (object : ObjectId)
deriving DecidableEq

namespace Slot

/-- The object of a slot. -/
def object : Slot → ObjectId
  | .shared o => o
  | .frame _ o => o

/-- Stack slots are listed with their frame, all other objects on the shared sheet. -/
def ofObject (o : MemoryObject) : Slot :=
  match o.kind with
  | .stack owner => .frame owner o.id
  | _ => .shared o.id

end Slot

namespace Snapshot

/-! ## The view of a snapshot -/

/-- A sheet of a snapshot. -/
inductive Position
  | shared
  /-- The frame with this index, counted from the innermost one. -/
  | frame (i : Nat)
deriving DecidableEq

/-- The sheet at a position. -/
def sheet? (s : Snapshot) : Position → Option Sheet
  | .shared => some s.shared
  | .frame i => (s.frames[i]?).map Frame.sheet

/-- The owners of the live frames, innermost first. -/
def owners (s : Snapshot) : List ContextId := s.frames.map Frame.owner

/-- Byte `b` of object `o` is trusted on the sheet at a position. -/
def Trusts (s : Snapshot) (pos : Position) (o : ObjectId) (b : Nat) : Prop :=
  ∃ m, s.sheet? pos = some m ∧ m.Trusts s.othersClobbered o b

/-- What a snapshot says, its stamps left aside: the shared sheet, the frames with their owners
from the innermost one, and whether other objects are clobbered. -/
def contents (s : Snapshot) :
    IdentMap .object ByteSet × List (ContextId × IdentMap .object ByteSet) × Bool :=
  (s.shared.listed, s.frames.map fun f => (f.owner, f.sheet.listed), s.othersClobbered)

/-- The two snapshots are the very same one. -/
def isSame (s t : Snapshot) : Bool := s.stamp = t.stamp

/-- The two snapshots say the same. -/
def isAlike (s t : Snapshot) : Bool := s.contents = t.contents

/-! ## Reading -/

/-- The sheet on which a slot is listed. -/
def sheetOf (s : Snapshot) : Slot → Sheet
  | .shared _ => s.shared
  | .frame owner _ =>
    match s.frames.find? fun f => f.owner = owner with
    | some f => f.sheet
    | none => s.shared

/-- The trusted bytes of a slot, if it is listed. -/
def bytes? (s : Snapshot) (slot : Slot) : Option ByteSet :=
  (s.sheetOf slot).listed.get? slot.object

/-! ## Writing -/

/-- The snapshot in which every object is trusted, without frames. -/
def trusting (now : Stamp) : Snapshot := ⟨now, .blank now, [], false⟩

/-- A copy that shares nothing with `s`. -/
def copy (s : Snapshot) (now : Stamp) : Snapshot :=
  { s with
    stamp := now
    shared := { s.shared with stamp := now }
    frames := s.frames.map fun f => { f with sheet := { f.sheet with stamp := now } } }

/-- Change the sheet of the innermost frame of `owner`, if there is one. -/
def writeFrame (owner : ContextId) (g : Sheet → Sheet) : List Frame → Option (List Frame)
  | [] => none
  | f :: fs =>
    if f.owner = owner then some ({ f with sheet := g f.sheet } :: fs)
    else (writeFrame owner g fs).map (f :: ·)

/-- Change the sheet on which a slot is listed. -/
def write (s : Snapshot) (now : Stamp) (slot : Slot)
    (f : IdentMap .object ByteSet → IdentMap .object ByteSet) : Snapshot :=
  match slot with
  | .shared _ => { s with stamp := now, shared := s.shared.write now f }
  | .frame owner _ =>
    match writeFrame owner (fun m => m.write now f) s.frames with
    | some frames => { s with stamp := now, frames := frames }
    | none => { s with stamp := now, shared := s.shared.write now f }

/-- Change the trusted bytes of a slot, which is listed with none at first. -/
def modify (s : Snapshot) (now : Stamp) (slot : Slot) (f : ByteSet → ByteSet) : Snapshot :=
  s.write now slot fun m => m.insert slot.object (f ((m.get? slot.object).getD ∅))

/-- Enter a call: a new innermost frame without entries. -/
def pushFrame (s : Snapshot) (now : Stamp) (owner : ContextId) : Snapshot :=
  { s with stamp := now, frames := ⟨owner, .blank now⟩ :: s.frames }

/-- Leave a call: the owner of the innermost frame, and the snapshot without that frame. -/
def popFrame (s : Snapshot) (now : Stamp) : Except Fault (ContextId × Snapshot) :=
  match s.frames with
  | [] => .error .noFrame
  | f :: fs => .ok (f.owner, { s with stamp := now, frames := fs })

/-- Another thread may have written anything: no byte is trusted any more. -/
def clobberAll (s : Snapshot) (now : Stamp) : Snapshot :=
  { stamp := now
    shared := s.shared.clobber now
    frames := s.frames.map fun f => { f with sheet := f.sheet.clobber now }
    othersClobbered := true }

/-- No byte of one object is trusted any more. Where other objects are clobbered it is taken off
its sheet; otherwise it is listed without bytes. -/
def clobber (s : Snapshot) (now : Stamp) (slot : Slot) : Snapshot :=
  if s.othersClobbered then
    if (s.bytes? slot).isSome then s.write now slot fun m => m.erase slot.object else s
  else s.modify now slot fun _ => ∅

end Snapshot

end ByteTrust
