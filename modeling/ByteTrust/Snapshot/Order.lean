import ByteTrust.Ident.Set
import ByteTrust.Snapshot.Basic

/-!
# Snapshots ordered by trust

`Snapshot.isBelow s t` says that every byte that `s` trusts is trusted by `t`.

At a join, at the return of a call and at the back edge of a loop several snapshots meet. A byte
is trusted afterwards exactly when each of them trusts it. When other objects are clobbered
afterwards, an object without trusted bytes is not listed, so the result does not depend on the
order of the snapshots; a sheet that all of them took from one write is kept as it is.
-/

namespace ByteTrust

/-! ## Less trust -/

/-- Every byte that the first sheet trusts is trusted by the second, given for each snapshot
whether other objects are clobbered. -/
def Sheet.isBelow (m : Sheet) (clobbered : Bool) (n : Sheet) (clobberedThere : Bool) : Bool :=
  (m.listed.entries.all fun e =>
    match n.listed.get? e.1 with
    | some bytes => e.2.subset bytes
    | none => !clobberedThere || e.2.isEmpty) &&
  -- Objects listed only there are trusted here as a whole, unless others are clobbered.
  n.listed.keys.all fun o => m.listed.contains o || clobbered

/-- Every byte that `s` trusts is trusted by `t`. -/
def Snapshot.isBelow (s t : Snapshot) : Bool :=
  s.owners = t.owners &&
  (s.othersClobbered || !t.othersClobbered) &&
  s.shared.isBelow s.othersClobbered t.shared t.othersClobbered &&
  (s.frames.zip t.frames).all fun f =>
    f.1.sheet.isBelow s.othersClobbered f.2.sheet t.othersClobbered

/-! ## Meets -/

/-- What one snapshot trusts of one object. -/
inductive Trust
  | whole
  | only (bytes : ByteSet)

/-- What both trust. -/
def Trust.meet : Trust → Trust → Trust
  | .whole, t => t
  | t, .whole => t
  | .only a, .only b => .only (a.inter b)

/-- What a sheet trusts of an object, given whether other objects are clobbered. -/
def Sheet.trust (m : Sheet) (clobbered : Bool) (o : ObjectId) : Trust :=
  match m.listed.get? o with
  | some bytes => .only bytes
  | none => if clobbered then .only ∅ else .whole

namespace Snapshot

/-- List an object with what all sheets trust of it. -/
def listMeet (sheets : List (Sheet × Bool)) (clobbered : Bool)
    (m : IdentMap .object ByteSet) (o : ObjectId) : IdentMap .object ByteSet :=
  match (sheets.map fun e => e.1.trust e.2 o).foldl Trust.meet .whole with
  | .whole => m
  | .only bytes => if clobbered && bytes.isEmpty then m else m.insert o bytes

/-- The meet of sheets at one position, each with whether its snapshot has other objects
clobbered. `clobbered` says whether one of them has. -/
def meetSheets (now : Stamp) (clobbered : Bool) (first : Sheet × Bool)
    (rest : List (Sheet × Bool)) : Sheet :=
  if rest.all fun e => e.1.stamp = first.1.stamp && e.2 = first.2 then first.1
  else
    let sheets := first :: rest
    let objects := IdentSet.ofList (sheets.flatMap fun e => e.1.listed.keys)
    ⟨now, objects.toList.foldl (listMeet sheets clobbered) ∅⟩

/-- The sheets of the innermost of several lists of frames, each with its flag, and the lists
without those frames. -/
def innermost (calls : List (List Frame × Bool)) :
    List (Sheet × Bool) × List (List Frame × Bool) :=
  (calls.filterMap fun e => (e.1.head?).map fun f => (f.sheet, e.2),
    calls.map fun e => (e.1.tail, e.2))

/-- The meet of the frames of a list with the frames at the same index of the other lists. -/
def meetFrames (now : Stamp) (clobbered first : Bool) :
    List Frame → List (List Frame × Bool) → List Frame
  | [], _ => []
  | f :: fs, calls =>
    let (sheets, calls) := innermost calls
    ⟨f.owner, meetSheets now clobbered (f.sheet, first) sheets⟩ ::
      meetFrames now clobbered first fs calls

/-- The first snapshot of a list with other frames than `s`. -/
def firstUnlike? (s : Snapshot) (ts : List Snapshot) : Option Snapshot :=
  ts.find? fun t => t.owners ≠ s.owners

/-- The meet of several snapshots, or nothing when there are none. Snapshots with different
frames do not meet. -/
def meetAll (now : Stamp) : List Snapshot → Except Fault (Option Snapshot)
  | [] => .ok none
  | s :: ts =>
    if ts.all fun t => t.isSame s then .ok (some s)
    else
      match firstUnlike? s ts with
      | some t => .error (.frameMismatch s.frames.length t.frames.length)
      | none =>
        let clobbered := (s :: ts).any Snapshot.othersClobbered
        .ok (some
          { stamp := now
            shared := meetSheets now clobbered (s.shared, s.othersClobbered)
              (ts.map fun t => (t.shared, t.othersClobbered))
            frames := meetFrames now clobbered s.othersClobbered s.frames
              (ts.map fun t => (t.frames, t.othersClobbered))
            othersClobbered := clobbered })

end Snapshot

end ByteTrust
