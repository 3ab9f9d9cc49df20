import ByteTrust.Interference.Need

/-!
# What an instruction does to trust

Allocations, writes and checked reads make bytes trusted; yield points take trust away. In a
context that will not be emitted no check is emitted either, so nothing becomes trusted there.
-/

namespace ByteTrust

namespace Program

/-- Trust `len` bytes at `ptr + offset` from now on. Nothing happens without a unique target, for
a constant, for an object that is trusted as a whole, and when the bytes are trusted already. -/
def vouch (p : Program) (now : Stamp) (ptr : PointerValue) (offset : Int) (len : Nat)
    (s : Snapshot) : Snapshot :=
  match ptr.unique? with
  | none => s
  | some target =>
    if p.isConstant target.object then s
    else
      let slot := p.slot target.object
      match s.bytes? slot, (target.shift offset).bytes? len with
      | none, some range =>
        if s.othersClobbered then s.modify now slot (·.insert range) else s
      | some bytes, some range =>
        if bytes.covers range then s else s.modify now slot (·.insert range)
      | _, none => s

/-- `vouch` outside of suppressed contexts. -/
def vouchUnless (p : Program) (suppressed : Bool) (now : Stamp) (ptr : PointerValue)
    (offset : Int) (len : Nat) (s : Snapshot) : Snapshot :=
  if suppressed then s else p.vouch now ptr offset len s

/-- Whether a call that is not inlined hands control to other threads. -/
def yieldsAt (settings : Settings) (site : CallSite) : Bool :=
  site.callee.isNone && !site.pessimistic &&
    match site.effect with
    | .known => false
    | .unknown => !settings.singleThreaded
    | .yields => true

/-- The effect of a call on trust. What an inlined call does arrives through its callee. -/
def transferCall (p : Program) (settings : Settings) (now : Stamp) (site : CallSite)
    (s : Snapshot) : Snapshot :=
  if yieldsAt settings site then
    match site.domain with
    | some objects => objects.foldl (fun s o => s.clobber now (p.slot o)) s
    | none => s.clobberAll now
  else s

/-- The effect of an operation on trust. `need` is the answer just given for a read. -/
def transfer (p : Program) (settings : Settings) (now : Stamp) (op : Operation)
    (need : Option Need) (suppressed : Bool) (s : Snapshot) : Snapshot :=
  let trust (ptr : PointerValue) (len : Nat) (s : Snapshot) : Snapshot :=
    p.vouchUnless suppressed now ptr 0 len s
  let trustWhole (object : ObjectId) (s : Snapshot) : Snapshot :=
    match p.sizeOf? object with
    | some size => trust (.single object 0) size s
    | none => s
  match op with
  | .alloc object => trustWhole object s
  | .load ptr size ordering _ =>
    if ordering = .ordered then s.clobberAll now else trust ptr size s
  | .store ptr size => trust ptr size s
  | .atomic ptr size ordering _ =>
    if need = some .must ∧ ordering ≠ .orderedSimple then s.clobberAll now else trust ptr size s
  | .fence => s.clobberAll now
  | .memset dest (some len) => trust dest len s
  | .readFile dest (some len) => trust dest len s
  | .memcpy dest src (some len) _ => trust src len (trust dest len s)
  | .realloc object source (some len) _ =>
    trustWhole object (trust source len (trust (.single object 0) len s))
  | .realloc object _ none _ => trustWhole object s
  | .call site => p.transferCall settings now site s
  | _ => s

end Program

end ByteTrust
