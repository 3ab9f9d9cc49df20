/-!
# Sets of byte positions

A `ByteSet` holds byte positions as a list of half-open ranges. Sets built by `insert` are
*canonical*: every range is non-empty, the ranges ascend, and between two of them lies at least
one byte. A canonical list is found by its bytes alone, and each query on it looks at one range
that a search by halving finds.

Lists that are not canonical can be read from a file. The operations are defined on them too, by
the same search.
-/

namespace ByteTrust

/-- The bytes `start, …, stop - 1`. The range is empty when `stop ≤ start`. -/
structure ByteRange where
  start : Nat
  stop : Nat
deriving DecidableEq, Repr

namespace ByteRange

instance : Membership Nat ByteRange := ⟨fun r b => r.start ≤ b ∧ b < r.stop⟩

instance (b : Nat) (r : ByteRange) : Decidable (b ∈ r) :=
  inferInstanceAs (Decidable (_ ∧ _))

theorem mem_def {b : Nat} {r : ByteRange} : b ∈ r ↔ r.start ≤ b ∧ b < r.stop := Iff.rfl

/-- The smallest range around both. -/
def hull (r s : ByteRange) : ByteRange := ⟨min r.start s.start, max r.stop s.stop⟩

/-- The bytes of both. -/
def inter (r s : ByteRange) : ByteRange := ⟨max r.start s.start, min r.stop s.stop⟩

/-- Every byte of `s` lies in `r`, for a non-empty `s`. -/
def contains (r s : ByteRange) : Bool := r.start ≤ s.start && s.stop ≤ r.stop

/-- The range as it is shown: `3..7`. -/
def render (r : ByteRange) : String := Nat.repr r.start ++ ".." ++ Nat.repr r.stop

end ByteRange

/-- A set of byte positions, as a list of ranges. -/
structure ByteSet where
  ranges : List ByteRange
deriving DecidableEq, Repr

namespace ByteSet

/-! ## Bytes and canonical form -/

instance : Membership Nat ByteSet := ⟨fun s b => ∃ r ∈ s.ranges, b ∈ r⟩

theorem mem_def {b : Nat} {s : ByteSet} : b ∈ s ↔ ∃ r ∈ s.ranges, b ∈ r := Iff.rfl

instance (b : Nat) (s : ByteSet) : Decidable (b ∈ s) :=
  inferInstanceAs (Decidable (∃ r ∈ s.ranges, b ∈ r))

/-- Every range has a byte, the ranges ascend, and a byte lies between any two of them. -/
structure Canonical (s : ByteSet) : Prop where
  nonempty : ∀ r ∈ s.ranges, r.start < r.stop
  apart : s.ranges.Pairwise fun r t => r.stop < t.start

/-! ## Search by halving -/

/-- How many leading entries a search by halving takes to satisfy `p`. At each step the window
`xs` is halved by looking at its middle entry; `fuel` bounds the number of steps, and the length
of the list is enough. When no entry that fails `p` stands before one that satisfies it, this is
the length of the longest leading run that satisfies `p`. -/
def bisect {α : Type} (p : α → Bool) : Nat → List α → Nat
  | 0, _ => 0
  | _ + 1, [] => 0
  | _ + 1, [x] => if p x then 1 else 0
  | fuel + 1, x :: y :: xs =>
    let window := x :: y :: xs
    let half := window.length / 2
    match window.drop half with
    | [] => 0
    | middle :: rest =>
      if p middle then half + bisect p fuel (middle :: rest)
      else bisect p fuel (window.take (window.length - half))

/-- The number of leading ranges that satisfy `p`, found by halving. -/
def leading (s : ByteSet) (p : ByteRange → Bool) : Nat :=
  bisect p s.ranges.length s.ranges

/-! ## Operations -/

/-- The set without bytes. -/
def empty : ByteSet := ⟨[]⟩

instance : EmptyCollection ByteSet := ⟨empty⟩

instance : Inhabited ByteSet := ⟨∅⟩

/-- Whether the list of ranges is empty. -/
def isEmpty (s : ByteSet) : Bool := s.ranges.isEmpty

/-- Join `r` with the leading ranges that overlap or touch it, as it grows: the joined range and
the ranges that are left. -/
def absorb (r : ByteRange) : List ByteRange → ByteRange × List ByteRange
  | [] => (r, [])
  | t :: ts => if t.start ≤ r.stop then absorb (r.hull t) ts else (r, t :: ts)

/-- Add the bytes of `r`. It is joined with every range that it overlaps or touches; an empty
range changes nothing. -/
def insert (s : ByteSet) (r : ByteRange) : ByteSet :=
  if r.start < r.stop then
    let first := s.leading fun t => t.stop < r.start
    let (joined, rest) := absorb r (s.ranges.drop first)
    ⟨s.ranges.take first ++ joined :: rest⟩
  else s

/-- The bytes of one range. -/
def ofRange (r : ByteRange) : ByteSet := insert ∅ r

/-- The bytes of all ranges of a list. -/
def ofList (rs : List ByteRange) : ByteSet := rs.foldl insert ∅

/-- Whether one range of the set holds all of `r`. In a canonical set, this says that every byte
of `r` is in the set. -/
def covers (s : ByteSet) (r : ByteRange) : Bool :=
  if r.start < r.stop then
    match s.ranges[s.leading fun t => t.stop < r.stop]? with
    | some t => t.contains r
    | none => false
  else true

/-- Whether some range of the set and `r` share a byte. -/
def overlaps (s : ByteSet) (r : ByteRange) : Bool :=
  s.ranges.any fun t => t.start < r.stop && r.start < t.stop

/-- The overlaps of `a` with the ranges of a list, up to one that reaches beyond `a`; `next`
deals with the list from there on. -/
def interRow (a : ByteRange) (next : List ByteRange → List ByteRange) :
    List ByteRange → List ByteRange
  | [] => []
  | b :: bs =>
    let rest := if a.stop < b.stop then next (b :: bs) else interRow a next bs
    if (a.inter b).start < (a.inter b).stop then a.inter b :: rest else rest

/-- The non-empty overlaps of two ascending lists of ranges, in one pass over both: of the two
ranges at hand, the one that ends first is left behind. -/
def overlapsOf : List ByteRange → List ByteRange → List ByteRange
  | [] => fun _ => []
  | a :: as => interRow a (overlapsOf as)

/-- The bytes of both sets. -/
def inter (s t : ByteSet) : ByteSet := ofList (overlapsOf s.ranges t.ranges)

/-- Whether every range of `s` is covered by `t`. -/
def subset (s t : ByteSet) : Bool := s.ranges.all t.covers

/-- The set as it is shown: `{0..4, 8..9}`. -/
def render (s : ByteSet) : String :=
  "\x7b" ++ String.intercalate ", " (s.ranges.map ByteRange.render) ++ "\x7d"

end ByteSet

end ByteTrust
