import ByteTrust.Ident.Map

/-!
# Sets of identifiers

An `IdentSet` lists its members in ascending order, so that sets with the same members are equal.
-/

namespace ByteTrust

/-- A finite set of identifiers of kind `κ`. -/
structure IdentSet (κ : IdentKind) where
  toMap : IdentMap κ Unit
deriving DecidableEq

namespace IdentSet

variable {κ : IdentKind}

/-- The set without members. -/
def empty : IdentSet κ := ⟨∅⟩

instance : EmptyCollection (IdentSet κ) := ⟨empty⟩

instance : Inhabited (IdentSet κ) := ⟨∅⟩

/-- Whether `k` is a member. -/
def contains (s : IdentSet κ) (k : Ident κ) : Bool := s.toMap.contains k

instance : Membership (Ident κ) (IdentSet κ) := ⟨fun s k => s.contains k = true⟩

instance (k : Ident κ) (s : IdentSet κ) : Decidable (k ∈ s) :=
  inferInstanceAs (Decidable (s.contains k = true))

/-- The set with `k` as a member. -/
def insert (s : IdentSet κ) (k : Ident κ) : IdentSet κ := ⟨s.toMap.insert k ()⟩

/-- The set without `k`. -/
def erase (s : IdentSet κ) (k : Ident κ) : IdentSet κ := ⟨s.toMap.erase k⟩

/-- The members, ascending. -/
def toList (s : IdentSet κ) : List (Ident κ) := s.toMap.keys

/-- Whether there is no member. -/
def isEmpty (s : IdentSet κ) : Bool := s.toMap.isEmpty

/-- The number of members. -/
def size (s : IdentSet κ) : Nat := s.toMap.size

/-- The set of the entries of a list. -/
def ofList (ks : List (Ident κ)) : IdentSet κ := ks.foldl insert ∅

/-- The members of either set. -/
def union (s t : IdentSet κ) : IdentSet κ := t.toList.foldl insert s

theorem mem_iff {k : Ident κ} {s : IdentSet κ} : k ∈ s ↔ s.toMap.get? k = some () := by
  change (s.toMap.get? k).isSome = true ↔ _
  cases s.toMap.get? k <;> simp

@[simp] theorem not_mem_empty (k : Ident κ) : k ∉ (∅ : IdentSet κ) := by
  rw [mem_iff]
  change none = some () → False
  simp

@[simp] theorem mem_insert {k j : Ident κ} {s : IdentSet κ} : j ∈ s.insert k ↔ j = k ∨ j ∈ s := by
  rw [mem_iff, mem_iff, insert, IdentMap.get?_insert]
  split <;> simp_all

@[simp] theorem mem_erase {k j : Ident κ} {s : IdentSet κ} : j ∈ s.erase k ↔ j ≠ k ∧ j ∈ s := by
  rw [mem_iff, mem_iff, erase, IdentMap.get?_erase]
  split <;> simp_all

/-- Sets with the same members are equal. -/
theorem ext {s t : IdentSet κ} (h : ∀ k, k ∈ s ↔ k ∈ t) : s = t := by
  obtain ⟨s⟩ := s
  obtain ⟨t⟩ := t
  congr 1
  refine IdentMap.ext fun k => ?_
  have := h k
  rw [mem_iff, mem_iff] at this
  cases hs : s.get? k <;> cases ht : t.get? k <;> simp_all

end IdentSet

end ByteTrust
