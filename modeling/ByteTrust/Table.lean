/-!
# Tables in order of insertion

A `Table` maps keys to values and keeps the order in which the keys first came. Putting a value
at a key that is present changes the value and leaves the key where it stands.
-/

namespace ByteTrust

universe u v w

/-- A finite map with distinct keys, listed in the order of their first insertion. -/
structure Table (α : Type u) (β : Type v) where
  entries : List (α × β)
  distinct : (entries.map Prod.fst).Nodup

namespace Table

variable {α : Type u} {β : Type v} {γ : Type w}

/-- The table without entries. -/
def empty : Table α β := ⟨[], List.nodup_nil⟩

instance : EmptyCollection (Table α β) := ⟨empty⟩

instance : Inhabited (Table α β) := ⟨∅⟩

/-- The keys, in order. -/
def keys (t : Table α β) : List α := t.entries.map Prod.fst

/-- The values, in the order of their keys. -/
def values (t : Table α β) : List β := t.entries.map Prod.snd

/-- The number of entries. -/
def size (t : Table α β) : Nat := t.entries.length

/-- Change every value, keeping the keys. -/
def mapValues (t : Table α β) (f : α → β → γ) : Table α γ :=
  ⟨t.entries.map fun e => (e.1, f e.1 e.2), by
    rw [List.map_map]
    exact t.distinct⟩

variable [DecidableEq α]

/-- The value of the first entry with key `k`. -/
def lookup (k : α) : List (α × β) → Option β
  | [] => none
  | e :: es => if e.1 = k then some e.2 else lookup k es

/-- The value at `k`, if `k` is a key. -/
def get? (t : Table α β) (k : α) : Option β := lookup k t.entries

/-- Whether `k` is a key. -/
def contains (t : Table α β) (k : α) : Bool := (t.get? k).isSome

/-- Replace the value at `k`, or append `(k, v)`. -/
def place (k : α) (v : β) : List (α × β) → List (α × β)
  | [] => [(k, v)]
  | e :: es => if e.1 = k then (k, v) :: es else e :: place k v es

theorem keys_place (k : α) (v : β) (es : List (α × β)) :
    (place k v es).map Prod.fst =
      if k ∈ es.map Prod.fst then es.map Prod.fst else es.map Prod.fst ++ [k] := by
  induction es with
  | nil => simp [place]
  | cons e es ih =>
    by_cases he : e.1 = k
    · simp [place, he]
    · have he' : k ≠ e.1 := fun h => he h.symm
      by_cases hk : k ∈ es.map Prod.fst
      · rw [if_pos hk] at ih
        simp only [place, if_neg he, List.map_cons, ih, List.mem_cons, hk, or_true, if_true]
      · rw [if_neg hk] at ih
        simp only [place, if_neg he, List.map_cons, ih, List.mem_cons, he', hk, or_self, if_false,
          List.cons_append]

/-- Put `v` at `k`: in place of the present value, or as a last entry. -/
def insert (t : Table α β) (k : α) (v : β) : Table α β :=
  ⟨place k v t.entries, by
    rw [keys_place]
    split
    · exact t.distinct
    · next h =>
      refine List.nodup_append.2 ⟨t.distinct, by simp, fun a ha b hb => ?_⟩
      rintro rfl
      exact h (List.mem_singleton.1 hb ▸ ha)⟩

/-- Change the value at `k`, if there is one. -/
def modify (t : Table α β) (k : α) (f : β → β) : Table α β :=
  t.mapValues fun j v => if j = k then f v else v

/-- The table without the entry at `k`. -/
def erase (t : Table α β) (k : α) : Table α β :=
  ⟨t.entries.filter fun e => e.1 ≠ k, t.distinct.sublist (List.filter_sublist.map Prod.fst)⟩

/-- Put the pairs of a list one after the other. -/
def ofList (es : List (α × β)) : Table α β :=
  es.foldl (fun t e => t.insert e.1 e.2) ∅

theorem lookup_place (k j : α) (v : β) (es : List (α × β)) :
    lookup j (place k v es) = if j = k then some v else lookup j es := by
  induction es with
  | nil => grind [place, lookup]
  | cons e es ih => grind [place, lookup]

theorem lookup_filter_ne (k j : α) (es : List (α × β)) :
    lookup j (es.filter fun e => e.1 ≠ k) = if j = k then none else lookup j es := by
  induction es with
  | nil => simp [lookup]
  | cons e es ih => grind [lookup]

@[simp] theorem get?_empty (k : α) : (∅ : Table α β).get? k = none := rfl

theorem get?_insert (t : Table α β) (k j : α) (v : β) :
    (t.insert k v).get? j = if j = k then some v else t.get? j :=
  lookup_place k j v t.entries

theorem get?_erase (t : Table α β) (k j : α) :
    (t.erase k).get? j = if j = k then none else t.get? j :=
  lookup_filter_ne k j t.entries

end Table

end ByteTrust
