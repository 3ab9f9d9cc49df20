import ByteTrust.Ident.Basic

/-!
# Maps keyed by identifiers

An `IdentMap` lists its entries by ascending key. As the order is part of the type, two maps with
the same look-ups are equal (`IdentMap.ext`), and the entries come out in the order in which
reports show them.
-/

namespace ByteTrust

universe u v

/-- A finite map from identifiers of kind `κ`, its entries listed by ascending key. -/
structure IdentMap (κ : IdentKind) (β : Type u) where
  entries : List (Ident κ × β)
  ascending : entries.Pairwise fun a b => a.1.number < b.1.number

namespace IdentMap

variable {κ : IdentKind} {β : Type u} {γ : Type v}

/-! ## Operations on entry lists -/

/-- The value of the first entry with key `k`. -/
def lookup (k : Ident κ) : List (Ident κ × β) → Option β
  | [] => none
  | e :: es => if e.1 = k then some e.2 else lookup k es

/-- Put `(k, v)` in its place, replacing an entry with the same key. -/
def place (k : Ident κ) (v : β) : List (Ident κ × β) → List (Ident κ × β)
  | [] => [(k, v)]
  | e :: es =>
    if k.number < e.1.number then (k, v) :: e :: es
    else if k.number = e.1.number then (k, v) :: es
    else e :: place k v es

theorem mem_place {k : Ident κ} {v : β} {es : List (Ident κ × β)} {e : Ident κ × β}
    (h : e ∈ place k v es) : e = (k, v) ∨ e ∈ es := by
  induction es with
  | nil => simpa [place] using h
  | cons d ds ih =>
    simp only [place] at h
    split at h
    · simpa using h
    · split at h
      · rcases List.mem_cons.1 h with h | h
        · exact .inl h
        · exact .inr (List.mem_cons_of_mem _ h)
      · rcases List.mem_cons.1 h with h | h
        · exact .inr (h ▸ List.mem_cons_self)
        · exact (ih h).imp_right (List.mem_cons_of_mem _)

theorem place_ascending (k : Ident κ) (v : β) {es : List (Ident κ × β)}
    (h : es.Pairwise fun a b => a.1.number < b.1.number) :
    (place k v es).Pairwise fun a b => a.1.number < b.1.number := by
  induction es with
  | nil => simp [place]
  | cons d ds ih =>
    obtain ⟨hd, hds⟩ := List.pairwise_cons.1 h
    simp only [place]
    split
    · next hk =>
      refine List.pairwise_cons.2 ⟨fun e he => ?_, h⟩
      rcases List.mem_cons.1 he with rfl | he
      · exact hk
      · exact Nat.lt_trans hk (hd e he)
    · split
      · next hk => exact List.pairwise_cons.2 ⟨fun e he => hk ▸ hd e he, hds⟩
      · refine List.pairwise_cons.2 ⟨fun e he => ?_, ih hds⟩
        rcases mem_place he with rfl | he
        · simp only
          omega
        · exact hd e he

/-! ## Operations on maps -/

/-- The map without entries. -/
def empty : IdentMap κ β := ⟨[], List.Pairwise.nil⟩

instance : EmptyCollection (IdentMap κ β) := ⟨empty⟩

instance : Inhabited (IdentMap κ β) := ⟨∅⟩

/-- The value at `k`, if `k` is listed. -/
def get? (m : IdentMap κ β) (k : Ident κ) : Option β := lookup k m.entries

/-- Whether `k` is listed. -/
def contains (m : IdentMap κ β) (k : Ident κ) : Bool := (m.get? k).isSome

/-- List `k` with the value `v`, in place of any earlier value. -/
def insert (m : IdentMap κ β) (k : Ident κ) (v : β) : IdentMap κ β :=
  ⟨place k v m.entries, place_ascending k v m.ascending⟩

/-- Take `k` off the list. -/
def erase (m : IdentMap κ β) (k : Ident κ) : IdentMap κ β :=
  ⟨m.entries.filter fun e => e.1 ≠ k, m.ascending.filter _⟩

/-- The listed keys, ascending. -/
def keys (m : IdentMap κ β) : List (Ident κ) := m.entries.map Prod.fst

/-- The listed values, by ascending key. -/
def values (m : IdentMap κ β) : List β := m.entries.map Prod.snd

/-- Whether nothing is listed. -/
def isEmpty (m : IdentMap κ β) : Bool := m.entries.isEmpty

/-- The number of listed keys. -/
def size (m : IdentMap κ β) : Nat := m.entries.length

/-- Put the pairs of a list one after the other, so that the last value of a repeated key
stays. -/
def ofList (es : List (Ident κ × β)) : IdentMap κ β :=
  es.foldl (fun m e => m.insert e.1 e.2) ∅

instance [DecidableEq β] : DecidableEq (IdentMap κ β) := fun a b =>
  decidable_of_iff (a.entries = b.entries) (by cases a; cases b; simp)

/-! ## Look-up after each operation -/

theorem lookup_place (k j : Ident κ) (v : β) (es : List (Ident κ × β)) :
    lookup j (place k v es) = if j = k then some v else lookup j es := by
  induction es with
  | nil => grind [place, lookup]
  | cons e es ih =>
    have := @Ident.eq_of_number_eq κ k e.1
    grind [place, lookup]

@[simp] theorem get?_empty (k : Ident κ) : (∅ : IdentMap κ β).get? k = none := rfl

theorem get?_insert (m : IdentMap κ β) (k j : Ident κ) (v : β) :
    (m.insert k v).get? j = if j = k then some v else m.get? j :=
  lookup_place k j v m.entries

theorem lookup_filter_ne (k j : Ident κ) (es : List (Ident κ × β)) :
    lookup j (es.filter fun e => e.1 ≠ k) = if j = k then none else lookup j es := by
  induction es with
  | nil => simp [lookup]
  | cons e es ih => grind [lookup]

theorem get?_erase (m : IdentMap κ β) (k j : Ident κ) :
    (m.erase k).get? j = if j = k then none else m.get? j :=
  lookup_filter_ne k j m.entries

theorem lookup_eq_none_of_lt {k : Ident κ} {es : List (Ident κ × β)}
    (h : ∀ e ∈ es, k.number < e.1.number) : lookup k es = none := by
  induction es with
  | nil => rfl
  | cons d ds ih =>
    have hd := h d List.mem_cons_self
    have : d.1 ≠ k := fun e => by simp [e] at hd
    simp [lookup, this, ih fun e he => h e (List.mem_cons_of_mem _ he)]

/-- Two maps with the same look-ups are equal. -/
theorem ext {a b : IdentMap κ β} (h : ∀ k, a.get? k = b.get? k) : a = b := by
  obtain ⟨as, ha⟩ := a
  obtain ⟨bs, hb⟩ := b
  suffices as = bs by subst this; rfl
  simp only [get?] at h
  induction as generalizing bs with
  | nil =>
    cases bs with
    | nil => rfl
    | cons e es => simpa [lookup] using h e.1
  | cons d ds ih =>
    obtain ⟨hd, hds⟩ := List.pairwise_cons.1 ha
    cases bs with
    | nil => simpa [lookup] using h d.1
    | cons e es =>
      obtain ⟨he, hes⟩ := List.pairwise_cons.1 hb
      -- The smaller of the two first keys would be missing on the other side.
      have hkey : d.1 = e.1 := by
        refine Ident.eq_of_number_eq (Nat.le_antisymm (Nat.not_lt.1 fun hlt => ?_)
          (Nat.not_lt.1 fun hlt => ?_))
        · have hne : d.1 ≠ e.1 := fun hde => by simp [hde] at hlt
          have := h e.1
          rw [lookup, if_neg hne, lookup, if_pos rfl,
            lookup_eq_none_of_lt fun x hx => Nat.lt_trans hlt (hd x hx)] at this
          simp at this
        · have hne : e.1 ≠ d.1 := fun hde => by simp [hde] at hlt
          have := h d.1
          rw [lookup, if_pos rfl, lookup, if_neg hne,
            lookup_eq_none_of_lt fun x hx => Nat.lt_trans hlt (he x hx)] at this
          simp at this
      have hval : d.2 = e.2 := by
        have := h d.1
        simpa [lookup, hkey] using this
      have hde : d = e := Prod.ext hkey hval
      subst hde
      congr 1
      refine ih hds es hes fun k => ?_
      have := h k
      by_cases hk : d.1 = k
      · subst hk
        rw [lookup_eq_none_of_lt hd, lookup_eq_none_of_lt he]
      · simpa [lookup, hk] using this

end IdentMap

end ByteTrust
