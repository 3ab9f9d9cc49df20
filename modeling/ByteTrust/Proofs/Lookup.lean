import ByteTrust.Ident.Set
import ByteTrust.Table
import Mathlib.Data.List.Basic
import Mathlib.Data.List.Perm.Subperm
import Mathlib.Tactic.Tauto

/-!
# Entries and look-ups

The entries of an `IdentMap`, the members of an `IdentSet` and the entries of a `Table`, told by
look-ups.
-/

namespace ByteTrust

/-! ## Filling a map from a list -/

section Fill

variable {τ α κ β : Type*} [DecidableEq κ] {get : τ → κ → Option β} {put : τ → κ → β → τ}
  {key : α → κ} {val : α → β}

/-- When every entry of a list is put into a map, the last one with a key decides. -/
theorem get_foldl_put (hput : ∀ t k j v, get (put t k v) j = if j = k then some v else get t j)
    (xs : List α) (t : τ) (j : κ) :
    get (xs.foldl (fun t x => put t (key x) (val x)) t) j =
      ((xs.reverse.find? fun x => key x = j).map val).or (get t j) := by
  induction xs generalizing t with
  | nil => simp
  | cons x xs ih =>
    rw [List.foldl_cons, ih, hput, List.reverse_cons, List.find?_append]
    cases xs.reverse.find? fun x => key x = j with
    | some y => simp
    | none =>
      by_cases hx : key x = j
      · simp [hx]
      · simp [hx, Ne.symm hx]

theorem mem_of_get_foldl_put
    (hput : ∀ t k j v, get (put t k v) j = if j = k then some v else get t j)
    {xs : List α} {t : τ} {j : κ} {v : β}
    (h : get (xs.foldl (fun t x => put t (key x) (val x)) t) j = some v) :
    (∃ x ∈ xs, key x = j ∧ val x = v) ∨ get t j = some v := by
  rw [get_foldl_put hput] at h
  cases hx : xs.reverse.find? fun x => key x = j with
  | none => exact .inr (by simpa [hx] using h)
  | some x =>
    have hkey := List.find?_some hx
    have hmem := List.mem_of_find?_eq_some hx
    exact .inl ⟨x, List.mem_reverse.1 hmem, by simpa using hkey, by simpa [hx] using h⟩

theorem isSome_get_foldl_put
    (hput : ∀ t k j v, get (put t k v) j = if j = k then some v else get t j)
    {xs : List α} {t : τ} {j : κ} (h : (∃ x ∈ xs, key x = j) ∨ (get t j).isSome = true) :
    (get (xs.foldl (fun t x => put t (key x) (val x)) t) j).isSome = true := by
  rw [get_foldl_put hput, Option.isSome_or, Bool.or_eq_true, Option.isSome_map, List.find?_isSome]
  simpa using h

end Fill

namespace IdentMap

variable {κ : IdentKind} {β : Type*} {m : IdentMap κ β} {k : Ident κ} {v : β}

theorem isEmpty_iff : m.isEmpty = true ↔ m = ∅ := by
  constructor
  · intro h
    obtain ⟨es, hes⟩ := m
    obtain rfl : es = [] := List.isEmpty_iff.1 h
    rfl
  · rintro rfl
    rfl

theorem mem_of_lookup {es : List (Ident κ × β)} (h : lookup k es = some v) : (k, v) ∈ es := by
  induction es with
  | nil => cases h
  | cons e es ih =>
    by_cases he : e.1 = k
    · rw [lookup, if_pos he] at h
      cases h
      exact he ▸ List.mem_cons_self
    · rw [lookup, if_neg he] at h
      exact List.mem_cons_of_mem _ (ih h)

theorem mem_entries : (k, v) ∈ m.entries ↔ m.get? k = some v := by
  refine ⟨fun h => ?_, mem_of_lookup⟩
  obtain ⟨es, hes⟩ := m
  change lookup k es = some v
  induction es with
  | nil => cases h
  | cons e es ih =>
    obtain ⟨hlt, hes⟩ := List.pairwise_cons.1 hes
    rcases List.mem_cons.1 h with rfl | h
    · rw [lookup, if_pos rfl]
    · have hne : e.1 ≠ k := by
        rintro rfl
        exact Nat.lt_irrefl _ (hlt (e.1, v) h)
      rw [lookup, if_neg hne]
      exact ih hes h

theorem isSome_lookup {es : List (Ident κ × β)} (h : k ∈ es.map Prod.fst) :
    (lookup k es).isSome = true := by
  induction es with
  | nil => cases h
  | cons e es ih =>
    by_cases he : e.1 = k
    · simp [lookup, he]
    · rcases List.mem_cons.1 h with h | h
      · exact absurd h.symm he
      · simpa [lookup, he] using ih h

theorem mem_keys : k ∈ m.keys ↔ ∃ v, m.get? k = some v := by
  constructor
  · exact fun h => Option.isSome_iff_exists.1 (isSome_lookup h)
  · exact fun ⟨v, h⟩ => List.mem_map.2 ⟨_, mem_of_lookup h, rfl⟩

theorem mem_of_mem_ofList {es : List (Ident κ × β)} {e : Ident κ × β}
    (h : e ∈ (ofList es).entries) : e ∈ es := by
  have hget : get? (es.foldl (fun m e => insert m e.1 e.2) ∅) e.1 = some e.2 := mem_entries.1 h
  obtain ⟨x, hx, hkey, hvalue⟩ | hnone := mem_of_get_foldl_put get?_insert hget
  · exact Prod.ext hkey hvalue ▸ hx
  · cases hnone

/-- A map is the same when its entries are put into an empty one. -/
theorem ofList_entries (m : IdentMap κ β) : ofList m.entries = m := by
  refine ext fun k => Option.ext fun v => ?_
  rw [← mem_entries, ← mem_entries]
  refine ⟨mem_of_mem_ofList, fun h => ?_⟩
  have hsome : ((ofList m.entries).get? k).isSome = true :=
    isSome_get_foldl_put get?_insert (.inl ⟨(k, v), h, rfl⟩)
  obtain ⟨w, hw⟩ := Option.isSome_iff_exists.1 hsome
  have hmem : (k, w) ∈ m.entries := mem_of_mem_ofList (mem_entries.2 hw)
  obtain rfl : v = w := Option.some.inj ((mem_entries.1 h).symm.trans (mem_entries.1 hmem))
  exact mem_entries.2 hw

/-- A map is filled by listing one new key after the other. -/
theorem insert_induction {P : IdentMap κ β → Prop} (hempty : P ∅)
    (hinsert : ∀ m k v, m.get? k = none → P m → P (m.insert k v)) (m : IdentMap κ β) : P m := by
  obtain ⟨es, hes⟩ := m
  induction es with
  | nil => exact hempty
  | cons e es ih =>
    obtain ⟨hlt, hes'⟩ := List.pairwise_cons.1 hes
    have hnew : IdentMap.get? ⟨es, hes'⟩ e.1 = none := lookup_eq_none_of_lt hlt
    have hcons : (⟨e :: es, hes⟩ : IdentMap κ β) = IdentMap.insert ⟨es, hes'⟩ e.1 e.2 := by
      refine ext fun j => ?_
      rw [get?_insert]
      change lookup j (e :: es) = _
      rw [lookup]
      simp only [eq_comm (a := j)]
      rfl
    rw [hcons]
    exact hinsert _ _ _ hnew (ih hes')

end IdentMap

namespace IdentSet

variable {κ : IdentKind} {k : Ident κ} {s t : IdentSet κ}

@[simp] theorem mem_toList : k ∈ s.toList ↔ k ∈ s := by
  rw [mem_iff, toList, IdentMap.mem_keys]
  exact ⟨fun ⟨_, h⟩ => h, fun h => ⟨_, h⟩⟩

theorem mem_foldl_insert {ks : List (Ident κ)} :
    k ∈ ks.foldl insert s ↔ k ∈ s ∨ k ∈ ks := by
  induction ks generalizing s with
  | nil => simp
  | cons j ks ih =>
    rw [List.foldl_cons, ih, mem_insert, List.mem_cons]
    tauto

@[simp] theorem mem_ofList {ks : List (Ident κ)} : k ∈ ofList ks ↔ k ∈ ks := by
  rw [ofList, mem_foldl_insert]
  simp

@[simp] theorem mem_union : k ∈ s.union t ↔ k ∈ s ∨ k ∈ t := by
  rw [union, mem_foldl_insert, mem_toList]

theorem contains_iff : s.contains k = true ↔ k ∈ s := Iff.rfl

end IdentSet

namespace Table

variable {α : Type*} {β : Type*} {γ : Type*} [DecidableEq α] {t : Table α β} {k : α} {v : β}

theorem lookup_eq_some_iff {es : List (α × β)} (h : (es.map Prod.fst).Nodup) :
    lookup k es = some v ↔ (k, v) ∈ es := by
  induction es with
  | nil => simp [lookup]
  | cons e es ih =>
    obtain ⟨he, hes⟩ := List.nodup_cons.1 h
    rw [lookup, List.mem_cons]
    split
    · next hk =>
      subst hk
      constructor
      · intro hv
        exact .inl (Prod.ext rfl (Option.some.inj hv).symm)
      · rintro (hv | hv)
        · rw [← hv]
        · exact absurd (List.mem_map.2 ⟨_, hv, rfl⟩) he
    · next hk =>
      rw [ih hes]
      exact ⟨.inr, fun hv => hv.resolve_left fun hv => hk (by rw [← hv])⟩

theorem mem_entries : (k, v) ∈ t.entries ↔ t.get? k = some v :=
  (lookup_eq_some_iff t.distinct).symm

theorem mem_values : v ∈ t.values ↔ ∃ k, t.get? k = some v := by
  rw [values, List.mem_map]
  constructor
  · rintro ⟨⟨k, v⟩, h, rfl⟩
    exact ⟨k, mem_entries.1 h⟩
  · rintro ⟨k, h⟩
    exact ⟨_, mem_entries.2 h, rfl⟩

theorem mem_values_of_get? (h : t.get? k = some v) : v ∈ t.values := mem_values.2 ⟨k, h⟩

theorem mem_keys : k ∈ t.keys ↔ ∃ v, t.get? k = some v := by
  rw [keys, List.mem_map]
  constructor
  · rintro ⟨⟨k, v⟩, h, rfl⟩
    exact ⟨v, mem_entries.1 h⟩
  · rintro ⟨v, h⟩
    exact ⟨_, mem_entries.2 h, rfl⟩

/-- Different keys are no more than there are entries. -/
theorem length_le_size {ks : List α} (hnodup : ks.Nodup) (h : ∀ k ∈ ks, ∃ v, t.get? k = some v) :
    ks.length ≤ t.size := by
  have hsub : ks ⊆ t.keys := fun k hk => mem_keys.2 (h k hk)
  have hle := (List.subperm_of_subset hnodup hsub).length_le
  rwa [keys, List.length_map] at hle

theorem mem_of_mem_ofList {es : List (α × β)} {e : α × β} (h : e ∈ (ofList es).entries) :
    e ∈ es := by
  have hget : get? (es.foldl (fun t e => insert t e.1 e.2) ∅) e.1 = some e.2 := mem_entries.1 h
  obtain ⟨x, hx, hkey, hvalue⟩ | hnone := mem_of_get_foldl_put get?_insert hget
  · exact Prod.ext hkey hvalue ▸ hx
  · cases hnone

theorem place_of_not_mem {es : List (α × β)} (h : k ∉ es.map Prod.fst) :
    place k v es = es ++ [(k, v)] := by
  induction es with
  | nil => rfl
  | cons e es ih =>
    rw [List.map_cons, List.mem_cons, not_or] at h
    rw [place, if_neg (Ne.symm h.1), ih h.2, List.cons_append]

/-- A table is the same, in the same order, when its entries are put into an empty one. -/
theorem ofList_entries (t : Table α β) : ofList t.entries = t := by
  have hfill (done : Table α β) (es : List (α × β))
      (h : ((done.entries ++ es).map Prod.fst).Nodup) :
      (es.foldl (fun t e => t.insert e.1 e.2) done).entries = done.entries ++ es := by
    induction es generalizing done with
    | nil => simp
    | cons e es ih =>
      have hnew : e.1 ∉ done.entries.map Prod.fst := fun hmem => by
        rw [List.map_append, List.nodup_append] at h
        exact h.2.2 e.1 hmem e.1 (List.mem_map_of_mem List.mem_cons_self) rfl
      have hinsert : (done.insert e.1 e.2).entries = done.entries ++ [e] := place_of_not_mem hnew
      rw [List.foldl_cons, ih _ (by rwa [hinsert, List.append_assoc]), hinsert, List.append_assoc]
      rfl
  obtain ⟨es, hes⟩ := t
  have hentries : (ofList es).entries = es := hfill ∅ es hes
  rwa [← mk.injEq _ (ofList es).distinct] at hentries

@[simp] theorem get?_mapValues (t : Table α β) (f : α → β → γ) (k : α) :
    (t.mapValues f).get? k = (t.get? k).map (f k) := by
  obtain ⟨es, hes⟩ := t
  show lookup k (es.map fun e => (e.1, f e.1 e.2)) = (lookup k es).map (f k)
  clear hes
  induction es with
  | nil => rfl
  | cons e es ih =>
    rw [List.map_cons, lookup, lookup]
    split
    · next hk => exact hk ▸ rfl
    · exact ih

omit [DecidableEq α] in
@[simp] theorem keys_mapValues (t : Table α β) (f : α → β → γ) : (t.mapValues f).keys = t.keys := by
  simp [keys, mapValues, Function.comp_def]

end Table

end ByteTrust
