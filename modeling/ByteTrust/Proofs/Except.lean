import ByteTrust.Fault

/-!
# Runs that succeed

What the steps of a computation with faults did, when the whole of it succeeded.
-/

namespace ByteTrust

universe u v w

variable {ε : Type u} {α : Type v} {β : Type v} {x : Except ε α} {f : α → Except ε β} {b : β}

theorem bind_eq_ok : (x >>= f) = .ok b ↔ ∃ a, x = .ok a ∧ f a = .ok b := by
  constructor
  · intro h
    cases x with
    | error e => cases h
    | ok a => exact ⟨a, rfl, h⟩
  · rintro ⟨a, rfl, h⟩
    exact h

@[simp] theorem ok_bind (a : α) : (Except.ok a >>= f) = f a := rfl

@[simp] theorem error_bind (e : ε) : ((Except.error e : Except ε α) >>= f) = .error e := rfl

@[simp] theorem pure_eq_ok (a : α) : (pure a : Except ε α) = .ok a := rfl

@[simp] theorem throw_eq_error (e : ε) : (throw e : Except ε α) = .error e := rfl

/-! ## Guards -/

section Guard

variable {P : Prop} [Decidable P] {e : ε} {a : α}

@[simp] theorem ite_error_eq_ok : (if P then .error e else x) = .ok a ↔ ¬ P ∧ x = .ok a := by
  split <;> simp_all

@[simp] theorem ite_else_error_eq_ok : (if P then x else .error e) = .ok a ↔ P ∧ x = .ok a := by
  split <;> simp_all

end Guard

/-! ## Lists -/

/-- A check of every entry of a list succeeds exactly when each check does. -/
theorem forM_eq_ok {γ : Type w} {xs : List γ} {check : γ → Except ε PUnit} :
    xs.forM check = .ok ⟨⟩ ↔ ∀ a ∈ xs, check a = .ok ⟨⟩ := by
  induction xs with
  | nil => exact ⟨fun _ _ h => (List.not_mem_nil h).elim, fun _ => rfl⟩
  | cons a xs ih =>
    show (check a >>= fun _ => xs.forM check) = _ ↔ _
    rw [bind_eq_ok, List.forall_mem_cons, ← ih]
    exact ⟨fun ⟨⟨⟩, h, h'⟩ => ⟨h, h'⟩, fun ⟨h, h'⟩ => ⟨⟨⟩, h, h'⟩⟩

/-- What holds at the start of a fold and is kept by every step holds at its end. The steps done
before are listed as `done`. -/
theorem foldlM_induction {γ : Type w} {step : α → γ → Except ε α} {xs : List γ} {a b : α}
    (h : xs.foldlM step a = .ok b) (motive : List γ → α → Prop) (start : motive [] a)
    (next : ∀ done a x a', x ∈ xs → step a x = .ok a' → motive done a →
      motive (done ++ [x]) a') : motive xs b := by
  suffices ∀ (done rest : List γ) (a : α), (∀ x ∈ rest, x ∈ xs) → rest.foldlM step a = .ok b →
      motive done a → motive (done ++ rest) b from this [] xs a (fun _ h => h) h start
  intro done rest
  induction rest generalizing done with
  | nil =>
    intro a _ h ha
    cases h
    simpa using ha
  | cons x rest ih =>
    intro a hmem h ha
    rw [List.foldlM_cons, bind_eq_ok] at h
    obtain ⟨a', hx, h⟩ := h
    have hnext := next done a x a' (hmem x List.mem_cons_self) hx ha
    have := ih (done ++ [x]) a' (fun y hy => hmem y (List.mem_cons_of_mem _ hy)) h hnext
    simpa using this

/-- A computation succeeds when its first step does and what follows does. -/
theorem exists_bind {β : Type v} {x : Except ε α} {g : α → Except ε β} (h : ∃ a, x = .ok a)
    (hg : ∀ a, ∃ b, g a = .ok b) : ∃ b, x >>= g = .ok b := by
  obtain ⟨a, rfl⟩ := h
  exact hg a

/-- A fold whose steps all succeed succeeds. -/
theorem exists_foldlM {γ : Type w} {step : α → γ → Except ε α} {xs : List γ}
    (h : ∀ a, ∀ x ∈ xs, ∃ a', step a x = .ok a') (a : α) : ∃ a', xs.foldlM step a = .ok a' := by
  induction xs generalizing a with
  | nil => exact ⟨a, rfl⟩
  | cons x xs ih =>
    obtain ⟨a', ha'⟩ := h a x List.mem_cons_self
    rw [List.foldlM_cons, ha']
    exact ih (fun a y hy => h a y (List.mem_cons_of_mem x hy)) a'

/-- A list is mapped when every entry is. -/
theorem mapM_eq_ok {γ : Type v} {xs : List γ} {g : γ → Except ε β}
    (h : ∀ x ∈ xs, ∃ y, g x = .ok y) :
    ∃ ys, xs.mapM g = .ok ys ∧ ∀ y, y ∈ ys ↔ ∃ x ∈ xs, g x = .ok y := by
  induction xs with
  | nil => exact ⟨[], rfl, by simp⟩
  | cons x xs ih =>
    obtain ⟨y, hy⟩ := h x List.mem_cons_self
    obtain ⟨ys, hys, hmem⟩ := ih fun x hx => h x (List.mem_cons_of_mem _ hx)
    refine ⟨y :: ys, by rw [List.mapM_cons, hy, hys]; rfl, fun z => ?_⟩
    simp [hmem, hy, eq_comm]

/-- What an entry of a mapped list is mapped to. -/
theorem mem_of_mapM {γ : Type v} {xs : List γ} {g : γ → Except ε β} {ys : List β} {x : γ} {y : β}
    (h : xs.mapM g = .ok ys) (hx : x ∈ xs) (hy : g x = .ok y) : y ∈ ys := by
  induction xs generalizing ys with
  | nil => cases hx
  | cons x' xs ih =>
    rw [List.mapM_cons, bind_eq_ok] at h
    obtain ⟨y', hy', h⟩ := h
    obtain ⟨ys', hys', h⟩ := bind_eq_ok.1 h
    cases h
    rcases List.mem_cons.1 hx with rfl | hx
    · cases hy.symm.trans hy'
      exact List.mem_cons_self
    · exact List.mem_cons_of_mem _ (ih hys' hx)

/-- What an entry of a mapped list comes from. -/
theorem exists_of_mem_mapM {γ : Type v} {xs : List γ} {g : γ → Except ε β} {ys : List β} {y : β}
    (h : xs.mapM g = .ok ys) (hy : y ∈ ys) : ∃ x ∈ xs, g x = .ok y := by
  induction xs generalizing ys with
  | nil =>
    cases h
    cases hy
  | cons x xs ih =>
    rw [List.mapM_cons, bind_eq_ok] at h
    obtain ⟨y', hy', h⟩ := h
    obtain ⟨ys', hys', h⟩ := bind_eq_ok.1 h
    cases h
    rcases List.mem_cons.1 hy with rfl | hy
    · exact ⟨x, List.mem_cons_self, hy'⟩
    · obtain ⟨x', hx', h'⟩ := ih hys' hy
      exact ⟨x', List.mem_cons_of_mem _ hx', h'⟩

/-- The computation succeeds, with a result that has the property. -/
def Yields {α : Type} (m : Except Fault α) (P : α → Prop) : Prop :=
  ∃ a, m = .ok a ∧ P a

instance {α : Type} (m : Except Fault α) (P : α → Prop) [DecidablePred P] :
    Decidable (Yields m P) :=
  match m with
  | .ok a => decidable_of_iff (P a) ⟨fun h => ⟨a, rfl, h⟩, fun ⟨_, h, hP⟩ => Except.ok.inj h ▸ hP⟩
  | .error _ => .isFalse fun ⟨_, h, _⟩ => nomatch h

end ByteTrust
