import ByteTrust.Proofs.Interference.Depth
import ByteTrust.Proofs.Lookup
import ByteTrust.Proofs.Snapshot.History
import ByteTrust.Proofs.Snapshot.Trust

/-!
# What waits to be picked up

The snapshots that wait during a walk lie in *bins*: one for each block, one for the back edge of
each iteration, one for the returns of each function and one for what was dropped at the back edge
of each loop. Each small step of the walk is told by what it does to the bins: it leaves a snapshot
in one of them (`State.leave`), or it empties one and goes on with the meet of what was there
(`Picks`), or it leaves all of them as they are (`Still`).

All snapshots of a walk have a common history (`Kept`), so what is picked up is an exact meet.
-/

namespace ByteTrust

@[simp] theorem References.missing_foldl_silence (r : References) (inst : InstId)
    (objects : List ObjectId) :
    (objects.foldl (fun r o => r.silence inst o) r).missing = r.missing := by
  induction objects generalizing r with
  | nil => rfl
  | cons o objects ih => exact ih (r.silence inst o)

namespace Walk

open Snapshot

/-! ## Steps that succeed -/

section Steps

variable {α β : Type} {m : Step α} {f : α → Step β} {x : Except Fault α} {s s' : State} {a a' : α}
  {b : β}

theorem step_bind_eq_ok :
    (m >>= f) s = .ok (b, s') ↔ ∃ a s₁, m s = .ok (a, s₁) ∧ f a s₁ = .ok (b, s') := by
  rw [show (m >>= f) s = m s >>= fun r => f r.1 r.2 from rfl, bind_eq_ok, Prod.exists]

@[simp] theorem step_pure_eq_ok : (pure a : Step α) s = .ok (a', s') ↔ a = a' ∧ s = s' := by
  rw [show (pure a : Step α) s = .ok (a, s) from rfl, Except.ok.injEq, Prod.mk.injEq]

@[simp] theorem step_lift_eq_ok : (liftM x : Step α) s = .ok (a, s') ↔ x = .ok a ∧ s = s' := by
  rw [show (liftM x : Step α) s = x >>= fun a => .ok (a, s) from rfl, bind_eq_ok]
  simp only [Except.ok.injEq, Prod.mk.injEq]
  exact ⟨fun ⟨_, h, ha, hs⟩ => ⟨ha ▸ h, hs⟩, fun ⟨h, hs⟩ => ⟨a, h, rfl, hs⟩⟩

@[simp] theorem step_get_eq_ok {t : State} :
    (get : Step State) s = .ok (t, s') ↔ s = t ∧ s = s' := by
  rw [show (get : Step State) s = .ok (s, s) from rfl, Except.ok.injEq, Prod.mk.injEq]

@[simp] theorem step_modify_eq_ok {g : State → State} {u : Unit} :
    (modify g : Step Unit) s = .ok (u, s') ↔ g s = s' := by
  rw [show (modify g : Step Unit) s = .ok ((), g s) from rfl, Except.ok.injEq, Prod.mk.injEq]
  exact and_iff_right rfl

theorem step_discard_eq_ok {u : PUnit} : discard m s = .ok (u, s') ↔ ∃ a, m s = .ok (a, s') := by
  rw [show discard m s = m s >>= fun r => .ok (PUnit.unit, r.2) from rfl, bind_eq_ok]
  constructor
  · rintro ⟨⟨a, s₁⟩, hm, h⟩
    cases h
    exact ⟨a, hm⟩
  · rintro ⟨a, hm⟩
    exact ⟨(a, s'), hm, rfl⟩

@[simp] theorem tick_eq_ok {now : Stamp} :
    tick s = .ok (now, s') ↔ s.clock = now ∧ { s with clock := s.clock + 1 } = s' := by
  rw [show tick s = .ok (s.clock, { s with clock := s.clock + 1 }) from rfl, Except.ok.injEq,
    Prod.mk.injEq]

@[simp] theorem note_eq_ok {g : Findings → Findings} {u : Unit} :
    note g s = .ok (u, s') ↔ { s with findings := g s.findings } = s' :=
  step_modify_eq_ok

end Steps

/-! ## Bins -/

/-- A place where snapshots wait. -/
inductive Bin
  | block (c : ContextId) (b : BlockId)
  /-- The back edge of an iteration. -/
  | back (c : ContextId)
  | returns (c : ContextId)
  /-- What was dropped at the back edge of a loop. -/
  | closing (c : ContextId) (header : BlockId)
deriving DecidableEq

/-- The context whose walk fills a bin. -/
def Bin.context : Bin → ContextId
  | .block c _ | .back c | .returns c | .closing c _ => c

namespace State

/-- What waits in a bin. -/
def bin (s : State) : Bin → List Snapshot
  | .block c b => (s.incoming.get? (c, b)).getD []
  | .back c => (s.backEdges.get? c).getD []
  | .returns c => (s.returns.get? c).getD []
  | .closing c b => (s.closing.get? (c, b)).getD []

/-- Leave a snapshot in a bin. -/
def leave (s : State) (x : Snapshot) : Bin → State
  | .block c b => { s with incoming := addTo s.incoming (c, b) x }
  | .back c => { s with backEdges := addTo s.backEdges c x }
  | .returns c => { s with returns := addTo s.returns c x }
  | .closing c b => { s with closing := addTo s.closing (c, b) x }

/-- Empty a bin. -/
def clear (s : State) : Bin → State
  | .block c b => { s with incoming := s.incoming.erase (c, b) }
  | .back c => { s with backEdges := s.backEdges.erase c }
  | .returns c => { s with returns := s.returns.erase c }
  | .closing c b => { s with closing := s.closing.erase (c, b) }

/-- Record the need of a read. -/
def record (s : State) (inst : InstId) (need : Need) : State :=
  { s with findings := { s.findings with needs := s.findings.needs.insert inst need } }

end State

section

variable (s : State) (x : Snapshot) (k j : Bin)

theorem getD_addTo {α : Type} [DecidableEq α] (t : Table α (List Snapshot)) (k j : α) :
    ((addTo t k x).get? j).getD [] =
      if j = k then (t.get? j).getD [] ++ [x] else (t.get? j).getD [] := by
  rw [addTo, Table.get?_insert]
  split
  · next h => rw [h, Option.getD_some]
  · rfl

theorem getD_erase {α : Type} [DecidableEq α] (t : Table α (List Snapshot)) (k j : α) :
    ((t.erase k).get? j).getD [] = if j = k then [] else (t.get? j).getD [] := by
  rw [Table.get?_erase]
  split <;> rfl

theorem bin_leave : (s.leave x k).bin j = if j = k then s.bin j ++ [x] else s.bin j := by
  cases k <;> cases j <;> simp [State.leave, State.bin, getD_addTo]

theorem bin_clear : (s.clear k).bin j = if j = k then [] else s.bin j := by
  cases k <;> cases j <;> simp [State.clear, State.bin, getD_erase]

@[simp] theorem findings_leave : (s.leave x k).findings = s.findings := by cases k <;> rfl

@[simp] theorem references_leave : (s.leave x k).references = s.references := by cases k <;> rfl

@[simp] theorem firstCalls_leave : (s.leave x k).firstCalls = s.firstCalls := by cases k <;> rfl

@[simp] theorem clock_leave : (s.leave x k).clock = s.clock := by cases k <;> rfl

@[simp] theorem findings_clear : (s.clear k).findings = s.findings := by cases k <;> rfl

@[simp] theorem references_clear : (s.clear k).references = s.references := by cases k <;> rfl

@[simp] theorem firstCalls_clear : (s.clear k).firstCalls = s.firstCalls := by cases k <;> rfl

@[simp] theorem clock_clear : (s.clear k).clock = s.clock := by cases k <;> rfl

end

variable {s s' s₁ t : State} {k : Bin} {x y z : Snapshot} {H : List Snapshot}

theorem mem_bin_leave {j : Bin} : z ∈ (s.leave x k).bin j ↔ z ∈ s.bin j ∨ j = k ∧ z = x := by
  rw [bin_leave]
  split <;> simp_all

/-- Between two states nothing was left or picked up, no need was recorded, no call was entered
and no loop was finished. -/
structure Still (s s' : State) : Prop where
  bin : ∀ k, s'.bin k = s.bin k
  needs : s'.findings.needs = s.findings.needs
  firstCalls : s'.firstCalls = s.firstCalls
  loopEntries : s'.findings.loopEntries = s.findings.loopEntries
  missing : s.references.missing = ∅ → s'.references.missing = ∅

theorem Still.refl (s : State) : Still s s := ⟨fun _ => rfl, rfl, rfl, rfl, id⟩

theorem Still.trans (h : Still s s₁) (h' : Still s₁ s') : Still s s' :=
  ⟨fun k => (h'.bin k).trans (h.bin k), h'.needs.trans h.needs, h'.firstCalls.trans h.firstCalls,
    h'.loopEntries.trans h.loopEntries, fun hm => h'.missing (h.missing hm)⟩

/-- What is picked up from snapshots that wait: their meet, or nothing when there is none. -/
def IsPickUp (xs : List Snapshot) : Option Snapshot → Prop
  | none => xs = []
  | some x => xs ≠ [] ∧ IsMeet xs x ∧ x.Canonical

/-- A bin is emptied, with `y` as the meet of what waited there. -/
structure Picks (s : State) (k : Bin) (y : Option Snapshot) (s' : State) : Prop where
  still : Still (s.clear k) s'
  meet : IsPickUp (s.bin k) y

/-! ## A common history -/

/-- The snapshots that wait were made, with others, before the present time. -/
structure Kept (s : State) (H : List Snapshot) : Prop where
  history : History s.clock H
  mem : ∀ k, ∀ y ∈ s.bin k, y ∈ H

/-- After a step, the snapshots that wait and what it returns were made from the earlier ones. -/
def Carries (H : List Snapshot) (s' : State) (out : Option Snapshot) : Prop :=
  ∃ H', H ⊆ H' ∧ Kept s' H' ∧ ∀ x ∈ out, x ∈ H'

theorem Kept.canonical (h : Kept s H) (hx : x ∈ H) : x.Canonical := h.history.coherent.1.canonical x hx

/-- Time passes, and nothing else. -/
theorem Kept.still (h : Kept s H) (hclock : s.clock ≤ s'.clock) (hbin : ∀ k, s'.bin k = s.bin k) :
    Kept s' H :=
  ⟨h.history.wait hclock, fun k y hy => h.mem k y (hbin k ▸ hy)⟩

theorem Kept.clear (h : Kept s H) (k : Bin) : Kept (s.clear k) H := by
  refine ⟨by simpa using h.history, fun j y hy => ?_⟩
  rw [bin_clear] at hy
  split at hy
  · cases hy
  · exact h.mem j y hy

theorem Kept.leave (h : Kept s H) (hx : x ∈ H) (k : Bin) : Kept (s.leave x k) H := by
  refine ⟨by simpa using h.history, fun j y hy => ?_⟩
  rcases mem_bin_leave.1 hy with hy | ⟨-, rfl⟩
  · exact h.mem j y hy
  · exact hx

/-- A snapshot is made at the present time, while the clock goes on. -/
theorem Kept.make (h : Kept s H) (hx : Makes s.clock H x) (hclock : s.clock < s'.clock)
    (hbin : ∀ k, s'.bin k = s.bin k) : Kept s' (x :: H) :=
  ⟨(h.history.next hx).wait hclock, fun k y hy => List.mem_cons_of_mem x (h.mem k y (hbin k ▸ hy))⟩

theorem Kept.tick (h : Kept s H) (hx : Makes s.clock H x) :
    Kept { s with clock := s.clock + 1 } (x :: H) :=
  h.make hx (Nat.lt_succ_self s.clock) fun _ => rfl

theorem Kept.carries (h : Kept s' H) {out : Option Snapshot} (hout : ∀ x ∈ out, x ∈ H) :
    Carries H s' out :=
  ⟨H, List.Subset.refl H, h, hout⟩

theorem Kept.carries_none (h : Kept s H) : Carries H s none := h.carries nofun

theorem Carries.mono {H₁ : List Snapshot} {out : Option Snapshot} (hsub : H ⊆ H₁)
    (h : Carries H₁ s' out) : Carries H s' out := by
  obtain ⟨H', hH', hkept, hout⟩ := h
  exact ⟨H', fun z hz => hH' (hsub hz), hkept, hout⟩

theorem Kept.carries_made (h : Kept s H) (hx : Makes s.clock H x) (hclock : s.clock < s'.clock)
    (hbin : ∀ k, s'.bin k = s.bin k) : Carries H s' (some x) := by
  refine ⟨x :: H, List.subset_cons_self x H, h.make hx hclock hbin, ?_⟩
  rintro y ⟨⟩
  exact List.mem_cons_self

theorem meet_spec {xs : List Snapshot} {out : Option Snapshot} (h : meet xs s = .ok (out, s'))
    (hH : Kept s H) (hxs : ∀ x ∈ xs, x ∈ H) : Still s s' ∧ IsPickUp xs out ∧ Carries H s' out := by
  simp only [meet, step_bind_eq_ok, tick_eq_ok, step_lift_eq_ok] at h
  obtain ⟨now, s₁, ⟨rfl, rfl⟩, hmeet, rfl⟩ := h
  refine ⟨⟨fun _ => rfl, rfl, rfl, rfl, id⟩, ?_⟩
  cases out with
  | none =>
    have hnil : xs = [] := by
      cases xs with
      | nil => rfl
      | cons x xs =>
        have hcoh := hH.history.coherent.1.mono hxs
        by_cases howners : ∀ t ∈ xs, t.owners = x.owners
        · obtain ⟨m, hm, -⟩ := hcoh.meetAll_eq_ok howners s.clock
          rw [hm] at hmeet
          cases hmeet
        · obtain ⟨l, r, hm⟩ := hcoh.meetAll_eq_error (by simpa using howners) s.clock
          rw [hm] at hmeet
          cases hmeet
    have hkept : Kept { s with clock := s.clock + 1 } H :=
      hH.still (Nat.le_succ s.clock) fun _ => rfl
    exact ⟨hnil, hkept.carries fun x hx => by cases hx⟩
  | some x =>
    have hmakes : Makes s.clock H x := .meet hxs hmeet
    refine ⟨⟨?_, ((hH.history.coherent.1.mono hxs).isMeet hmeet).1,
      (hmakes.inherits hH.history.coherent.1).canonical⟩,
      hH.carries_made hmakes (Nat.lt_succ_self s.clock) fun _ => rfl⟩
    rintro rfl
    rw [meetAll] at hmeet
    cases hmeet

/-- Emptying a bin and going on with the meet of what was there. -/
theorem pick_spec {out : Option Snapshot} (h : meet (s.bin k) (s.clear k) = .ok (out, s'))
    (hH : Kept s H) : Picks s k out s' ∧ Carries H s' out := by
  obtain ⟨hstill, hpick, hcarries⟩ := meet_spec h (hH.clear k) (hH.mem k)
  exact ⟨⟨hstill, hpick⟩, hcarries⟩

theorem pickUp_eq (c : ContextId) (b : BlockId) (s : State) :
    pickUp c b s = meet (s.bin (.block c b)) (s.clear (.block c b)) := rfl

theorem pickUpBackEdge_eq (c : ContextId) (s : State) :
    pickUpBackEdge c s = meet (s.bin (.back c)) (s.clear (.back c)) := rfl

theorem pickUpReturns_eq (c : ContextId) (s : State) :
    pickUpReturns c s = meet (s.bin (.returns c)) (s.clear (.returns c)) := rfl

theorem leaveFor_eq (c : ContextId) (b : BlockId) (x : Snapshot) (s : State) :
    leaveFor c b x s = .ok ((), s.leave x (.block c b)) := rfl

theorem takeClosing_eq (c : ContextId) (b : BlockId) (s : State) :
    takeClosing c b s = .ok (s.bin (.closing c b), s.clear (.closing c b)) := rfl

/-! ## Instructions -/

/-- The objects whose bytes an operation may make trusted, or no longer trusted. -/
def touched : Operation → List ObjectId
  | .alloc object => [object]
  | .load ptr .. | .store ptr _ | .atomic ptr .. | .memset ptr _ | .readFile ptr _ =>
    ptr.listed.map Pointer.object
  | .memcpy dest src .. => (dest.listed ++ src.listed).map Pointer.object
  | .realloc object source .. => object :: source.listed.map Pointer.object
  | .call site => site.domain.getD []
  | _ => []

/-- A property of snapshots that the small changes of trust in the objects `os` keep. -/
structure Persists (P : Snapshot → Prop) (p : Program) (now : Stamp) (os : List ObjectId) :
    Prop where
  insert : ∀ o ∈ os, ∀ range : ByteRange, range.stop < UInt64.size → ∀ x, P x →
    P (x.modify now (p.slot o) (·.insert range))
  clobber : ∀ o ∈ os, ∀ x, P x → P (x.clobber now (p.slot o))
  clobberAll : ∀ x, P x → P (x.clobberAll now)

section Persists

variable {P : Snapshot → Prop} {p : Program} {settings : Settings} {now : Stamp}
  {os : List ObjectId} {ptr : PointerValue}

theorem Persists.vouch (h : Persists P p now os) (hx : P x)
    (hptr : ∀ target ∈ ptr.listed, target.object ∈ os) (offset : Int) (len : Nat) :
    P (p.vouch now ptr offset len x) := by
  unfold Program.vouch
  split
  · exact hx
  next target hunique =>
  have hmem : target.object ∈ os := by
    refine hptr target ?_
    unfold PointerValue.unique? at hunique
    split at hunique
    · cases hunique
      exact List.mem_singleton_self target
    · cases hunique
  have hinsert {range : ByteRange} (hrange : (target.shift offset).bytes? len = some range) :
      P (x.modify now (p.slot target.object) (·.insert range)) := by
    refine h.insert _ hmem range ?_ x hx
    unfold Pointer.bytes? at hrange
    split at hrange
    · next hfits =>
      cases hrange
      exact hfits.2
    · cases hrange
  split
  · exact hx
  dsimp only
  split
  · next hrange =>
    split
    · exact hinsert hrange
    · exact hx
  · next hrange =>
    split
    · exact hx
    · exact hinsert hrange
  · exact hx

theorem Persists.vouchUnless (h : Persists P p now os) (hx : P x)
    (hptr : ∀ target ∈ ptr.listed, target.object ∈ os) (suppressed : Bool) (offset : Int)
    (len : Nat) : P (p.vouchUnless suppressed now ptr offset len x) := by
  unfold Program.vouchUnless
  split
  · exact hx
  · exact h.vouch hx hptr offset len

theorem Persists.vouchWhole (h : Persists P p now os) (hx : P x) {object : ObjectId}
    (ho : object ∈ os) (suppressed : Bool) : P (match p.sizeOf? object with
    | some size => p.vouchUnless suppressed now (.single object 0) 0 size x
    | none => x) := by
  cases p.sizeOf? object with
  | none => exact hx
  | some size =>
    refine h.vouchUnless hx ?_ suppressed 0 size
    exact List.forall_mem_singleton.2 ho

/-- What the small changes keep, every operation on those objects keeps. -/
theorem Persists.transfer {op : Operation} (h : Persists P p now (touched op)) (hx : P x)
    (need : Option Need) (suppressed : Bool) :
    P (p.transfer settings now op need suppressed x) := by
  have hclobber (os' : List ObjectId) (hos' : ∀ o ∈ os', o ∈ touched op) {y : Snapshot} (hy : P y) :
      P (os'.foldl (fun s o => s.clobber now (p.slot o)) y) := by
    induction os' generalizing y with
    | nil => exact hy
    | cons o os' ih =>
      obtain ⟨ho, hos'⟩ := List.forall_mem_cons.1 hos'
      exact ih hos' (h.clobber o ho y hy)
  have hmap {ptr : PointerValue} : ∀ target ∈ ptr.listed,
      target.object ∈ ptr.listed.map Pointer.object := fun _ => List.mem_map_of_mem
  unfold Program.transfer
  dsimp only
  split
  · exact h.vouchWhole hx List.mem_cons_self _
  · split
    · exact h.clobberAll x hx
    · exact h.vouchUnless hx hmap _ _ _
  · exact h.vouchUnless hx hmap _ _ _
  · split
    · exact h.clobberAll x hx
    · exact h.vouchUnless hx hmap _ _ _
  · exact h.clobberAll x hx
  · exact h.vouchUnless hx hmap _ _ _
  · exact h.vouchUnless hx hmap _ _ _
  · refine h.vouchUnless (h.vouchUnless hx ?_ _ _ _) ?_ _ _ _
    · exact fun _ ht => List.mem_map_of_mem (List.mem_append_left _ ht)
    · exact fun _ ht => List.mem_map_of_mem (List.mem_append_right _ ht)
  · refine h.vouchWhole (h.vouchUnless (h.vouchUnless hx ?_ _ _ _) ?_ _ _ _) List.mem_cons_self _
    · exact List.forall_mem_singleton.2 List.mem_cons_self
    · exact fun _ ht => List.mem_cons_of_mem _ (hmap _ ht)
  · exact h.vouchWhole hx List.mem_cons_self _
  · unfold Program.transferCall
    split
    · split
      · next hdomain => exact hclobber _ (fun o ho => by simpa [touched, hdomain] using ho) hx
      · exact h.clobberAll x hx
    · exact hx
  · exact hx

theorem persists_makes (os : List ObjectId) : Persists (Makes now H) p now os :=
  ⟨fun _ _ range _ _ hx => hx.modify _ fun _ h => h.insert range,
    fun o _ _ hx => hx.clobber (p.slot o), fun _ hx => hx.clobberAll⟩

theorem makes_vouchUnless (hx : Makes now H x) (suppressed : Bool) (ptr : PointerValue)
    (offset : Int) (len : Nat) : Makes now H (p.vouchUnless suppressed now ptr offset len x) :=
  (persists_makes (ptr.listed.map Pointer.object)).vouchUnless hx (fun _ => List.mem_map_of_mem)
    suppressed offset len

theorem makes_transfer (hx : Makes now H x) (op : Operation) (need : Option Need)
    (suppressed : Bool) : Makes now H (p.transfer settings now op need suppressed x) :=
  (persists_makes (touched op)).transfer hx need suppressed

end Persists

variable {w : Setting} {scope : Scope}

/-- Giving up values changes nothing, or gives up objects without a surviving reference. -/
theorem silence_cases {inst : InstId} {values : List SpecValue} {b : Bool}
    (h : silence w inst values s = .ok (b, s')) :
    b = false ∧ s' = s ∨ ∃ objects : List ObjectId, b = true ∧ objects ≠ [] ∧
      (∀ o ∈ objects, o ∈ s.references.missing) ∧
      (∀ o ∈ objects, w.program.needsReference o = true) ∧
      s' = { s with
        references := objects.foldl (fun r o => r.silence inst o) s.references
        findings := { s.findings with silenced := s.findings.silenced.insert inst } } := by
  simp only [silence, step_bind_eq_ok, step_get_eq_ok] at h
  obtain ⟨_, _, ⟨rfl, rfl⟩, h⟩ := h
  split at h
  · obtain ⟨rfl, rfl⟩ := step_pure_eq_ok.1 h
    exact .inl ⟨rfl, rfl⟩
  · next hobjects =>
    simp only [step_bind_eq_ok, step_modify_eq_ok, note_eq_ok, step_pure_eq_ok] at h
    obtain ⟨_, _, rfl, _, _, rfl, rfl, rfl⟩ := h
    have hlost : ∀ o ∈ (values.filterMap SpecValue.object?).filter fun o =>
        w.program.needsReference o && s.references.missing.contains o,
        w.program.needsReference o = true ∧ o ∈ s.references.missing :=
      fun o ho => (Bool.and_eq_true _ _).mp (List.mem_filter.1 ho).2
    exact .inr ⟨_, rfl, fun hnil => hobjects (by rw [hnil]; rfl), fun o ho => (hlost o ho).2,
      fun o ho => (hlost o ho).1, rfl⟩

/-- Promoting a value changes nothing, or makes it the reference of an object that had none. -/
theorem promote_cases {inst : InstId} {result : ReadValue} {u : Unit}
    (h : promote w inst result s = .ok (u, s')) :
    s' = s ∨ ∃ o promotions, namedObject? result = some o ∧ o ∈ s.references.missing ∧
      w.program.needsReference o = true ∧
      (promotions = s.findings.promotions ∧ (o, inst) ∈ s.findings.promotions ∨
        promotions = s.findings.promotions ++ [(o, inst)]) ∧
      s' = { s with
        references := s.references.promote o inst
        findings := { s.findings with promotions := promotions } } := by
  unfold promote at h
  cases hobject : namedObject? result with
  | none =>
    rw [hobject] at h
    exact .inl (step_pure_eq_ok.1 h).2.symm
  | some object =>
    rw [hobject] at h
    simp only [step_bind_eq_ok, step_get_eq_ok] at h
    obtain ⟨_, _, ⟨rfl, rfl⟩, h⟩ := h
    split at h
    · next hmissing =>
      rw [Bool.and_eq_true] at hmissing
      simp only [step_bind_eq_ok, step_modify_eq_ok, note_eq_ok] at h
      obtain ⟨_, _, rfl, rfl⟩ := h
      refine .inr ⟨object, if s.findings.promotions.contains (object, inst) then
        s.findings.promotions else s.findings.promotions ++ [(object, inst)], rfl, hmissing.2,
        hmissing.1, ?_, ?_⟩
      · split
        · next hin => exact .inl ⟨rfl, List.contains_iff_mem.1 hin⟩
        · exact .inr rfl
      · dsimp only
        split <;> rfl
    · exact .inl (step_pure_eq_ok.1 h).2.symm

theorem silence_spec {inst : InstId} {values : List SpecValue} {b : Bool}
    (h : silence w inst values s = .ok (b, s')) :
    Still s s' ∧ s'.clock = s.clock ∧ (s.references.missing = ∅ → b = false) := by
  obtain ⟨rfl, rfl⟩ | ⟨objects, rfl, hne, hobjects, -, rfl⟩ := silence_cases h
  · exact ⟨.refl s', rfl, fun _ => rfl⟩
  · refine ⟨⟨fun k => by cases k <;> rfl, rfl, rfl, rfl, fun hm => ?_⟩, rfl, fun hm => ?_⟩
    · rw [← hm]
      exact References.missing_foldl_silence s.references inst objects
    obtain ⟨o, os, rfl⟩ := List.exists_cons_of_ne_nil hne
    have ho := hobjects o List.mem_cons_self
    rw [hm] at ho
    exact absurd ho (IdentSet.not_mem_empty o)

theorem promote_spec {inst : InstId} {result : ReadValue} {u : Unit}
    (h : promote w inst result s = .ok (u, s')) : Still s s' ∧ s'.clock = s.clock := by
  obtain rfl | ⟨o, promotions, -, ho, -, -, rfl⟩ := promote_cases h
  · exact ⟨.refl s', rfl⟩
  · refine ⟨⟨fun k => by cases k <;> rfl, rfl, rfl, rfl, fun hm => ?_⟩, rfl⟩
    rw [hm] at ho
    exact absurd ho (IdentSet.not_mem_empty o)

/-- What is decided on a visit of a read with the need `need`: the state before the need is
recorded, and the need that is recorded. -/
inductive Decides (w : Setting) (scope : Scope) (certain : Bool) (inst : Instr) (need : Need)
    (s : State) : State → Need → Prop
  | checked {b : Bool} {s₁ : State} (hmust : need = .must)
      (h : silence w inst.id inst.op.readValues { s with findings := { s.findings with
        tentative := s.findings.tentative.insert scope.context } } = .ok (b, s₁)) :
      Decides w scope certain inst need s s₁ (if b then .never else need)
  | promoted {ptr : PointerValue} {size : Nat} {ordering : AccessOrdering} {result : ReadValue}
      {u : Unit} {s₁ : State} (hmust : need ≠ .must) (hop : inst.op = .load ptr size ordering result)
      (h : promote w inst.id result s = .ok (u, s₁)) :
      Decides w scope certain inst need s s₁ need
  | safe (hmust : need ≠ .must) : Decides w scope certain inst need s s need

/-- A visit of a read decides, records the need and the visit, and applies the effect. -/
theorem visitRead_cases {certain : Bool} {inst : Instr}
    (h : visitRead w scope certain inst x s = .ok (y, s')) :
    ∃ s₁ recorded, Decides w scope certain inst
        (needNow w inst x (s.findings.needs.get? inst.id)) s s₁ recorded ∧
      y = w.program.transfer w.settings s₁.clock inst.op
        (some (needNow w inst x (s.findings.needs.get? inst.id))) scope.suppressed x ∧
      s' = { s₁ with
        clock := s₁.clock + 1
        findings := { s₁.findings with needs := s₁.findings.needs.insert inst.id recorded }
        visits := ⟨scope.context, inst, x, y⟩ :: s₁.visits } := by
  simp only [visitRead, step_bind_eq_ok, step_get_eq_ok] at h
  obtain ⟨_, _, ⟨rfl, rfl⟩, h⟩ := h
  generalize needNow w inst x (s.findings.needs.get? inst.id) = need at h ⊢
  -- the last steps record the need and the visit
  have hend {recorded : Need} {s₁ : State}
      (hdecides : Decides w scope certain inst need s s₁ recorded)
      (h : (do
        let recorded ← pure recorded
        note fun f => { f with needs := f.needs.insert inst.id recorded }
        let after := w.program.transfer w.settings (← tick) inst.op (some need) scope.suppressed x
        modify fun s => { s with visits := ⟨scope.context, inst, x, after⟩ :: s.visits }
        return after : Step Snapshot) s₁ = .ok (y, s')) :
      ∃ s₁ recorded, Decides w scope certain inst need s s₁ recorded ∧
        y = w.program.transfer w.settings s₁.clock inst.op (some need) scope.suppressed x ∧
        s' = { s₁ with
          clock := s₁.clock + 1
          findings := { s₁.findings with needs := s₁.findings.needs.insert inst.id recorded }
          visits := ⟨scope.context, inst, x, y⟩ :: s₁.visits } := by
    obtain ⟨_, _, hpure, h⟩ := step_bind_eq_ok.1 h
    obtain ⟨rfl, rfl⟩ := step_pure_eq_ok.1 hpure
    simp only [step_bind_eq_ok, note_eq_ok, tick_eq_ok, step_modify_eq_ok, step_pure_eq_ok] at h
    obtain ⟨_, _, rfl, _, _, ⟨rfl, rfl⟩, _, _, rfl, rfl, rfl⟩ := h
    exact ⟨s₁, recorded, hdecides, rfl, rfl⟩
  split at h
  · next hmust =>
    simp only [step_bind_eq_ok, note_eq_ok] at h
    obtain ⟨_, _, rfl, silent, s₁, hsilence, h⟩ := h
    refine hend (.checked hmust hsilence) ?_
    split at h <;> simpa only [*, if_true, Bool.false_eq_true, if_false] using h
  · next hmust =>
    cases hop : inst.op with
    | load ptr size ordering result =>
      simp only [hop] at h
      split at h
      · obtain ⟨_, s₁, hpromote, h⟩ := step_bind_eq_ok.1 h
        rw [← hop] at h
        exact hop ▸ hend (.promoted hmust hop hpromote) h
      · rw [← hop] at h
        exact hop ▸ hend (.safe hmust) h
    | _ =>
      simp only [hop] at h
      rw [← hop] at h
      exact hop ▸ hend (.safe hmust) h

/-- What a visit of an instruction other than an inlined call does: it records the need of a read,
and changes the snapshot. -/
inductive Visits (w : Setting) (scope : Scope) (inst : Instr) (x : Snapshot) (s : State) :
    Snapshot → State → Prop
  | read {need recorded : Need} {now : Stamp} {s' : State} (hread : inst.op.readsMemory = true)
      (hneed : need = needNow w inst x (s.findings.needs.get? inst.id))
      (hrecorded : recorded = need ∨ recorded = .never)
      (hmissing : s.references.missing = ∅ → recorded = need)
      (hstill : Still (s.record inst.id recorded) s') :
      Visits w scope inst x s
        (w.program.transfer w.settings now inst.op (some need) scope.suppressed x) s'
  | own {s' : State} (hread : inst.op.readsMemory = false) (hlocal : inst.threadLocal = true)
      (hstill : Still s s') : Visits w scope inst x s x s'
  | other {now : Stamp} {s' : State} (hread : inst.op.readsMemory = false)
      (hlocal : inst.threadLocal = false) (hstill : Still s s') :
      Visits w scope inst x s
        (w.program.transfer w.settings now inst.op none scope.suppressed x) s'

theorem visitRead_spec {certain : Bool} {inst : Instr} (hread : inst.op.readsMemory = true)
    (h : visitRead w scope certain inst x s = .ok (y, s')) (hH : Kept s H) (hx : x ∈ H) :
    Visits w scope inst x s y s' ∧ Carries H s' (some y) := by
  obtain ⟨s₁, recorded, hdecides, rfl, rfl⟩ := visitRead_cases h
  have hstill : Still s s₁ ∧ s₁.clock = s.clock := by
    cases hdecides with
    | checked _ hsilence =>
      obtain ⟨hstill, hclock, -⟩ := silence_spec hsilence
      exact ⟨⟨hstill.bin, hstill.needs, hstill.firstCalls, hstill.loopEntries, hstill.missing⟩,
        hclock⟩
    | promoted _ _ hpromote => exact promote_spec hpromote
    | safe => exact ⟨.refl s, rfl⟩
  obtain ⟨hstill, hclock⟩ := hstill
  constructor
  · refine .read hread rfl (?_ : recorded = _ ∨ recorded = .never) ?_ ⟨fun k => ?_, ?_,
      hstill.firstCalls, hstill.loopEntries, hstill.missing⟩
    · cases hdecides with
      | @checked b => cases b <;> simp
      | promoted | safe => exact .inl rfl
    · intro hmissing
      cases hdecides with
      | checked _ hsilence => simp [(silence_spec hsilence).2.2 hmissing]
      | promoted | safe => rfl
    · exact (by cases k <;> rfl : _ = s₁.bin k).trans (hstill.bin k)
    · simp [State.record, hstill.needs]
  · dsimp only
    rw [hclock]
    exact hH.carries_made (makes_transfer (.held hx) _ _ _) (Nat.lt_succ_self s.clock) hstill.bin

theorem visitInstr_spec {certain : Bool} {inst : Instr}
    (h : visitInstr w scope certain inst x s = .ok (y, s')) (hH : Kept s H) (hx : x ∈ H) :
    Visits w scope inst x s y s' ∧ Carries H s' (some y) := by
  unfold visitInstr at h
  split at h
  · next hread => exact visitRead_spec hread h hH hx
  next hread =>
  have hread : inst.op.readsMemory = false := Bool.eq_false_iff.2 hread
  split at h
  · next hlocal =>
    obtain ⟨rfl, rfl⟩ := step_pure_eq_ok.1 h
    refine ⟨.own hread hlocal (.refl s), hH.carries ?_⟩
    rintro y ⟨⟩
    exact hx
  next hlocal =>
  have hlocal : inst.threadLocal = false := Bool.eq_false_iff.2 hlocal
  have hend {s₁ : State} (hstill : Still s s₁) (hclock : s₁.clock = s.clock)
      (h : (do return w.program.transfer w.settings (← tick) inst.op none scope.suppressed x :
        Step Snapshot) s₁ = .ok (y, s')) :
      Visits w scope inst x s y s' ∧ Carries H s' (some y) := by
    simp only [step_bind_eq_ok, tick_eq_ok, step_pure_eq_ok] at h
    obtain ⟨_, _, ⟨rfl, rfl⟩, rfl, rfl⟩ := h
    refine ⟨.other hread hlocal ⟨hstill.bin, hstill.needs, hstill.firstCalls, hstill.loopEntries,
      hstill.missing⟩, ?_⟩
    rw [hclock]
    exact hH.carries_made (makes_transfer (.held hx) _ _ _) (Nat.lt_succ_self s.clock) hstill.bin
  cases hop : inst.op with
  | call site =>
    simp only [hop] at h
    split at h
    · obtain ⟨_, s₁, hpromote, h⟩ := step_bind_eq_ok.1 h
      rw [← hop] at h
      exact hend (promote_spec hpromote).1 (promote_spec hpromote).2 h
    · rw [← hop] at h
      exact hend (.refl s) rfl h
  | _ =>
    simp only [hop] at h
    rw [← hop] at h
    exact hend (.refl s) rfl h

/-! ## Calls -/

/-- The end of an inlined call whose callee returned with `x`; `lost` says whether all trust is
lost. -/
def afterCall (w : Setting) (scope : Scope) (certain : Bool) (inst : InstId) (site : CallSite)
    (lost : Bool) (x : Snapshot) : Step (Option Snapshot) := do
  if lost then
    discard (silence w inst site.result.values)
    return some (x.clobberAll (← tick))
  if !scope.suppressed && certain then promote w inst site.result
  return some x

theorem afterCall_cases {certain lost : Bool} {inst : InstId} {site : CallSite}
    {out : Option Snapshot} (h : afterCall w scope certain inst site lost x s = .ok (out, s')) :
    (lost = true ∧ ∃ b s₁, silence w inst site.result.values s = .ok (b, s₁) ∧
      out = some (x.clobberAll s₁.clock) ∧ s' = { s₁ with clock := s₁.clock + 1 }) ∨
    (lost = false ∧ out = some x ∧
      (s' = s ∨ ∃ u, promote w inst site.result s = .ok (u, s'))) := by
  unfold afterCall at h
  cases lost with
  | true =>
    simp only [if_true, step_bind_eq_ok, tick_eq_ok, step_pure_eq_ok] at h
    obtain ⟨_, s₁, hdiscard, _, _, ⟨rfl, rfl⟩, rfl, rfl⟩ := h
    obtain ⟨b, hsilence⟩ := step_discard_eq_ok.1 hdiscard
    exact .inl ⟨rfl, b, s₁, hsilence, rfl, rfl⟩
  | false =>
    simp only [Bool.false_eq_true, if_false] at h
    split at h
    · obtain ⟨u, s₁, hpromote, h⟩ := step_bind_eq_ok.1 h
      obtain ⟨rfl, rfl⟩ := step_pure_eq_ok.1 h
      exact .inr ⟨rfl, rfl, .inr ⟨u, hpromote⟩⟩
    · obtain ⟨rfl, rfl⟩ := step_pure_eq_ok.1 h
      exact .inr ⟨rfl, rfl, .inl rfl⟩

/-- How an inlined call ends: the callee was walked from another call before, or it never returns,
or it returns. -/
inductive CallEnds (w : Setting) (inner : Scope → Step Unit) (scope : Scope) (certain : Bool)
    (inst : InstId) (site : CallSite) (callee : ContextId) (x : Snapshot) (s : State) :
    Option Snapshot → State → Prop
  | shared {other : InstId} (hother : s.firstCalls.get? callee = some other) (hne : other ≠ inst) :
      CallEnds w inner scope certain inst site callee x s (some (x.clobberAll s.clock))
        { s with
          clock := s.clock + 1
          findings := { s.findings with
            sharedCalls := s.findings.sharedCalls ++ [(callee, inst)] } }
  | stuck {c : Context} {s' : State}
      (hown : ∀ i, s.firstCalls.get? callee = some i → i = inst)
      (hc : w.program.context callee = .ok c)
      (hfunction : walkFunction w inner callee scope.loops (scope.suppressed || !c.materialized) x
        { s with firstCalls := s.firstCalls.insert callee inst } = .ok (none, s')) :
      CallEnds w inner scope certain inst site callee x s none s'
  | returned {c : Context} {y : Snapshot} {lost : Bool} {out : Option Snapshot} {s₁ s' : State}
      (hown : ∀ i, s.firstCalls.get? callee = some i → i = inst)
      (hc : w.program.context callee = .ok c)
      (hfunction : walkFunction w inner callee scope.loops (scope.suppressed || !c.materialized) x
        { s with firstCalls := s.firstCalls.insert callee inst } = .ok (some y, s₁))
      (hlost : lost = true ↔
        c.materialized = false ∧ w.program.isTentative s₁.findings callee = .ok true)
      (hafter : afterCall w scope certain inst site lost y s₁ = .ok (out, s')) :
      CallEnds w inner scope certain inst site callee x s out s'

theorem walkCall_cases {inner : Scope → Step Unit} {certain : Bool} {inst : InstId}
    {site : CallSite} {callee : ContextId} {out : Option Snapshot}
    (h : walkCall w inner scope certain inst site callee x s = .ok (out, s')) :
    CallEnds w inner scope certain inst site callee x s out s' := by
  simp only [walkCall, step_bind_eq_ok, step_get_eq_ok] at h
  obtain ⟨_, _, ⟨rfl, rfl⟩, h⟩ := h
  split at h
  · next hother =>
    obtain ⟨other, hget, hne⟩ := (Option.any_eq_true ..).1 hother
    simp only [step_bind_eq_ok, note_eq_ok, tick_eq_ok, step_pure_eq_ok] at h
    obtain ⟨_, _, rfl, _, _, ⟨rfl, rfl⟩, rfl, rfl⟩ := h
    exact .shared hget (of_decide_eq_true hne)
  · next hsame =>
    have hown : ∀ i, s.firstCalls.get? callee = some i → i = inst := fun i hi => by
      simpa [hi] using hsame
    simp only [step_bind_eq_ok, step_modify_eq_ok, step_lift_eq_ok] at h
    obtain ⟨_, _, rfl, c, _, ⟨hc, rfl⟩, y, s₁, hfunction, h⟩ := h
    cases y with
    | none =>
      obtain ⟨rfl, rfl⟩ := step_pure_eq_ok.1 h
      exact .stuck hown hc hfunction
    | some y =>
      -- whether all trust is lost is asked of the findings at hand
      obtain ⟨_, _, hget, h⟩ := step_bind_eq_ok.1 h
      obtain ⟨rfl, rfl⟩ := step_get_eq_ok.1 hget
      split at h
      · next hemitted =>
        obtain ⟨lost, _, hpure, h⟩ := step_bind_eq_ok.1 h
        obtain ⟨rfl, rfl⟩ := step_pure_eq_ok.1 hpure
        exact .returned hown hc hfunction (by simp [hemitted]) h
      · next hemitted =>
        obtain ⟨lost, _, hlift, h⟩ := step_bind_eq_ok.1 h
        obtain ⟨htentative, rfl⟩ := step_lift_eq_ok.1 hlift
        exact .returned hown hc hfunction (by simp [hemitted, htentative]) h

/-! ## The end of a block -/

/-- The bin where a snapshot goes. -/
def Destination.bin : Destination → Bin
  | .block c b => .block c b
  | .nextIteration c => .back c
  | .closing c header => .closing c header

theorem leaveAt_eq (x : Snapshot) (d : Destination) (s : State) :
    leaveAt x d s = .ok ((), s.leave x d.bin) := by
  cases d <;> rfl

theorem filterMapM_lift_eq_ok {α β : Type} {f : α → Except Fault (Option β)} {as : List α}
    {bs : List β} (h : as.filterMapM (fun a => (liftM (f a) : Step (Option β))) s = .ok (bs, s')) :
    s = s' ∧ (∀ a ∈ as, ∃ o, f a = .ok o) ∧ ∀ b, b ∈ bs ↔ ∃ a ∈ as, f a = .ok (some b) := by
  induction as generalizing bs with
  | nil =>
    rw [List.filterMapM_nil, step_pure_eq_ok] at h
    obtain ⟨rfl, rfl⟩ := h
    simp
  | cons a as ih =>
    rw [List.filterMapM_cons, step_bind_eq_ok] at h
    obtain ⟨o, _, hlift, h⟩ := h
    obtain ⟨ho, rfl⟩ := step_lift_eq_ok.1 hlift
    cases o with
    | none =>
      obtain ⟨hs, hall, hmem⟩ := ih h
      refine ⟨hs, List.forall_mem_cons.2 ⟨⟨none, ho⟩, hall⟩, fun b => ?_⟩
      simp [hmem, ho]
    | some b' =>
      obtain ⟨bs', _, htail, hbs⟩ := step_bind_eq_ok.1 h
      obtain ⟨rfl, rfl⟩ := step_pure_eq_ok.1 hbs
      obtain ⟨hs, hall, hmem⟩ := ih htail
      refine ⟨hs, List.forall_mem_cons.2 ⟨⟨some b', ho⟩, hall⟩, fun b => ?_⟩
      simp [hmem, ho, eq_comm]

/-- What comes after the end of a block, if the end is reached. -/
inductive Finishes (w : Setting) (scope : Scope) (block : Block) :
    Option Snapshot → State → State → Prop
  | stuck {s : State} : Finishes w scope block none s s
  | unreachable {x : Snapshot} {s : State} (hend : block.terminator = .unreachable) :
      Finishes w scope block (some x) s s
  | dropped {x : Snapshot} {s : State} (hend : block.terminator = .ret)
      (hfirst : inFirstPassOf w scope (w.layout.functionRoot scope.context) = true) :
      Finishes w scope block (some x) s s
  | ret {x y : Snapshot} {c : ContextId} {now : Stamp} {s s' : State}
      (hend : block.terminator = .ret)
      (hfirst : inFirstPassOf w scope (w.layout.functionRoot scope.context) = false)
      (hpop : x.popFrame now = .ok (c, y))
      (hstill : Still (s.leave y (.returns (w.layout.functionRoot scope.context))) s') :
      Finishes w scope block (some x) s s'
  | branch {x : Snapshot} {ds : List Destination} {s : State} (hend : block.terminator = .branch)
      (hroute : ∀ target ∈ block.liveSuccs, ∃ d, route w scope block.id target = .ok d)
      (hds : ∀ d, d ∈ ds ↔ ∃ target ∈ block.liveSuccs,
        route w scope block.id target = .ok (some d)) :
      Finishes w scope block (some x) s (ds.foldl (fun s d => s.leave x d.bin) s)

theorem Kept.foldl_leave {ds : List Destination} (h : Kept s H) (hx : x ∈ H) :
    Kept (ds.foldl (fun s d => s.leave x d.bin) s) H := by
  induction ds generalizing s with
  | nil => exact h
  | cons d ds ih => exact ih (h.leave hx d.bin)

theorem forM_leaveAt_eq_ok {ds : List Destination} {u : Unit}
    (h : ds.forM (leaveAt x) s = .ok (u, s')) : ds.foldl (fun s d => s.leave x d.bin) s = s' := by
  induction ds generalizing s with
  | nil => exact (step_pure_eq_ok.1 h).2
  | cons d ds ih =>
    obtain ⟨_, s₁, hd, h⟩ := step_bind_eq_ok.1 h
    rw [leaveAt_eq] at hd
    cases hd
    exact ih h

theorem finishBlock_spec {block : Block} {u : Unit}
    (h : finishBlock w scope block x s = .ok (u, s')) (hH : Kept s H) (hx : x ∈ H) :
    Finishes w scope block (some x) s s' ∧ Carries H s' none := by
  unfold finishBlock at h
  cases hend : block.terminator with
  | ret =>
    simp only [hend] at h
    split at h
    · next hfirst =>
      obtain ⟨-, rfl⟩ := step_pure_eq_ok.1 h
      exact ⟨.dropped hend hfirst, hH.carries_none⟩
    · next hfirst =>
      simp only [step_bind_eq_ok, tick_eq_ok, step_lift_eq_ok, step_modify_eq_ok] at h
      obtain ⟨_, _, ⟨rfl, rfl⟩, ⟨c, y⟩, _, ⟨hpop, rfl⟩, rfl⟩ := h
      have hkept := (hH.tick (.popFrame (.held hx) hpop)).leave List.mem_cons_self
        (.returns (w.layout.functionRoot scope.context))
      exact ⟨.ret hend (Bool.eq_false_iff.2 hfirst) hpop
        ⟨fun k => by cases k <;> rfl, rfl, rfl, rfl, id⟩,
        hkept.carries_none.mono (List.subset_cons_self y H)⟩
  | unreachable =>
    simp only [hend] at h
    obtain ⟨-, rfl⟩ := step_pure_eq_ok.1 h
    exact ⟨.unreachable hend, hH.carries_none⟩
  | branch =>
    simp only [hend, step_bind_eq_ok] at h
    obtain ⟨ds, _, hds, h⟩ := h
    obtain ⟨rfl, hroute, hmem⟩ := filterMapM_lift_eq_ok hds
    rw [← forM_leaveAt_eq_ok h]
    exact ⟨.branch hend hroute hmem, (hH.foldl_leave hx).carries_none⟩

end Walk

end ByteTrust
