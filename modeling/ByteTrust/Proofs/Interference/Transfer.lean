import ByteTrust.Interference.Transfer
import ByteTrust.Proofs.Snapshot.Trust

/-!
# What an instruction does to trusted bytes

The effect of an operation is told without the snapshot it works on (`Program.effect`): some ranges
of bytes become trusted, or some objects lose all trust, or every object does
(`transfer_hasEffect`). So at each byte trust is given, taken or left (`transfer_flows`).

The less a snapshot trusts, the stronger the need of a read is (`need_antitone`), provided that no
read is empty: an empty read of an object that is listed without bytes is safe, and of one that is
not listed it need not be.
-/

namespace ByteTrust

open Snapshot

/-- Answers from the weakest to the strongest. -/
instance : LE Need := ⟨fun a b => a.max b = b⟩

instance (a b : Need) : Decidable (a ≤ b) := inferInstanceAs (Decidable (a.max b = b))

namespace Need

variable {a b c : Need}

theorem le_refl (a : Need) : a ≤ a := by cases a <;> rfl

theorem le_trans (hab : a ≤ b) (hbc : b ≤ c) : a ≤ c := by
  revert hab hbc
  cases a <;> cases b <;> cases c <;> decide

theorem le_max_left (a b : Need) : a ≤ a.max b := by cases a <;> cases b <;> rfl

theorem le_max_right (a b : Need) : b ≤ a.max b := by cases a <;> cases b <;> rfl

theorem max_le_max {a' b' : Need} (ha : a ≤ a') (hb : b ≤ b') : a.max b ≤ a'.max b' := by
  revert ha hb
  cases a <;> cases a' <;> cases b <;> cases b' <;> decide

theorem ofBool_le {x y : Bool} (h : x = true → y = true) : ofBool x ≤ ofBool y := by
  cases x <;> cases y <;> first | rfl | cases h rfl

theorem foldl_max_le {α : Type} {f g : α → Need} {as : List α} (h : ∀ a ∈ as, f a ≤ g a)
    (hab : a ≤ b) : (as.map f).foldl max a ≤ (as.map g).foldl max b := by
  induction as generalizing a b with
  | nil => exact hab
  | cons x as ih =>
    exact ih (fun y hy => h y (List.mem_cons_of_mem x hy))
      (max_le_max hab (h x List.mem_cons_self))

theorem max_comm (a b : Need) : a.max b = b.max a := by cases a <;> cases b <;> rfl

theorem max_eq_never (h : a.max b = .never) : a = .never ∧ b = .never := by
  cases a <;> cases b <;> first | exact ⟨rfl, rfl⟩ | cases h

theorem max_eq_must (h : a.max b = .must) : a = .must ∨ b = .must := by
  cases a <;> cases b <;> first | exact .inl rfl | exact .inr rfl | cases h

theorem foldl_max_eq_never {as : List Need} :
    as.foldl max a = .never ↔ a = .never ∧ ∀ b ∈ as, b = .never := by
  induction as generalizing a with
  | nil => simp
  | cons b as ih =>
    rw [List.foldl_cons, ih, List.forall_mem_cons, ← and_assoc]
    refine and_congr_left fun _ => ⟨max_eq_never, ?_⟩
    rintro ⟨rfl, rfl⟩
    rfl

theorem foldl_max_eq_must {as : List Need} :
    as.foldl max a = .must ↔ a = .must ∨ .must ∈ as := by
  induction as generalizing a with
  | nil => simp
  | cons b as ih =>
    rw [List.foldl_cons, ih, List.mem_cons, ← or_assoc]
    refine or_congr_left ⟨fun h => (max_eq_must h).imp_right Eq.symm, ?_⟩
    rintro (rfl | rfl)
    · rfl
    · cases a <;> rfl

theorem ofBool_eq_must {x : Bool} : ofBool x = .must ↔ x = true := by cases x <;> decide

end Need

/-- No range of bytes whose value is looked at is empty. -/
def Operation.ReadsBytes : Operation → Prop
  | .load _ _ _ (.pieces ps) => ∀ piece ∈ ps, 0 < piece.length
  | .load _ size _ _ => 0 < size
  | .memcpy _ _ _ copied => ∀ piece ∈ copied, 0 < piece.length
  | .realloc _ _ _ copied => ∀ piece ∈ copied, 0 < piece.length
  | _ => True

variable {p : Program} {settings : Settings} {cs : List ContextId} {s t : Snapshot}

namespace Program

/-! ## Transfer -/

/-- The bytes that `vouch` makes trusted. -/
def vouched (p : Program) (ptr : PointerValue) (offset : Int) (len : Nat) :
    List (Slot × ByteRange) :=
  match ptr.unique? with
  | none => []
  | some target =>
    if p.isConstant target.object then []
    else
      match (target.shift offset).bytes? len with
      | some range => [(p.slot target.object, range)]
      | none => []

/-- The bytes that `vouchUnless` makes trusted. -/
def vouchedUnless (p : Program) (suppressed : Bool) (ptr : PointerValue) (offset : Int)
    (len : Nat) : List (Slot × ByteRange) :=
  if suppressed then [] else p.vouched ptr offset len

/-- All bytes of an object with a declared size, outside of suppressed contexts. -/
def vouchedWhole (p : Program) (suppressed : Bool) (object : ObjectId) : List (Slot × ByteRange) :=
  match p.sizeOf? object with
  | some size => p.vouchedUnless suppressed (.single object 0) 0 size
  | none => []

/-- What a call that is not inlined does to trusted bytes. -/
def callEffect (p : Program) (settings : Settings) (site : CallSite) : Effect :=
  if yieldsAt settings site then
    match site.domain with
    | some objects => .clobber (objects.map p.slot)
    | none => .clobberAll
  else .vouch []

/-- What an operation does to trusted bytes, whatever the snapshot. -/
def effect (p : Program) (settings : Settings) (op : Operation) (need : Option Need)
    (suppressed : Bool) : Effect :=
  let vouched (ptr : PointerValue) (len : Nat) := p.vouchedUnless suppressed ptr 0 len
  match op with
  | .alloc object => .vouch (p.vouchedWhole suppressed object)
  | .load ptr size ordering _ =>
    if ordering = .ordered then .clobberAll else .vouch (vouched ptr size)
  | .store ptr size => .vouch (vouched ptr size)
  | .atomic ptr size ordering _ =>
    if need = some .must ∧ ordering ≠ .orderedSimple then .clobberAll
    else .vouch (vouched ptr size)
  | .fence => .clobberAll
  | .memset dest (some len) => .vouch (vouched dest len)
  | .readFile dest (some len) => .vouch (vouched dest len)
  | .memcpy dest src (some len) _ => .vouch (vouched dest len ++ vouched src len)
  | .realloc object source (some len) _ =>
    .vouch (vouched (.single object 0) len ++ vouched source len ++
      p.vouchedWhole suppressed object)
  | .realloc object _ none _ => .vouch (p.vouchedWhole suppressed object)
  | .call site => p.callEffect settings site
  | _ => .vouch []

theorem vouch_hasEffect (ptr : PointerValue) (offset : Int) (len : Nat) :
    HasEffect cs (fun now s => p.vouch now ptr offset len s)
      (.vouch (p.vouched ptr offset len)) := by
  cases htarget : ptr.unique? with
  | none => simpa [vouch, vouched, htarget] using hasEffect_id
  | some target =>
    by_cases hconst : p.isConstant target.object = true
    · simpa [vouch, vouched, htarget, hconst] using hasEffect_id
    cases hrange : (target.shift offset).bytes? len with
    | none =>
      have hid (now : Stamp) (s : Snapshot) : p.vouch now ptr offset len s = s := by
        simp only [vouch, htarget, hconst, hrange]
        cases s.bytes? (p.slot target.object) <;> rfl
      simpa [hid, vouched, htarget, hconst, hrange] using hasEffect_id
    | some range =>
      let slot := p.slot target.object
      have hvouched : p.vouched ptr offset len = [(slot, range)] := by
        simp [vouched, htarget, hconst, hrange, slot]
      rw [hvouched]
      refine hasEffect_insert slot range fun now s hs => ?_
      cases hbytes : s.bytes? slot with
      | none =>
        have hvouch : p.vouch now ptr offset len s =
            if s.othersClobbered then s.modify now slot (·.insert range) else s := by
          simp [vouch, htarget, hconst, hrange, show s.bytes? (p.slot _) = _ from hbytes, slot]
        rw [hvouch]
        cases hflag : s.othersClobbered
        · exact .inl ⟨rfl, fun b _ => (trustsAt_of_unlisted hbytes).2 hflag⟩
        · exact .inr ⟨rfl, fun _ => rfl⟩
      | some bytes =>
        have hvouch : p.vouch now ptr offset len s =
            if bytes.covers range then s else s.modify now slot (·.insert range) := by
          simp [vouch, htarget, hconst, hrange, show s.bytes? (p.slot _) = _ from hbytes, slot]
        rw [hvouch]
        by_cases hcovers : bytes.covers range = true
        · refine .inl ⟨if_pos hcovers, fun b hb => (trustsAt_of_bytes? hbytes).2 ?_⟩
          exact (hs.bytes? hbytes).covers_iff.1 hcovers b hb
        · refine .inr ⟨if_neg hcovers, fun hlisted => ?_⟩
          cases hlisted

theorem vouch_flows (ptr : PointerValue) (offset : Int) (len : Nat) :
    Flows cs fun now s => p.vouch now ptr offset len s :=
  (vouch_hasEffect ptr offset len).flows

theorem vouchUnless_hasEffect (suppressed : Bool) (ptr : PointerValue) (offset : Int) (len : Nat) :
    HasEffect cs (fun now s => p.vouchUnless suppressed now ptr offset len s)
      (.vouch (p.vouchedUnless suppressed ptr offset len)) := by
  cases suppressed
  · exact vouch_hasEffect ptr offset len
  · exact hasEffect_id

theorem vouchUnless_flows (suppressed : Bool) (ptr : PointerValue) (offset : Int) (len : Nat) :
    Flows cs fun now s => p.vouchUnless suppressed now ptr offset len s :=
  (vouchUnless_hasEffect suppressed ptr offset len).flows

theorem vouchWhole_hasEffect (suppressed : Bool) (object : ObjectId) :
    HasEffect cs
      (fun now s =>
        match p.sizeOf? object with
        | some size => p.vouchUnless suppressed now (.single object 0) 0 size s
        | none => s)
      (.vouch (p.vouchedWhole suppressed object)) := by
  unfold vouchedWhole
  cases p.sizeOf? object with
  | none => exact hasEffect_id
  | some size => exact vouchUnless_hasEffect suppressed _ 0 size

theorem transferCall_hasEffect (site : CallSite) :
    HasEffect cs (fun now s => p.transferCall settings now site s)
      (p.callEffect settings site) := by
  unfold transferCall callEffect
  split
  · cases site.domain with
    | none => exact hasEffect_clobberAll
    | some objects => simpa [List.foldl_map] using hasEffect_foldl_clobber (objects.map p.slot)
  · exact hasEffect_id

/-- An operation has its effect, whatever the snapshot. -/
theorem transfer_hasEffect (op : Operation) (need : Option Need) (suppressed : Bool) :
    HasEffect cs (fun now s => p.transfer settings now op need suppressed s)
      (p.effect settings op need suppressed) := by
  have htrust (ptr : PointerValue) (len : Nat) :
      HasEffect cs (fun now s => p.vouchUnless suppressed now ptr 0 len s)
        (.vouch (p.vouchedUnless suppressed ptr 0 len)) :=
    vouchUnless_hasEffect suppressed ptr 0 len
  cases op with
  | load ptr size ordering result =>
    simp only [transfer, effect]
    split
    · exact hasEffect_clobberAll
    · exact htrust ptr size
  | store ptr size => exact htrust ptr size
  | atomic ptr size ordering result =>
    simp only [transfer, effect]
    split
    · exact hasEffect_clobberAll
    · exact htrust ptr size
  | fence => exact hasEffect_clobberAll
  | memset dest len =>
    cases len with
    | none => exact hasEffect_id
    | some len => exact htrust dest len
  | memcpy dest src len copied =>
    cases len with
    | none => exact hasEffect_id
    | some len => exact (htrust dest len).vouch_append (htrust src len)
  | readFile dest size =>
    cases size with
    | none => exact hasEffect_id
    | some len => exact htrust dest len
  | alloc object => exact vouchWhole_hasEffect suppressed object
  | realloc object source len copied =>
    cases len with
    | none => exact vouchWhole_hasEffect suppressed object
    | some len =>
      exact ((htrust (.single object 0) len).vouch_append (htrust source len)).vouch_append
        (vouchWhole_hasEffect suppressed object)
  | free ptr => exact hasEffect_id
  | call site => exact transferCall_hasEffect site
  | phi value => exact hasEffect_id
  | other => exact hasEffect_id

/-- The effect of an operation gives, takes or leaves trust at each byte, whatever the snapshot. -/
theorem transfer_flows (op : Operation) (need : Option Need) (suppressed : Bool) :
    Flows cs fun now s => p.transfer settings now op need suppressed s :=
  (transfer_hasEffect op need suppressed).flows

/-- The effect of an operation depends on its need only for an atomic operation. -/
theorem transfer_congr {op : Operation} {suppressed : Bool} {now : Stamp}
    (hop : ∀ ptr size ordering result, op ≠ .atomic ptr size ordering result)
    (need need' : Option Need) :
    p.transfer settings now op need suppressed s =
      p.transfer settings now op need' suppressed s := by
  cases op with
  | atomic ptr size ordering result => exact (hop _ _ _ _ rfl).elim
  | memset dest len => cases len <;> rfl
  | memcpy dest src len copied => cases len <;> rfl
  | readFile dest size => cases size <;> rfl
  | realloc object source len copied => cases len <;> rfl
  | _ => rfl

/-- A check at an atomic operation takes all trust away. -/
theorem transfer_below {op : Operation} {suppressed : Bool} {now now' : Stamp}
    {need need' : Option Need} (hs : s.Canonical) (hcs : s.owners = cs)
    (h : ∀ ptr size ordering result, op = .atomic ptr size ordering result →
      need' = some .must → need = some .must) :
    Below (p.transfer settings now op need suppressed s)
      (p.transfer settings now' op need' suppressed s) := by
  have hflow (need : Option Need) (now now' : Stamp) :
      Below (p.transfer settings now op need suppressed s)
        (p.transfer settings now' op need suppressed s) :=
    (transfer_flows op need suppressed).below hs hs hcs (.refl s)
  by_cases hatomic : ∃ ptr size ordering result, op = .atomic ptr size ordering result
  · obtain ⟨ptr, size, ordering, result, rfl⟩ := hatomic
    by_cases hmust : need = some .must ∧ ordering ≠ .orderedSimple
    · refine ⟨?_, fun ℓ o b hb => ?_⟩
      · rw [(transfer_flows _ need suppressed).owners hs hcs,
          (transfer_flows _ need' suppressed).owners hs hcs]
      · rw [transfer, if_pos hmust] at hb
        exact (not_trustsAt_clobberAll hb).elim
    · have hneed' : ¬ (need' = some .must ∧ ordering ≠ .orderedSimple) := fun hmust' =>
        hmust ⟨h _ _ _ _ rfl hmust'.1, hmust'.2⟩
      have heq : p.transfer settings now (.atomic ptr size ordering result) need suppressed s =
          p.transfer settings now (.atomic ptr size ordering result) need' suppressed s := by
        rw [transfer, transfer, if_neg hmust, if_neg hneed']
      rw [heq]
      exact hflow need' now now'
  · rw [transfer_congr (fun ptr size ordering result heq =>
      hatomic ⟨ptr, size, ordering, result, heq⟩) need need']
    exact hflow need' now now'

/-! ## Need -/

theorem isStale_antitone (h : Below s t) (hs : s.Canonical) (ht : t.Canonical) {ptr : Pointer}
    {size : Nat} (hsize : 0 < size) (hstale : p.isStale t ptr size = true) :
    p.isStale s ptr size = true := by
  unfold isStale at hstale ⊢
  split at hstale
  · cases hstale
  rw [if_neg ‹_›]
  let slot := p.slot ptr.object
  have htrusts (b : Nat) (hb : s.TrustsAt (slot.level s.owners) slot.object b) :
      t.TrustsAt (slot.level t.owners) slot.object b :=
    h.owners ▸ h.trusts _ _ b hb
  cases hsb : s.bytes? slot with
  | none =>
    by_contra hflag
    have hall (b : Nat) : t.TrustsAt (slot.level t.owners) slot.object b :=
      htrusts b ((trustsAt_of_unlisted hsb).2 (Bool.eq_false_iff.2 hflag))
    cases htb : t.bytes? slot with
    | none =>
      rw [show t.bytes? (p.slot ptr.object) = none from htb] at hstale
      have := (trustsAt_of_unlisted htb).1 (hall 0)
      rw [this] at hstale
      cases hstale
    | some bytes =>
      obtain ⟨b, hb⟩ := bytes.exists_not_mem
      exact hb ((trustsAt_of_bytes? htb).1 (hall b))
  | some bytes =>
    dsimp only
    cases hrange : ptr.bytes? size with
    | none => rfl
    | some range =>
      simp only [Bool.not_eq_true']
      by_contra hcovers
      rw [Bool.not_eq_false, (hs.bytes? hsb).covers_iff] at hcovers
      have hall (b : Nat) (hb : b ∈ range) : t.TrustsAt (slot.level t.owners) slot.object b :=
        htrusts b ((trustsAt_of_bytes? hsb).2 (hcovers b hb))
      cases htb : t.bytes? slot with
      | none =>
        have hmem : range.start ∈ range := by
          unfold Pointer.bytes? at hrange
          split at hrange
          · cases hrange
            exact ⟨Nat.le_refl _, by simpa using hsize⟩
          · cases hrange
        rw [show t.bytes? (p.slot ptr.object) = none from htb,
          (trustsAt_of_unlisted htb).1 (hall _ hmem)] at hstale
        cases hstale
      | some bytes' =>
        rw [show t.bytes? (p.slot ptr.object) = some bytes' from htb] at hstale
        simp only [hrange, Bool.not_eq_true'] at hstale
        rw [(ht.bytes? htb).covers_iff.2 fun b hb => (trustsAt_of_bytes? htb).1 (hall b hb)] at hstale
        cases hstale

theorem anyStale_antitone (h : Below s t) (hs : s.Canonical) (ht : t.Canonical) {base : Pointer}
    {pieces : List ValuePiece} (hpieces : ∀ piece ∈ pieces, 0 < piece.length)
    (hstale : p.anyStale t base pieces = true) : p.anyStale s base pieces = true := by
  simp only [anyStale, List.any_eq_true, Bool.and_eq_true] at hstale ⊢
  obtain ⟨piece, hmem, hvalue, hstale⟩ := hstale
  exact ⟨piece, hmem, hvalue, isStale_antitone h hs ht (hpieces piece hmem) hstale⟩

theorem needOfCopy_antitone (h : Below s t) (hs : s.Canonical) (ht : t.Canonical)
    {src : PointerValue} {len : Option Nat} {copied : List ValuePiece}
    (hcopied : ∀ piece ∈ copied, 0 < piece.length) :
    p.needOfCopy t src len copied ≤ p.needOfCopy s src len copied := by
  unfold needOfCopy
  split
  · split
    · exact Need.le_refl _
    · exact Need.ofBool_le (anyStale_antitone h hs ht hcopied)
  · exact Need.le_refl _

/-- A read on a snapshot that trusts less has a need that is at least as strong. -/
theorem need_antitone (h : Below s t) (hs : s.Canonical) (ht : t.Canonical) {op : Operation}
    (hop : op.ReadsBytes) : p.need settings t op ≤ p.need settings s op := by
  unfold need
  split
  · exact Need.le_refl _
  split
  · next ptr size ordering result =>
    split
    · exact Need.le_refl _
    split
    · exact Need.le_refl _
    refine Need.foldl_max_le (fun target _ => ?_) (Need.le_refl _)
    unfold needFrom
    split
    · exact Need.le_refl _
    cases result with
    | unknown => exact Need.ofBool_le (isStale_antitone h hs ht hop)
    | known v => exact Need.ofBool_le (isStale_antitone h hs ht hop)
    | pieces ps => exact Need.ofBool_le (anyStale_antitone h hs ht hop)
  · exact Need.le_refl _
  · exact needOfCopy_antitone h hs ht hop
  · exact needOfCopy_antitone h hs ht hop
  · exact Need.le_refl _

/-- Whether a read has no need at all does not depend on what is trusted. -/
theorem need_eq_never {x : Snapshot} {op : Operation}
    (h : p.need settings x op = .never) (y : Snapshot) :
    p.need settings y op = .never := by
  have hbool (b : Bool) : Need.ofBool b ≠ .never := by cases b <;> decide
  have hcopy {src : PointerValue} {len : Option Nat} {copied : List ValuePiece}
      (h : p.needOfCopy x src len copied = .never) : p.needOfCopy y src len copied = .never := by
    unfold needOfCopy at h ⊢
    split at h
    · split at h
      · rw [if_pos ‹_›]
      · exact (hbool _ h).elim
    · rfl
  unfold need at h ⊢
  split at h
  · rw [if_pos ‹_›]
  rw [if_neg ‹_›]
  cases op with
  | load ptr size ordering result =>
    dsimp only at h ⊢
    split at h
    · rw [if_pos ‹_›]
    rw [if_neg ‹_›]
    split at h
    · cases h
    rw [if_neg ‹_›]
    rw [Need.foldl_max_eq_never] at h ⊢
    refine ⟨rfl, fun n hn => ?_⟩
    obtain ⟨target, htarget, rfl⟩ := List.mem_map.1 hn
    have hx := h.2 _ (List.mem_map_of_mem htarget)
    unfold needFrom at hx ⊢
    split at hx
    · rw [if_pos ‹_›]
    · cases result <;> exact (hbool _ hx).elim
  | memcpy dest src len copied => exact hcopy h
  | realloc object source len copied => exact hcopy h
  | _ => exact h

end Program

end ByteTrust
