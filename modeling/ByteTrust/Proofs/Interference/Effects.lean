import ByteTrust.Proofs.Interference.Transfer
import ByteTrust.Proofs.Snapshot.History

/-!
# Trusted bytes before and after an operation

An operation works on a snapshot in steps, and each step looks at what is listed there: an object
that is trusted as a whole is not listed for a write to it, and one that loses its trust is listed
or taken off its sheet. Seen from the bytes none of this shows. The bytes trusted afterwards are
those that were trusted and that the operation keeps, together with those that it gives, and what
it keeps and gives does not depend on what is trusted (`transfer_gen_kill`): both are read off its
effect (`Program.Keeps`, `Program.Gives`).
-/

namespace ByteTrust

open Snapshot

/-- Other threads may write anything at the operation, `need` being the need that was found for
it. -/
inductive Operation.Clobbers (settings : Settings) (need : Option Need) : Operation → Prop
  | fence : Clobbers settings need .fence
  | load (ptr : PointerValue) (size : Nat) (result : ReadValue) :
      Clobbers settings need (.load ptr size .ordered result)
  | atomic (ptr : PointerValue) (size : Nat) (ordering : AccessOrdering) (result : ReadValue)
      (hneed : need = some .must) (hordering : ordering ≠ .orderedSimple) :
      Clobbers settings need (.atomic ptr size ordering result)
  /-- A call of unknown extent that is not inlined and may hand over control. -/
  | call (site : CallSite) (hdomain : site.domain = none) (hcallee : site.callee = none)
      (hoptimistic : site.pessimistic = false)
      (heffect : site.effect = .yields ∨
        site.effect = .unknown ∧ settings.singleThreaded = false) :
      Clobbers settings need (.call site)

namespace Program

variable {p : Program} {settings : Settings} {op : Operation} {need : Option Need}
  {suppressed : Bool} {cs : List ContextId} {ℓ : Level} {pos : Position} {o : ObjectId} {b : Nat}

theorem effect_eq_clobberAll (h : op.Clobbers settings need) :
    p.effect settings op need suppressed = .clobberAll := by
  cases h with
  | fence => rfl
  | load => rfl
  | atomic ptr size ordering result hneed hordering => exact if_pos ⟨hneed, hordering⟩
  | call site hdomain hcallee hoptimistic heffect =>
    have hyields : yieldsAt settings site = true := by
      rcases heffect with heffect | ⟨heffect, hthreads⟩
      · simp [yieldsAt, hcallee, hoptimistic, heffect]
      · simp [yieldsAt, hcallee, hoptimistic, heffect, hthreads]
    simp [effect, callEffect, hyields, hdomain]

theorem callEffect_not_gives {site : CallSite} :
    ¬ (p.callEffect settings site).Gives cs ℓ o b := by
  unfold callEffect
  split
  · cases site.domain <;> exact not_false
  · simp [Effect.Gives]

/-- In a suppressed context nothing becomes trusted. -/
theorem not_gives_of_suppressed : ¬ (p.effect settings op need true).Gives cs ℓ o b := by
  have hvouched (ptr : PointerValue) (len : Nat) : p.vouchedUnless true ptr 0 len = [] := rfl
  have hwhole (object : ObjectId) : p.vouchedWhole true object = [] := by
    unfold vouchedWhole
    cases p.sizeOf? object <;> rfl
  have hnone : ¬ (Effect.vouch []).Gives cs ℓ o b := by simp [Effect.Gives]
  cases op with
  | load ptr size ordering result =>
    simp only [effect, hvouched]
    split
    · exact not_false
    · exact hnone
  | atomic ptr size ordering result =>
    simp only [effect, hvouched]
    split
    · exact not_false
    · exact hnone
  | memset dest len => cases len <;> exact hnone
  | readFile dest size => cases size <;> exact hnone
  | memcpy dest src len copied => cases len <;> exact hnone
  | realloc object source len copied =>
    cases len <;> simpa only [effect, hvouched, hwhole, List.append_nil] using hnone
  | alloc object => simpa only [effect, hwhole] using hnone
  | call site => exact callEffect_not_gives
  | fence => exact not_false
  | _ => exact hnone

/-- A call with a domain takes trust from the objects of the domain only. -/
theorem exists_of_callEffect_takes {site : CallSite} {objects : List ObjectId}
    (hdomain : site.domain = some objects) (h : (p.callEffect settings site).Takes cs ℓ o b) :
    ∃ d ∈ objects, ℓ = (p.slot d).level cs ∧ o = (p.slot d).object := by
  simp only [callEffect, hdomain] at h
  split at h
  · obtain ⟨slot, hslot, hℓ, ho⟩ := h
    obtain ⟨d, hd, rfl⟩ := List.mem_map.1 hslot
    exact ⟨d, hd, hℓ, ho⟩
  · cases h

/-- The bytes from which an operation takes no trust, where the frames have the owners `cs`. -/
def Keeps (p : Program) (settings : Settings) (op : Operation) (need : Option Need)
    (suppressed : Bool) (cs : List ContextId) (pos : Position) (o : ObjectId) (b : Nat) : Prop :=
  ¬ (p.effect settings op need suppressed).Takes cs (pos.level cs.length) o b

/-- The bytes that an operation makes trusted, where the frames have the owners `cs`. -/
def Gives (p : Program) (settings : Settings) (op : Operation) (need : Option Need)
    (suppressed : Bool) (cs : List ContextId) (pos : Position) (o : ObjectId) (b : Nat) : Prop :=
  (p.effect settings op need suppressed).Gives cs (pos.level cs.length) o b

instance : Decidable (p.Keeps settings op need suppressed cs pos o b) :=
  inferInstanceAs (Decidable (¬ _))

instance : Decidable (p.Gives settings op need suppressed cs pos o b) :=
  inferInstanceAs (Decidable (Effect.Gives ..))

/-- An operation works on trusted bytes by two sets that depend on the owners of the frames, but
not on what is trusted: of the bytes that were trusted those in `K` stay so, and those in `G`
become trusted. Nothing becomes trusted in a suppressed context, a call with a domain takes trust
only from bytes at the slots of the domain's objects, and where other threads may write anything no
byte is trusted afterwards. -/
theorem transfer_gen_kill (p : Program) (settings : Settings) (op : Operation)
    (need : Option Need) (suppressed : Bool) (cs : List ContextId) :
    let K := p.Keeps settings op need suppressed cs
    let G := p.Gives settings op need suppressed cs
    (∀ now H s, History now H → s ∈ H → s.owners = cs → ∀ later,
      (p.transfer settings later op need suppressed s).owners = cs ∧
      ∀ pos o b, (p.transfer settings later op need suppressed s).Trusts pos o b ↔
        s.Trusts pos o b ∧ K pos o b ∨ G pos o b) ∧
    (suppressed = true → ∀ pos o b, ¬ G pos o b) ∧
    (∀ site objects, op = .call site → site.domain = some objects → ∀ pos o b, ¬ K pos o b →
      ∃ d ∈ objects, o = (p.slot d).object ∧
        ∀ s : Snapshot, s.owners = cs → s.sheet? pos = some (s.sheetOf (p.slot d))) ∧
    (op.Clobbers settings need → ∀ pos o b, ¬ K pos o b ∧ ¬ G pos o b) := by
  intro K G
  refine ⟨?_, ?_, ?_, ?_⟩
  · intro now H s hH hs hcs later
    have heffect : HasEffect cs _ (p.effect settings op need suppressed) :=
      transfer_hasEffect op need suppressed
    have hcanonical := hH.coherent.1.canonical s hs
    have howners := heffect.owners later s hcanonical hcs
    refine ⟨howners, fun pos o b => ?_⟩
    rw [trusts_iff_trustsAt, trusts_iff_trustsAt, howners, hcs,
      heffect.trusts later s hcanonical hcs, or_comm]
    rfl
  · rintro rfl pos o b
    exact not_gives_of_suppressed
  · rintro site objects rfl hdomain pos o b hkill
    obtain ⟨d, hd, hℓ, ho⟩ := exists_of_callEffect_takes hdomain (not_not.1 hkill)
    refine ⟨d, hd, ho, fun s hs => ?_⟩
    rw [sheet?_eq_at?, hs, hℓ, ← hs, sheetOf_eq]
  · intro hclobbers pos o b
    dsimp only [K, G]
    rw [Keeps, Gives, effect_eq_clobberAll hclobbers]
    exact ⟨not_not.2 trivial, not_false⟩

/-- A call that yields with the stack slot 1 as its domain takes the trust from the slot, and not
from the object 0. A store of four bytes to the slot gives them back. -/
theorem transfer_gen_kill_slot :
    let p : Program :=
      { objects := .ofList [(⟨0⟩, ⟨⟨0⟩, .heap, some 8, none⟩),
          (⟨1⟩, ⟨⟨1⟩, .stack ⟨0⟩, some 8, none⟩)]
        contexts := ∅
        root := ⟨0⟩ }
    let call : Operation := .call { domain := some [⟨1⟩], effect := .yields }
    let store : Operation := .store (.single ⟨1⟩ 0) 4
    let s := (trusting 0).pushFrame 1 ⟨0⟩
    let yielded := p.transfer {} 2 call none false s
    let stored := p.transfer {} 3 store none false (s.clobberAll 2)
    (s.Trusts (.frame 0) ⟨1⟩ 3 ∧ ¬ yielded.Trusts (.frame 0) ⟨1⟩ 3 ∧ yielded.Trusts .shared ⟨0⟩ 3) ∧
      ¬ (s.clobberAll 2).Trusts (.frame 0) ⟨1⟩ 3 ∧ stored.Trusts (.frame 0) ⟨1⟩ 3 ∧
        ¬ stored.Trusts (.frame 0) ⟨1⟩ 4 := by
  intro p call store s yielded stored
  have hs : History 2 [s, trusting 0] :=
    ((History.start 0).next .trusting).next (.pushFrame (.held List.mem_cons_self) ⟨0⟩)
  have hclobbered : History 3 [s.clobberAll 2, s, trusting 0] :=
    hs.next (.clobberAll (.held List.mem_cons_self))
  obtain ⟨hcall, -⟩ := transfer_gen_kill p {} call none false [⟨0⟩]
  obtain ⟨hstore, -⟩ := transfer_gen_kill p {} store none false [⟨0⟩]
  have hyielded := (hcall 2 _ s hs List.mem_cons_self rfl 2).2
  have hstored := (hstore 3 _ _ hclobbered List.mem_cons_self rfl 3).2
  have hblank (b : Nat) : ¬ (s.clobberAll 2).Trusts (.frame 0) ⟨1⟩ b := by
    rintro ⟨m, hm, htrusts⟩
    cases hm
    cases htrusts
  refine ⟨⟨⟨_, rfl, rfl⟩, fun h => ?_, (hyielded _ _ _).2 (.inl ⟨⟨_, rfl, rfl⟩, by decide⟩)⟩,
    hblank 3, (hstored _ _ _).2 (.inr (by decide)), fun h => ?_⟩
  · rcases (hyielded _ _ _).1 h with ⟨-, hkeeps⟩ | hgives
    · exact absurd hkeeps (by decide)
    · exact absurd hgives (by decide)
  · rcases (hstored _ _ _).1 h with ⟨htrusts, -⟩ | hgives
    · exact hblank 4 htrusts
    · exact absurd hgives (by decide)

end Program

end ByteTrust
