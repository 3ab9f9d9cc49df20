import ByteTrust.Proofs.Interference.Abreast
import ByteTrust.Proofs.Interference.Completes
import ByteTrust.Proofs.Snapshot.Compare

/-!
# Less trust on entry

Two runs of one program start from two snapshots, one with less trust than the other, and no
reference is missing. The run with less trust never finds less: it records the same reads, each with
at least the need, its contexts with such a read include those of the other run, and it ends where
the other one does, with no more trust (`run_antitone`).

The two runs start abreast (`abreast_fresh`), so they stay abreast to the end.
-/

namespace ByteTrust

namespace Walk

open Snapshot

variable {w : Setting} {H H' : List Snapshot} {x y : Snapshot} {now now' : Stamp}

theorem rel_imp {α : Type} {R S : α → α → Prop} {a b : Option α} (h : ∀ a b, R a b → S a b)
    (hab : Option.Rel R a b) : Option.Rel S a b := by
  cases hab with
  | none => exact .none
  | some hab => exact .some (h _ _ hab)

/-- Fresh walks start abreast, whatever came before. -/
theorem abreast_fresh (hH : History now H) (hx : x ∈ H) (hH' : History now' H') (hy : y ∈ H')
    (hxy : Below x y) : Abreast w [(x, y)] { clock := now } { clock := now' } where
  below := List.forall_mem_singleton.2 hxy
  lower := hH.forget (List.cons_subset.2 ⟨hx, List.nil_subset H⟩)
  upper := hH'.forget (List.cons_subset.2 ⟨hy, List.nil_subset H'⟩)
  bin k := ⟨[], List.nil_subset _, bin_fresh now {} k, bin_fresh now' {} k⟩
  needs _ := .none
  tentative _ h := h
  firstCalls := rfl
  missing := ⟨rfl, rfl⟩
  visits _ h := absurd h List.not_mem_nil

/-- A walk to some depth keeps abreast of one with less trust. -/
theorem tracks_runTo {W : Pairs} (hgrounded : w.program.Grounded)
    (hbytes : ∀ inst ∈ w.program.instrs, inst.op.ReadsBytes) (hxy : Paired W x y) (depth : Nat) :
    Tracks w W (runTo w depth x) (runTo w depth y) PairedIf := by
  unfold runTo
  exact tracks_lift_bind fun root _ =>
    (tracking_walkContext hgrounded hbytes _).function root.id [] (!root.materialized) hxy

/-- Less trust on entry never weakens what a run finds. -/
theorem run_antitone {p₀ : Program} {out out' : Option Snapshot} {s t : State}
    (hlink : p₀.link = .ok w.program) (hbytes : ∀ inst ∈ w.program.instrs, inst.op.ReadsBytes)
    (hH : History now H) (hx : x ∈ H) (hH' : History now' H') (hy : y ∈ H')
    (hxy : x.isBelow y = true) (hrun : run w x { clock := now } = .ok (out, s))
    (hrun' : run w y { clock := now' } = .ok (out', t)) :
    (∀ i, Option.Rel (fun m n => n ≤ m) (s.findings.needs.get? i) (t.findings.needs.get? i)) ∧
      (∀ c ∈ t.findings.tentative, c ∈ s.findings.tentative) ∧
      Option.Rel (fun z z' => z.isBelow z' = true) out out' := by
  have hcanonical := hH.coherent.1.canonical x hx
  have hcanonical' := hH'.coherent.1.canonical y hy
  have hbelow : Below x y := (isBelow_iff hcanonical hcanonical').1 hxy
  obtain ⟨depth, hrun, hrun'⟩ := exists_common_depth hrun hrun'
  obtain ⟨_, _, W, hrun'', -, habreast, hout⟩ :=
    tracks_runTo (Program.grounded_of_link hlink) hbytes List.mem_cons_self depth _ _ _ _
      (abreast_fresh hH hx hH' hy hbelow) hrun
  cases hrun'.symm.trans hrun''
  refine ⟨fun i => rel_imp (fun _ _ hover => hover.1) (habreast.needs i), habreast.tentative, ?_⟩
  refine rel_imp (fun z z' hz => ?_) hout
  obtain ⟨hbelow, hcanonical, hcanonical'⟩ := habreast.paired hz
  exact (isBelow_iff hcanonical hcanonical').2 hbelow

/-- An object is loaded in a function that will not be emitted, and again after the call. -/
def loadsHidden : Program :=
  let load (i : Nat) := loadAll i (.known (.scalar 1))
  let hidden := oneBlock 1 [load 1]
  { straight [] with contexts := .ofList [
      oneBlock 0 [callOf 0 ⟨1⟩, load 2], (hidden.1, { hidden.2 with materialized := false })] }

/-- Entered with nothing trusted, the function has a read that needs a check and is not emitted, so
that the load after the call needs one as well. Entered with everything trusted, neither does. -/
theorem run_antitone_hidden :
    let w := linkedSetting loadsHidden
    let x := (trusting 0).clobberAll 1
    let y := trusting 0
    x.isBelow y = true ∧ Yields (run w x { clock := 2 }) fun r =>
      Yields (run w y { clock := 1 }) fun r' =>
        (r.2.findings.needs.get? ⟨2⟩ = some .must ∧ r'.2.findings.needs.get? ⟨2⟩ = some .safe) ∧
        (∀ c ∈ r'.2.findings.tentative, c ∈ r.2.findings.tentative) ∧
        Option.Rel (fun z z' => z.isBelow z' = true) r.1 r'.1 := by
  intro w x y
  have hinstrs : w.program.instrs =
      [callOf 0 ⟨1⟩, loadAll 2 (.known (.scalar 1)), loadAll 1 (.known (.scalar 1))] := by
    decide +kernel
  have hbytes : ∀ inst ∈ w.program.instrs, inst.op.ReadsBytes := by
    rw [hinstrs]
    simp [loadAll, callOf, Operation.ReadsBytes]
  have hyields : Yields (run w x { clock := 2 }) (·.2.findings.needs.get? ⟨2⟩ = some .must) :=
    yields_run 3 (by decide +kernel)
  have hyields' : Yields (run w y { clock := 1 }) (·.2.findings.needs.get? ⟨2⟩ = some .safe) :=
    yields_run 3 (by decide +kernel)
  obtain ⟨r, hrun, hmust⟩ := hyields
  obtain ⟨r', hrun', hsafe⟩ := hyields'
  have hhistory : History 1 [y] := (History.start 0).next .trusting
  have hhistory' : History 2 [x, y] := hhistory.next (.clobberAll (.held List.mem_cons_self))
  obtain ⟨-, htentative, hout⟩ := run_antitone (linkedSetting_spec (by decide +kernel)).1 hbytes
    hhistory' List.mem_cons_self hhistory List.mem_cons_self (by decide) hrun hrun'
  exact ⟨by decide, r, hrun, r', hrun', ⟨hmust, hsafe⟩, htentative, hout⟩

end Walk

end ByteTrust
