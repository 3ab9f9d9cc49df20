import ByteTrust.Interference.Checks
import ByteTrust.Proofs.Interference.Needs

/-!
# Needed checks are reported

After a walk, `needsCheck` answers for one instruction whether its value is checked at run time.
It looks the instruction up by its name and decides by the kind of its operation. A load, an atomic
operation or a copy that is recorded with the need `must` is answered with `true`
(`needsCheck_of_must`). A reallocation is not: it is walked like a copy, and its bytes are trusted
from then on as if they had been checked, but unless a check of its value was asked for before, the
answer is `false` (`needsCheck_misses_realloc`).
-/

namespace ByteTrust

namespace Program

variable {p : Program} {l : Layout} {inst : Instr}

theorem holds_of_mem_instrs (hown : p.OwnNames) (h : inst ∈ p.instrs) : ∃ c, p.Holds c inst := by
  obtain ⟨k, c, b, block, hc, hb, hinst⟩ := (mem_instrs hown).1 h
  exact ⟨k, b, block, block_eq_ok.2 ⟨c, hc, hb⟩, hinst⟩

/-- The instructions of a context are those in its blocks. -/
theorem mem_map_instructions {k : ContextId} {c : Context} (hc : p.context k = .ok c) :
    inst ∈ c.instructions.map (fun e => e.2.2) ↔ p.Holds k inst := by
  simp only [List.mem_map, Linked.mem_instructions]
  constructor
  · rintro ⟨e, ⟨b, block, hb, -, hinst⟩, rfl⟩
    exact ⟨b, block, block_eq_ok.2 ⟨c, context_eq_ok.1 hc, hb⟩, List.mem_of_getElem? hinst⟩
  · rintro ⟨b, block, hblock, hinst⟩
    obtain ⟨c', hc', hb⟩ := block_eq_ok.1 hblock
    cases (context_eq_ok.1 hc).symm.trans hc'
    obtain ⟨n, hn⟩ := List.mem_iff_getElem?.1 hinst
    exact ⟨(block.id, n, inst), ⟨b, block, hb, rfl, hn⟩, rfl⟩

/-- What is found at a place stands in the context of the place. -/
theorem holds_of_instruction {place : Place} (h : p.instruction place = .ok inst) :
    p.Holds place.context inst := by
  obtain ⟨block, hblock, hget⟩ := bind_eq_ok.1 h
  refine ⟨place.block, block, hblock, ?_⟩
  split at hget
  · next hsome => exact Except.ok.inj hget ▸ List.mem_of_getElem? hsome
  · cases hget

/-- An instruction is found where the layout says that it stands. -/
theorem Linked.instruction_found (h : p.Linked l) (hinst : inst ∈ p.instrs) :
    ∃ place, l.place inst.id = .ok place ∧ p.instruction place = .ok inst := by
  obtain ⟨k, c, b, block, hc, hb, hmem⟩ := (mem_instrs h.own).1 hinst
  obtain ⟨place, hplace⟩ := h.place_exists hc hb hmem
  obtain ⟨c', block', inst', hc', hb', hinst', hid⟩ := h.place_spec hplace
  have hmem' : inst' ∈ p.instrs := (mem_instrs h.own).2
    ⟨_, c', _, block', hc', hb', List.mem_of_getElem? hinst'⟩
  obtain rfl : inst' = inst := List.inj_on_of_nodup_map h.names hmem' hinst hid
  refine ⟨place, by rw [Layout.place, hplace], ?_⟩
  rw [instruction, block_eq_ok.2 ⟨c', hc', hb'⟩, ok_bind, hinst']
  rfl

end Program

namespace Walk

variable {p₀ p : Program} {l : Layout} {settings : Settings} {s : State} {inst : Instr}

/-- A need is recorded for instructions that read memory, and for no others. -/
theorem Accounted.readsMemory {w : Setting} (h : Accounted w s) (hapart : w.program.NamesApart)
    {c : ContextId} {need : Need} (hinst : w.program.Holds c inst)
    (hneed : s.findings.needs.get? inst.id = some need) : inst.op.readsMemory = true := by
  obtain ⟨v, hv, hid⟩ := h.visited _ _ hneed
  obtain ⟨hholds, hread⟩ := h.stands v hv
  obtain ⟨-, rfl⟩ := hapart _ _ _ _ hholds hinst hid
  exact hread

/-- The answer for an instruction that is reached and reads memory, from its operation. -/
theorem needsCheck_eq {w : Setting} {f : Findings} {place : Place}
    (homit : w.settings.omitChecks = false) (hplace : w.layout.place inst.id = .ok place)
    (hfound : w.program.instruction place = .ok inst) (hreached : inst.reached = true)
    (hread : inst.op.readsMemory = true) :
    needsCheck w f inst.id false =
      if inst.runtimeCheck = .asExpected then .ok true else interferes w f inst.id place inst.op := by
  have hvalue : inst.op.producesValue = true := by
    revert hread
    cases inst.op <;> simp [Operation.readsMemory, Operation.producesValue]
  simp only [needsCheck, homit, hplace, hfound, ok_bind, hreached, hvalue, Bool.not_true,
    Bool.or_self, Bool.false_eq_true, if_false]
  cases inst.runtimeCheck <;> rfl

/-- The answer for an instruction without a check that was asked for before. -/
theorem needsCheck_of_none {w : Setting} {f : Findings} {place : Place} {special : Bool}
    (hplace : w.layout.place inst.id = .ok place) (hfound : w.program.instruction place = .ok inst)
    (hnone : inst.runtimeCheck = .none) :
    needsCheck w f inst.id special =
      if w.settings.omitChecks || !inst.reached || !inst.op.producesValue then .ok false
      else interferes w f inst.id place inst.op := by
  simp only [needsCheck, hplace, hfound, ok_bind, hnone]
  cases w.settings.omitChecks <;> cases inst.reached <;> cases inst.op.producesValue <;> rfl

theorem interferes_of_never {w : Setting} {f : Findings} {place : Place}
    (hread : inst.op.readsMemory = true) (hnever : f.needs.get? inst.id = some .never) :
    interferes w f inst.id place inst.op = .ok false := by
  cases hop : inst.op with
  | load | atomic | memcpy | realloc =>
    simp only [interferes, hnever]
    rfl
  | _ =>
    rw [hop] at hread
    cases hread

/-- After any number of runs, an instruction with the need `must` reads memory, and if it is reached
it is reported for a check, except for a reallocation: that one is reported only if a check of its
value was asked for before. -/
theorem needsCheck_of_must (hlink : p₀.link = .ok p) (hl : Layout.ofProgram p = .ok l)
    (hown : p.OwnNames) (homit : settings.omitChecks = false) {clock : Stamp} {r : References}
    {entries : List (Stamp × Snapshot)}
    (h : runAll ⟨p, l, settings⟩ entries { clock := clock, references := r } = .ok s)
    (hinst : inst ∈ p.instrs) (hmust : s.findings.needs.get? inst.id = some .must) :
    inst.op.readsMemory = true ∧ (inst.reached = true →
      needsCheck ⟨p, l, settings⟩ s.findings inst.id false =
        match inst.op with
        | .realloc .. => .ok (decide (inst.runtimeCheck = .asExpected))
        | _ => .ok true) := by
  have hlinked := Program.linked_of_link hlink hl hown
  have hapart := Program.namesApart_of_link hlink
  obtain ⟨c, hholds⟩ := Program.holds_of_mem_instrs hown hinst
  obtain ⟨place, hplace, hfound⟩ := hlinked.instruction_found hinst
  have hacc : Accounted ⟨p, l, settings⟩ s :=
    runAll_induction h (accounted_fresh clock r) fun s s' hturn hs => hs.turn hapart hturn
  have hread := hacc.readsMemory hapart hholds hmust
  refine ⟨hread, fun hreached => ?_⟩
  rw [needsCheck_eq homit hplace hfound hreached hread]
  cases hop : inst.op with
  | load | atomic | memcpy =>
    simp only [interferes, hmust]
    split <;> rfl
  | realloc =>
    simp only [interferes]
    split <;> simp_all
  | _ =>
    rw [hop] at hread
    cases hread

/-- A load after a fence needs a check and is reported. -/
theorem needsCheck_of_must_load :
    let w := straightSetting [⟨⟨0⟩, .fence, false, .none, true⟩, loadAll 1 (.known (.scalar 5))]
    Yields (runAll w [(1, .trusting 0)] { clock := 0 }) fun s =>
      s.findings.needs.get? ⟨1⟩ = some .must ∧ needsCheck w s.findings ⟨1⟩ false = .ok true := by
  intro w
  have hyields : Yields (runAll w [(1, .trusting 0)] { clock := 0 }) fun s =>
      s.findings.needs.get? ⟨1⟩ = some .must :=
    yields_runAll 4 (by decide +kernel)
  obtain ⟨s, hruns, hmust⟩ := hyields
  refine ⟨s, hruns, hmust, ?_⟩
  have hlink : w.program.link = .ok w.program := rfl
  have hl : Layout.ofProgram w.program = .ok w.layout := rfl
  have hown : w.program.OwnNames := by
    intro k c hc
    have hget : w.program.contexts.get? k = if (⟨0⟩ : ContextId) = k then some _ else none := rfl
    rw [hget] at hc
    split at hc
    · cases hc
      assumption
    · cases hc
  exact (needsCheck_of_must hlink hl hown rfl hruns (List.mem_cons_of_mem _ List.mem_cons_self)
    hmust).2 rfl

/-- A reallocation whose copied bytes are not trusted needs a check and is not reported. -/
theorem needsCheck_misses_realloc :
    let w := straightSetting [⟨⟨0⟩, .fence, false, .none, true⟩,
      ⟨⟨1⟩, .realloc ⟨1⟩ (.single ⟨0⟩ 0) (some 8) [⟨0, 8, some (.scalar 5)⟩], false, .none, true⟩]
    Yields (runAll w [(1, .trusting 0)] { clock := 0 }) fun s =>
      s.findings.needs.get? ⟨1⟩ = some .must ∧
        Yields (needsCheck w s.findings ⟨1⟩ false) (· = false) := by
  intro w
  exact yields_runAll 4 (by decide +kernel)

/-! ## All instructions that need a check -/

section All

variable {w : Setting} {f : Findings} {checked checked' : IdentSet .inst} {i : InstId}

theorem mem_addChecked {insts : List Instr} (h : addChecked w f checked insts = .ok checked') :
    i ∈ checked' ↔
      i ∈ checked ∨ (∃ inst ∈ insts, inst.id = i) ∧ needsCheck w f i true = .ok true := by
  induction insts generalizing checked with
  | nil =>
    cases h
    simp
  | cons inst rest ih =>
    rw [addChecked, bind_eq_ok] at h
    obtain ⟨needed, hneeded, h⟩ := h
    cases needed with
    | false =>
      have hne (hi : needsCheck w f i true = .ok true) : inst.id ≠ i := by
        rintro rfl
        cases hneeded.symm.trans hi
      rw [ih h]
      simp only [List.exists_mem_cons_iff]
      tauto
    | true =>
      have heq (hi : i = inst.id) : needsCheck w f i true = .ok true := hi ▸ hneeded
      rw [ih h, IdentSet.mem_insert]
      simp only [List.exists_mem_cons_iff]
      tauto

/-- What is checked are the instructions of all contexts that need a check. -/
theorem mem_runtimeChecks_iff (h : runtimeChecks w f = .ok checked) :
    i ∈ checked ↔ (∃ k ∈ w.layout.order, ∃ inst, w.program.Holds k inst ∧ inst.id = i) ∧
      needsCheck w f i true = .ok true := by
  refine foldlM_induction h (fun done checked => ∀ i, i ∈ checked ↔
    (∃ k ∈ done, ∃ inst, w.program.Holds k inst ∧ inst.id = i) ∧
      needsCheck w f i true = .ok true) (by simp) ?_ i
  intro done checked k checked' _ hstep ih i
  obtain ⟨c, hc, hadd⟩ := bind_eq_ok.1 hstep
  rw [mem_addChecked hadd, ih]
  simp only [Program.mem_map_instructions hc, List.mem_append, List.mem_singleton]
  constructor
  · rintro (⟨⟨k', hk', hinst⟩, hneed⟩ | ⟨hinst, hneed⟩)
    · exact ⟨⟨k', .inl hk', hinst⟩, hneed⟩
    · exact ⟨⟨k, .inr rfl, hinst⟩, hneed⟩
  · rintro ⟨⟨k', hk' | rfl, hinst⟩, hneed⟩
    · exact .inl ⟨⟨k', hk', hinst⟩, hneed⟩
    · exact .inr ⟨hinst, hneed⟩

end All

end Walk

end ByteTrust
