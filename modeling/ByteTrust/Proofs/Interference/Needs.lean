import ByteTrust.Proofs.Interference.Transfer
import ByteTrust.Proofs.Interference.Turns
import ByteTrust.Proofs.Program.Linked

/-!
# Needs over all visits

A read is visited any number of times, in one run or in several, each time with another snapshot,
and what was recorded before enters into the next decision: an answer `never` is final, and a read
whose value is given up is recorded with `never` although a check was needed. Still nothing is
lost, provided that instructions have names of their own (`Program.NamesApart`, which linking
guarantees). After any number of runs a read of its own thread, or one that is silenced, is
recorded with `never`, and any other one with the strongest need of all its visits; and the context
of a read that needed a check on some visit is tentative (`needs_over_visits`).

The reason is that `never` does not come from a snapshot: a read that has no need once has none on
any snapshot (`Program.need_eq_never`).
-/

namespace ByteTrust

/-! ## Names -/

/-- Instructions have names of their own: a name belongs to one instruction of one context. -/
def Program.NamesApart (p : Program) : Prop :=
  ∀ c c' inst inst', p.Holds c inst → p.Holds c' inst' → inst.id = inst'.id → c = c' ∧ inst = inst'

theorem Program.Holds.mem_instrs {p : Program} {c : ContextId} {inst : Instr} (h : p.Holds c inst) :
    inst ∈ p.instrs := by
  obtain ⟨b, block, hblock, hinst⟩ := h
  obtain ⟨context, hcontext, hb⟩ := block_eq_ok.1 hblock
  exact List.mem_flatMap.2 ⟨context, Table.mem_values_of_get? hcontext,
    List.mem_flatMap.2 ⟨block, Table.mem_values_of_get? hb, hinst⟩⟩

/-- Linking makes sure that names are apart. -/
theorem Program.namesApart_of_link {p₀ p : Program} (h : p₀.link = .ok p) : p.NamesApart := by
  rintro k k' inst inst' ⟨b, block, hblock, hinst⟩ ⟨b', block', hblock', hinst'⟩ hid
  obtain ⟨c, hc, hb⟩ := block_eq_ok.1 hblock
  obtain ⟨c', hc', hb'⟩ := block_eq_ok.1 hblock'
  obtain ⟨i, hi⟩ := List.mem_iff_getElem?.1 hinst
  obtain ⟨i', hi'⟩ := List.mem_iff_getElem?.1 hinst'
  obtain ⟨rfl, rfl, rfl⟩ :=
    eq_place_of_id (checkNames_nodup (link_eq_ok h).1) hc hc' hb hb' hi hi' hid
  cases hc.symm.trans hc'
  cases hb.symm.trans hb'
  exact ⟨rfl, Option.some.inj (hi.symm.trans hi')⟩

namespace Walk

variable {w : Setting} {s s' : State} {scope : Scope} {inst : Instr} {x y : Snapshot}

/-! ## What is entered in the book -/

theorem silence_book {i : InstId} {values : List SpecValue} {b : Bool}
    (h : silence w i values s = .ok (b, s')) :
    s'.findings.needs = s.findings.needs ∧ s'.findings.tentative = s.findings.tentative ∧
      s'.visits = s.visits ∧
      s'.findings.silenced = if b then s.findings.silenced.insert i else s.findings.silenced := by
  obtain ⟨rfl, rfl⟩ | ⟨objects, rfl, -, -, -, rfl⟩ := silence_cases h <;> exact ⟨rfl, rfl, rfl, rfl⟩

theorem promote_book {i : InstId} {result : ReadValue} {u : Unit}
    (h : promote w i result s = .ok (u, s')) :
    s'.findings.needs = s.findings.needs ∧ s'.findings.tentative = s.findings.tentative ∧
      s'.visits = s.visits ∧ s'.findings.silenced = s.findings.silenced := by
  obtain rfl | ⟨o, promotions, -, -, -, -, rfl⟩ := promote_cases h <;> exact ⟨rfl, rfl, rfl, rfl⟩

/-- How a visit of a read ends, with the need that is recorded: no check is needed, or one is, or
one is needed and the value is given up. -/
inductive Outcome (scope : Scope) (inst : Instr) (need : Need) (s s' : State) : Need → Prop
  | unchecked (hneed : need ≠ .must) (htentative : s'.findings.tentative = s.findings.tentative)
      (hsilenced : s'.findings.silenced = s.findings.silenced) : Outcome scope inst need s s' need
  | checked (hneed : need = .must)
      (htentative : s'.findings.tentative = s.findings.tentative.insert scope.context)
      (hsilenced : s'.findings.silenced = s.findings.silenced) : Outcome scope inst need s s' need
  | silenced (hneed : need = .must)
      (htentative : s'.findings.tentative = s.findings.tentative.insert scope.context)
      (hsilenced : s'.findings.silenced = s.findings.silenced.insert inst.id) :
      Outcome scope inst need s s' .never

section Outcome

variable {need recorded : Need} (h : Outcome scope inst need s s' recorded)

include h

theorem Outcome.mem_tentative {c : ContextId} (hc : c ∈ s.findings.tentative) :
    c ∈ s'.findings.tentative := by
  cases h with
  | unchecked _ ht => exact ht ▸ hc
  | checked _ ht => exact ht ▸ IdentSet.mem_insert.2 (.inr hc)
  | silenced _ ht => exact ht ▸ IdentSet.mem_insert.2 (.inr hc)

theorem Outcome.mem_silenced_iff {i : InstId} (hi : i ≠ inst.id) :
    i ∈ s'.findings.silenced ↔ i ∈ s.findings.silenced := by
  cases h with
  | unchecked _ _ hs => rw [hs]
  | checked _ _ hs => rw [hs]
  | silenced _ _ hs => rw [hs, IdentSet.mem_insert, or_iff_right hi]

/-- The context of a read that needs a check, or is silenced now, becomes tentative. -/
theorem Outcome.context_tentative
    (hcause : need = .must ∨ inst.id ∈ s'.findings.silenced ∧ inst.id ∉ s.findings.silenced) :
    scope.context ∈ s'.findings.tentative := by
  cases h with
  | unchecked hneed _ hs =>
    rcases hcause with hmust | ⟨hin, hout⟩
    · exact absurd hmust hneed
    · exact absurd (hs ▸ hin) hout
  | checked _ ht => exact ht ▸ IdentSet.mem_insert.2 (.inl rfl)
  | silenced _ ht => exact ht ▸ IdentSet.mem_insert.2 (.inl rfl)

end Outcome

/-- What a visit of a read enters in the book. -/
theorem visitRead_book {certain : Bool} (h : visitRead w scope certain inst x s = .ok (y, s')) :
    s'.visits = ⟨scope.context, inst, x, y⟩ :: s.visits ∧
      ∃ recorded, s'.findings.needs = s.findings.needs.insert inst.id recorded ∧
        Outcome scope inst (needNow w inst x (s.findings.needs.get? inst.id)) s s' recorded := by
  obtain ⟨s₁, recorded, hdecides, rfl, rfl⟩ := visitRead_cases h
  generalize needNow w inst x (s.findings.needs.get? inst.id) = need at hdecides
  dsimp only
  cases hdecides with
  | @checked b _ hmust hsilence =>
    obtain ⟨hneeds, htentative, hvisits, hsilenced⟩ := silence_book hsilence
    refine ⟨by rw [hvisits], _, by rw [hneeds], ?_⟩
    cases b with
    | true => exact .silenced hmust htentative hsilenced
    | false => exact .checked hmust htentative hsilenced
  | promoted hmust _ hpromote =>
    obtain ⟨hneeds, htentative, hvisits, hsilenced⟩ := promote_book hpromote
    exact ⟨by rw [hvisits], _, by rw [hneeds], .unchecked hmust htentative hsilenced⟩
  | safe hmust => exact ⟨rfl, _, rfl, .unchecked hmust rfl rfl⟩

/-! ## The account of all visits -/

/-- The need of a read on a visit, for itself. -/
def Visit.need (w : Setting) (v : Visit) : Need :=
  w.program.need w.settings v.before v.inst.op

/-- The strongest need of an instruction over some visits. -/
def strongest (w : Setting) (vs : List Visit) (i : InstId) : Need :=
  ((vs.filter fun v => v.inst.id = i).map (Visit.need w)).foldr Need.max .never

variable {v : Visit} {vs : List Visit} {i : InstId}

theorem strongest_cons_self (h : v.inst.id = i) :
    strongest w (v :: vs) i = (v.need w).max (strongest w vs i) := by
  simp [strongest, h]

theorem strongest_cons_of_ne (h : v.inst.id ≠ i) : strongest w (v :: vs) i = strongest w vs i := by
  simp [strongest, h]

theorem strongest_eq_never (h : ∀ v ∈ vs, v.inst.id ≠ i) : strongest w vs i = .never := by
  have hnil : (vs.filter fun v => v.inst.id = i) = [] :=
    List.filter_eq_nil_iff.2 fun v hv => by simpa using h v hv
  rw [strongest, hnil]
  rfl

theorem need_le_strongest (hv : v ∈ vs) : v.need w ≤ strongest w vs v.inst.id := by
  induction vs with
  | nil => cases hv
  | cons u vs ih =>
    rcases List.mem_cons.1 hv with rfl | hv
    · rw [strongest_cons_self rfl]
      exact Need.le_max_left _ _
    · by_cases hu : u.inst.id = v.inst.id
      · rw [strongest_cons_self hu]
        exact Need.le_trans (ih hv) (Need.le_max_right _ _)
      · rw [strongest_cons_of_ne hu]
        exact ih hv

/-- What is recorded for an instruction whose visits are `vs`. -/
def settledNeed (w : Setting) (s : State) (inst : Instr) : Need :=
  if inst.threadLocal = true ∨ inst.id ∈ s.findings.silenced then .never
  else strongest w s.visits inst.id

/-- What is recorded on a visit is what settles the read from then on. -/
theorem Outcome.recorded_eq {recorded : Need} (h : Outcome scope inst
      (if inst.threadLocal = true ∨ inst.id ∈ s.findings.silenced then .never
        else strongest w s'.visits inst.id) s s' recorded) :
    recorded = settledNeed w s' inst := by
  unfold settledNeed
  by_cases hfixed : inst.threadLocal = true ∨ inst.id ∈ s.findings.silenced
  · rw [if_pos hfixed] at h
    cases h with
    | unchecked _ _ hs => rw [hs, if_pos hfixed]
    | checked hneed => cases hneed
    | silenced hneed => cases hneed
  · rw [if_neg hfixed] at h
    cases h with
    | unchecked _ _ hs => rw [hs, if_neg hfixed]
    | checked _ _ hs => rw [hs, if_neg hfixed]
    | silenced _ _ hs => rw [hs, if_pos (.inr (IdentSet.mem_insert.2 (.inl rfl)))]

/-- The book accounts for all visits. -/
structure Accounted (w : Setting) (s : State) : Prop where
  stands : ∀ v ∈ s.visits, w.program.Holds v.context v.inst ∧ v.inst.op.readsMemory = true
  visited : ∀ i n, s.findings.needs.get? i = some n → ∃ v ∈ s.visits, v.inst.id = i
  silenced : ∀ i ∈ s.findings.silenced, (∃ v ∈ s.visits, v.inst.id = i) ∨
    ∃ c inst, w.program.Holds c inst ∧ inst.op.readsMemory = false ∧ inst.id = i
  needs : ∀ v ∈ s.visits, s.findings.needs.get? v.inst.id = some (settledNeed w s v.inst)
  tentative : ∀ v ∈ s.visits, v.inst.id ∈ s.findings.silenced ∨
    (v.inst.threadLocal = false ∧ v.need w = .must) → v.context ∈ s.findings.tentative

theorem accounted_fresh (clock : Stamp) (r : References) :
    Accounted w { clock := clock, references := r } where
  stands := by simp
  visited i n h := by simp at h
  silenced := by simp
  needs := by simp
  tentative := by simp

theorem Accounted.congr (h : Accounted w s) (hneeds : s'.findings.needs = s.findings.needs)
    (htentative : s'.findings.tentative = s.findings.tentative)
    (hsilenced : s'.findings.silenced = s.findings.silenced) (hvisits : s'.visits = s.visits) :
    Accounted w s' where
  stands := hvisits ▸ h.stands
  visited := hvisits ▸ hneeds ▸ h.visited
  silenced := hvisits ▸ hsilenced ▸ h.silenced
  needs := by
    unfold settledNeed
    rw [hvisits, hneeds, hsilenced]
    exact h.needs
  tentative := hvisits ▸ hsilenced ▸ htentative ▸ h.tentative

section Read

variable (hapart : w.program.NamesApart) (h : Accounted w s)
  (hinst : w.program.Holds scope.context inst) (hread : inst.op.readsMemory = true)

include hapart h hinst

/-- All visits under one name are visits of one instruction in one context. -/
theorem Accounted.eq_of_id (hv : v ∈ s.visits) (hid : v.inst.id = inst.id) :
    v.context = scope.context ∧ v.inst = inst :=
  hapart _ _ _ _ (h.stands v hv).1 hinst hid

include hread in
/-- A read that is silenced was visited. -/
theorem Accounted.visit_of_silenced (hsilenced : inst.id ∈ s.findings.silenced) :
    ∃ v ∈ s.visits, v.inst.id = inst.id := by
  rcases h.silenced _ hsilenced with hv | ⟨c, inst', hinst', hread', hid⟩
  · exact hv
  · obtain ⟨-, rfl⟩ := hapart _ _ _ _ hinst' hinst hid
    rw [hread] at hread'
    cases hread'

include hread in
/-- The need that is decided on a visit, from the visits before. -/
theorem Accounted.needNow_eq (x : Snapshot) :
    needNow w inst x (s.findings.needs.get? inst.id) =
      if inst.threadLocal = true ∨ inst.id ∈ s.findings.silenced then .never
      else (w.program.need w.settings x inst.op).max (strongest w s.visits inst.id) := by
  unfold needNow
  by_cases hlocal : inst.threadLocal = true
  · rw [if_pos (.inl hlocal), if_pos (.inl hlocal)]
  by_cases hvisited : ∃ v ∈ s.visits, v.inst.id = inst.id
  · obtain ⟨v, hv, hid⟩ := hvisited
    obtain ⟨-, hsame⟩ := h.eq_of_id hapart hinst hv hid
    have hneed := h.needs v hv
    rw [hsame] at hneed
    rw [hneed, settledNeed]
    by_cases hsilenced : inst.id ∈ s.findings.silenced
    · simp [hsilenced]
    · simp only [hlocal, hsilenced, or_self, if_false, Bool.false_eq_true, false_or,
        Option.some.injEq, Option.getD_some]
      split
      · next hnever =>
        -- the read had no need on the visit `v`, so it has none now
        have hle := need_le_strongest (w := w) hv
        rw [hid, hnever] at hle
        have hv' : v.need w = .never := (Need.max_eq_never hle).1
        rw [Visit.need, hsame] at hv'
        rw [Program.need_eq_never hv' x, hnever]
        rfl
      · exact Need.max_comm _ _
  · have hnone : s.findings.needs.get? inst.id = none := by
      cases hget : s.findings.needs.get? inst.id with
      | none => rfl
      | some n => exact absurd (h.visited _ n hget) hvisited
    have hsilenced : inst.id ∉ s.findings.silenced := fun hs =>
      hvisited (h.visit_of_silenced hapart hinst hread hs)
    have hnever : strongest w s.visits inst.id = .never :=
      strongest_eq_never fun v hv hid => hvisited ⟨v, hv, hid⟩
    simp only [hnone, hlocal, hsilenced, hnever, or_self, if_false, Bool.false_eq_true,
      reduceCtorEq, Option.getD_none]
    exact Need.max_comm _ _

include hread in
/-- A visit of a read keeps the account. -/
theorem Accounted.read {certain : Bool} (hvisit : visitRead w scope certain inst x s = .ok (y, s')) :
    Accounted w s' := by
  obtain ⟨hvisits, recorded, hneeds, hout⟩ := visitRead_book hvisit
  have hstrongest : strongest w s'.visits inst.id =
      (w.program.need w.settings x inst.op).max (strongest w s.visits inst.id) := by
    rw [hvisits, strongest_cons_self rfl]
    rfl
  rw [h.needNow_eq hapart hinst hread x, ← hstrongest] at hout
  -- all visits under this name are visits of `inst` in the context at hand
  have hsame : ∀ v ∈ s'.visits, v.inst.id = inst.id →
      v.context = scope.context ∧ v.inst = inst := by
    rw [hvisits, List.forall_mem_cons]
    exact ⟨fun _ => ⟨rfl, rfl⟩, fun v hv => h.eq_of_id hapart hinst hv⟩
  have hmem : ∀ v ∈ s'.visits, v.inst.id ≠ inst.id → v ∈ s.visits := by
    intro v hv hne
    rw [hvisits] at hv
    rcases List.mem_cons.1 hv with rfl | hv
    · exact absurd rfl hne
    · exact hv
  have hsub : ∀ v ∈ s.visits, v ∈ s'.visits := fun v hv => hvisits ▸ List.mem_cons_of_mem _ hv
  have hnew : (⟨scope.context, inst, x, y⟩ : Visit) ∈ s'.visits := hvisits ▸ List.mem_cons_self
  constructor
  · rw [hvisits, List.forall_mem_cons]
    exact ⟨⟨hinst, hread⟩, h.stands⟩
  · intro i n hget
    rw [hneeds, IdentMap.get?_insert] at hget
    split at hget
    · next hi => exact ⟨_, hnew, hi.symm⟩
    · obtain ⟨v, hv, hid⟩ := h.visited i n hget
      exact ⟨v, hsub v hv, hid⟩
  · intro i hi
    by_cases hid : i = inst.id
    · exact .inl ⟨_, hnew, hid.symm⟩
    · refine (h.silenced i ((hout.mem_silenced_iff hid).1 hi)).imp_left ?_
      rintro ⟨v, hv, hvid⟩
      exact ⟨v, hsub v hv, hvid⟩
  · intro v hv
    rw [hneeds, IdentMap.get?_insert]
    split
    · next hid => rw [(hsame v hv hid).2, hout.recorded_eq]
    · next hid =>
      rw [h.needs v (hmem v hv hid), settledNeed, settledNeed, hvisits,
        strongest_cons_of_ne (Ne.symm hid)]
      simp only [hout.mem_silenced_iff hid]
  · intro v hv hcause
    by_cases hid : v.inst.id = inst.id
    · obtain ⟨hcontext, hinst'⟩ := hsame v hv hid
      rw [hcontext]
      by_cases hbefore : inst.id ∈ s.findings.silenced
      · obtain ⟨v₀, hv₀, hid₀⟩ := h.visit_of_silenced hapart hinst hread hbefore
        rw [← (h.eq_of_id hapart hinst hv₀ hid₀).1]
        exact hout.mem_tentative (h.tentative v₀ hv₀ (.inl (hid₀ ▸ hbefore)))
      refine hout.context_tentative ?_
      rcases hcause with hin | ⟨hlocal, hmust⟩
      · exact .inr ⟨hid ▸ hin, hbefore⟩
      · -- a visit that needs a check makes the strongest need `must`
        rw [hinst'] at hlocal
        have hle := need_le_strongest (w := w) hv
        rw [hmust, hid] at hle
        rw [if_neg (by simp [hlocal, hbefore])]
        exact .inl hle.symm
    · have hv' := hmem v hv hid
      exact hout.mem_tentative (h.tentative v hv' (hcause.imp_left (hout.mem_silenced_iff hid).1))

end Read

/-- A silenced read is recorded with `never`. -/
theorem Accounted.never_of_silenced (hapart : w.program.NamesApart) (h : Accounted w s)
    {c : ContextId} {inst : Instr} (hinst : w.program.Holds c inst)
    (hread : inst.op.readsMemory = true) (hsilenced : inst.id ∈ s.findings.silenced) :
    s.findings.needs.get? inst.id = some .never := by
  have hinst : w.program.Holds (⟨c, [], false⟩ : Scope).context inst := hinst
  obtain ⟨v, hv, hid⟩ := h.visit_of_silenced hapart hinst hread hsilenced
  rw [← hid, h.needs v hv, settledNeed, if_pos (.inr (hid ▸ hsilenced))]

/-- Giving up the value of a call keeps the account: no read bears its name. -/
theorem Accounted.silence {c : ContextId} {b : Bool} {values : List SpecValue}
    (hapart : w.program.NamesApart) (h : Accounted w s) (hinst : w.program.Holds c inst)
    (hread : inst.op.readsMemory = false) (hsilence : silence w inst.id values s = .ok (b, s')) :
    Accounted w s' := by
  obtain ⟨hneeds, htentative, hvisits, hsilenced⟩ := silence_book hsilence
  cases b with
  | false => exact h.congr hneeds htentative hsilenced hvisits
  | true =>
    have hne : ∀ v ∈ s.visits, v.inst.id ≠ inst.id := by
      intro v hv hid
      obtain ⟨hinst', hread'⟩ := h.stands v hv
      obtain ⟨-, hsame⟩ := hapart _ _ _ _ hinst' hinst hid
      rw [hsame, hread] at hread'
      cases hread'
    have hmem : ∀ v ∈ s.visits,
        (v.inst.id ∈ s'.findings.silenced ↔ v.inst.id ∈ s.findings.silenced) := by
      intro v hv
      rw [hsilenced, if_pos rfl, IdentSet.mem_insert, or_iff_right (hne v hv)]
    constructor
    · exact hvisits ▸ h.stands
    · exact hvisits ▸ hneeds ▸ h.visited
    · intro i hi
      rw [hsilenced, if_pos rfl, IdentSet.mem_insert] at hi
      rcases hi with rfl | hi
      · exact .inr ⟨c, inst, hinst, hread, rfl⟩
      · exact hvisits ▸ h.silenced i hi
    · rw [hvisits]
      intro v hv
      rw [hneeds, h.needs v hv, settledNeed, settledNeed, hvisits]
      simp only [hmem v hv]
    · rw [hvisits]
      intro v hv hcause
      rw [htentative]
      exact h.tentative v hv (hcause.imp_left (hmem v hv).1)

/-- Each turn of a walk keeps the account. -/
theorem Accounted.turn (hapart : w.program.NamesApart) (h : Accounted w s) (hturn : Turn w s s') :
    Accounted w s' := by
  cases hturn with
  | quiet hbook =>
    have hneeds : s'.findings.needs = s.findings.needs := congrArg Book.needs hbook
    have htentative : s'.findings.tentative = s.findings.tentative := congrArg Book.tentative hbook
    have hsilenced : s'.findings.silenced = s.findings.silenced := congrArg Book.silenced hbook
    have hvisits : s'.visits = s.visits := congrArg Book.visits hbook
    exact h.congr hneeds htentative hsilenced hvisits
  | read hinst hread hvisit => exact h.read hapart hinst hread hvisit
  | promote _ _ _ hpromote =>
    obtain ⟨hneeds, htentative, hvisits, hsilenced⟩ := promote_book hpromote
    exact h.congr hneeds htentative hsilenced hvisits
  | silence hinst hop _ hsilence => exact h.silence hapart hinst (by rw [hop]; rfl) hsilence

/-- After any number of runs from a fresh state, a read of its own thread or one that is silenced
is recorded with `never`, and any other one with the strongest need of all its visits. A read that
needed a check on some visit is recorded with `must` or silenced, and its context is tentative. -/
theorem needs_over_visits (hapart : w.program.NamesApart) {clock : Stamp} {r : References}
    {entries : List (Stamp × Snapshot)}
    (h : runAll w entries { clock := clock, references := r } = .ok s) : ∀ v ∈ s.visits,
    s.findings.needs.get? v.inst.id =
      some (if v.inst.threadLocal = true ∨ v.inst.id ∈ s.findings.silenced then .never
        else strongest w s.visits v.inst.id) ∧
    (v.inst.threadLocal = false → v.need w = .must →
      (s.findings.needs.get? v.inst.id = some .must ∨ v.inst.id ∈ s.findings.silenced) ∧
        v.context ∈ s.findings.tentative) := by
  have hacc : Accounted w s :=
    runAll_induction h (accounted_fresh clock r) fun s s' hturn hs => hs.turn hapart hturn
  intro v hv
  refine ⟨hacc.needs v hv, fun hlocal hmust => ⟨?_, hacc.tentative v hv (.inr ⟨hlocal, hmust⟩)⟩⟩
  by_cases hsilenced : v.inst.id ∈ s.findings.silenced
  · exact .inr hsilenced
  · have hle := need_le_strongest (w := w) hv
    rw [hmust] at hle
    have hfixed : ¬ (v.inst.threadLocal = true ∨ v.inst.id ∈ s.findings.silenced) := by
      simp [hlocal, hsilenced]
    rw [hacc.needs v hv, settledNeed, if_neg hfixed]
    exact .inl (congrArg some hle.symm)

/-- A program of one function with one block, and two objects on the heap. -/
def straight (insts : List Instr) : Program where
  objects := .ofList [(⟨0⟩, ⟨⟨0⟩, .heap, some 8, none⟩), (⟨1⟩, ⟨⟨1⟩, .heap, some 8, none⟩)]
  contexts := .ofList [(⟨0⟩,
    { id := ⟨0⟩
      kind := .function ⟨0⟩ "f" []
      blocks := .ofList [(⟨0⟩, { id := ⟨0⟩, insts := insts, terminator := .ret })]
      regions := [.block ⟨0⟩]
      entry := ⟨0⟩ })]
  root := ⟨0⟩

/-- The walk through such a program. -/
def straightSetting (insts : List Instr) : Setting where
  program := straight insts
  layout := (Layout.ofProgram (straight insts)).toOption.getD {}
  settings := {}

/-- A load of the eight bytes of the first object. -/
def loadAll (id : Nat) (result : ReadValue) : Instr :=
  ⟨⟨id⟩, .load (.single ⟨0⟩ 0) 8 .plain result, false, .none, true⟩

/-- A load is visited on a snapshot that trusts everything, and again on one that trusts nothing:
the second visit decides. -/
theorem needs_over_visits_twice :
    let w := straightSetting [loadAll 0 (.known (.scalar 1))]
    Yields (runAll w [(1, .trusting 0), (6, (Snapshot.trusting 0).clobberAll 5)] { clock := 0 })
      fun s => s.visits.map (Visit.need w) = [.must, .safe] ∧
        s.findings.needs.get? ⟨0⟩ = some .must ∧ ⟨0⟩ ∈ s.findings.tentative := by
  intro w
  have hlink : w.program.link = .ok w.program := rfl
  have hyields : Yields (runAll w [(1, .trusting 0), (6, (Snapshot.trusting 0).clobberAll 5)]
      { clock := 0 }) fun s => s.visits.map (Visit.need w) = [.must, .safe] ∧
        s.findings.silenced = ∅ ∧ ∃ v ∈ s.visits, v.need w = .must ∧ v.context = ⟨0⟩ ∧
          v.inst.id = ⟨0⟩ ∧ v.inst.threadLocal = false :=
    yields_runAll 4 (by decide +kernel)
  obtain ⟨s, hruns, hneeds, hsilenced, v, hv, hmust, hcontext, hid, hlocal⟩ := hyields
  obtain ⟨hrecorded, htentative⟩ :=
    (needs_over_visits (Program.namesApart_of_link hlink) hruns v hv).2 hlocal hmust
  rw [hsilenced, hid] at hrecorded
  exact ⟨s, hruns, hneeds, hrecorded.resolve_right (IdentSet.not_mem_empty _),
    hcontext ▸ htentative⟩

/-- Two loads with one name: the first has no value to check, and what is recorded for it is final.
The second one needs a check, which is lost. -/
theorem needs_lost_by_twins :
    let w := straightSetting
      [loadAll 0 .unknown, ⟨⟨1⟩, .fence, false, .none, true⟩, loadAll 0 (.known (.scalar 1))]
    Yields (runAll w [(1, .trusting 0)] { clock := 0 }) fun s =>
      ∃ v ∈ s.visits, v.inst.op.readsMemory = true ∧ v.inst.threadLocal = false ∧
        v.inst.id ∉ s.findings.silenced ∧ v.need w = .must ∧
        strongest w s.visits v.inst.id = .must ∧
        s.findings.needs.get? v.inst.id = some .never ∧ v.context ∉ s.findings.tentative := by
  intro w
  exact yields_runAll 4 (by decide +kernel)

end Walk

end ByteTrust
