import ByteTrust.Proofs.Interference.References
import ByteTrust.Proofs.Interference.Vouched

/-!
# After a value is given up

A read that needs a check has its value given up when it names an object without a surviving
reference, and so has an inlined call that is lost. From then on the value is unknown. Two answers
that are given afterwards go by something else.

* Whether an atomic operation lets other threads write anything is decided by its need. On the visit
  on which its value is given up the need is `must`; what is recorded is `never`, and this is final.
  So the operation is a yield point on every visit, unless its value is given up: then it is one on
  its first visit only, and on all others it is taken for a plain access (`atomic_yields`,
  `atomic_yields_no_more`).
* Whether a value is checked is decided for a read by the recorded need, and for an inlined call by
  its callee. So of the values that are given up those of reads are not checked, and those of calls
  are (`needsCheck_of_silenced`, `needsCheck_silenced_call`).

That a value is given up on the first visit or never is because objects without a reference only
become fewer (`Turn.missing_subset`).
-/

namespace ByteTrust

/-- One of the values names the object, which lives on through a reference. -/
def Program.Names (p : Program) (values : List SpecValue) (o : ObjectId) : Prop :=
  p.needsReference o = true ∧ ∃ v ∈ values, v.object? = some o

theorem ReadValue.isWhollyUnknown_of_mem_values {result : ReadValue} {v : SpecValue}
    (h : v ∈ result.values) : result.isWhollyUnknown = false := by
  cases result with
  | unknown => cases h
  | known => rfl
  | pieces ps =>
    obtain ⟨piece, hpiece, hv⟩ := List.mem_filterMap.1 h
    refine List.all_eq_false.2 ⟨piece, hpiece, ?_⟩
    simp [hv]

theorem Operation.callee?_of_readsMemory {op : Operation} (h : op.readsMemory = true) :
    op.callee? = none := by
  cases op with
  | call => cases h
  | _ => rfl

namespace Walk

variable {w : Setting} {s s' : State} {scope : Scope} {inst : Instr} {x y : Snapshot} {i : InstId}

/-! ## Which values are given up -/

/-- Values are given up if one of them names an object without a reference. -/
theorem silence_eq_true_iff {j : InstId} {values : List SpecValue} {b : Bool}
    (h : silence w j values s = .ok (b, s')) :
    b = true ↔ ∃ o ∈ s.references.missing, w.program.Names values o := by
  have hmem (o : ObjectId) : o ∈ (values.filterMap SpecValue.object?).filter (fun o =>
      w.program.needsReference o && s.references.missing.contains o) ↔
      o ∈ s.references.missing ∧ w.program.Names values o := by
    rw [List.mem_filter, List.mem_filterMap, Bool.and_eq_true, IdentSet.contains_iff,
      Program.Names]
    tauto
  simp only [silence, step_bind_eq_ok, step_get_eq_ok] at h
  obtain ⟨_, _, ⟨rfl, rfl⟩, h⟩ := h
  split at h
  · next hempty =>
    obtain ⟨rfl, -⟩ := step_pure_eq_ok.1 h
    refine iff_of_false Bool.false_ne_true ?_
    rintro ⟨o, ho⟩
    have hin := (hmem o).2 ho
    rw [List.isEmpty_iff.1 hempty] at hin
    cases hin
  · next hobjects =>
    simp only [step_bind_eq_ok, step_modify_eq_ok, note_eq_ok, step_pure_eq_ok] at h
    obtain ⟨_, _, -, _, _, -, rfl, -⟩ := h
    obtain ⟨o, ho⟩ := List.exists_mem_of_ne_nil _ fun hnil => hobjects (List.isEmpty_iff.2 hnil)
    exact iff_of_true rfl ⟨o, (hmem o).1 ho⟩

theorem silence_silenced {j : InstId} {values : List SpecValue} {b : Bool}
    (h : silence w j values s = .ok (b, s')) :
    i ∈ s'.findings.silenced ↔ i ∈ s.findings.silenced ∨
      i = j ∧ ∃ o ∈ s.references.missing, w.program.Names values o := by
  rw [(silence_book h).2.2.2, ← silence_eq_true_iff h]
  cases b with
  | false => simp
  | true => simp [IdentSet.mem_insert, or_comm]

/-- A visit gives up the value of a read if it needs a check and names an object without a
reference. -/
theorem visitRead_silenced {certain : Bool} (h : visitRead w scope certain inst x s = .ok (y, s')) :
    i ∈ s'.findings.silenced ↔ i ∈ s.findings.silenced ∨
      i = inst.id ∧ needNow w inst x (s.findings.needs.get? inst.id) = .must ∧
        ∃ o ∈ s.references.missing, w.program.Names inst.op.readValues o := by
  obtain ⟨s₁, recorded, hdecides, rfl, rfl⟩ := visitRead_cases h
  generalize needNow w inst x (s.findings.needs.get? inst.id) = need at hdecides
  dsimp only
  cases hdecides with
  | checked hmust hsilence => simp only [silence_silenced hsilence, hmust, true_and]
  | promoted hmust _ hpromote => simp only [(promote_book hpromote).2.2.2, hmust, false_and,
      and_false, or_false]
  | safe hmust => simp only [hmust, false_and, and_false, or_false]

/-- Objects without a reference become fewer. -/
theorem Turn.missing_subset (h : Turn w s s') :
    ∀ o ∈ s'.references.missing, o ∈ s.references.missing := by
  intro o ho
  obtain ⟨i, checked, hhandles⟩ := h.handles
  cases hhandles with
  | leaves hrefs => exact hrefs ▸ ho
  | gives _ _ _ hrefs => rwa [hrefs, References.missing_foldl_silence] at ho
  | keeps _ _ hrefs =>
    rw [hrefs] at ho
    exact (IdentSet.mem_erase.1 ho).2

/-- Where the values come from that are given up: from reads, and from calls that are lost, which
name an object of `missing`. -/
structure Traced (w : Setting) (missing : IdentSet .object) (s : State) : Prop where
  missing_subset : ∀ o ∈ s.references.missing, o ∈ missing
  source : ∀ i ∈ s.findings.silenced, ∃ c inst, w.program.Holds c inst ∧ inst.id = i ∧
    (inst.op.readsMemory = true ∨ ∃ site, inst.op = .call site ∧ Lost w s.findings site) ∧
    ∃ o ∈ missing, w.program.Names inst.op.readValues o

theorem traced_fresh (clock : Stamp) (r : References) :
    Traced w r.missing { clock := clock, references := r } where
  missing_subset _ ho := ho
  source _ h := absurd h (IdentSet.not_mem_empty _)

theorem Traced.turn {missing : IdentSet .object} (h : Traced w missing s) (hturn : Turn w s s') :
    Traced w missing s' := by
  refine ⟨fun o ho => h.missing_subset o (hturn.missing_subset o ho), fun i hi => ?_⟩
  have hold (hi : i ∈ s.findings.silenced) : ∃ c inst, w.program.Holds c inst ∧ inst.id = i ∧
      (inst.op.readsMemory = true ∨ ∃ site, inst.op = .call site ∧ Lost w s'.findings site) ∧
      ∃ o ∈ missing, w.program.Names inst.op.readValues o := by
    obtain ⟨c, inst, hinst, hid, hkind, hnames⟩ := h.source i hi
    refine ⟨c, inst, hinst, hid, hkind.imp_right ?_, hnames⟩
    rintro ⟨site, hop, hlost⟩
    exact ⟨site, hop, hlost.mono hturn.tentative_subset⟩
  have htentative := hturn.tentative_subset
  cases hturn with
  | quiet hbook =>
    have hsilenced : s'.findings.silenced = s.findings.silenced := congrArg Book.silenced hbook
    exact hold (hsilenced ▸ hi)
  | read hinst hread hvisit =>
    rcases (visitRead_silenced hvisit).1 hi with hi | ⟨rfl, -, o, ho, hnames⟩
    · exact hold hi
    · exact ⟨_, _, hinst, rfl, .inl hread, o, h.missing_subset o ho, hnames⟩
  | promote _ _ _ hpromote => exact hold ((promote_book hpromote).2.2.2 ▸ hi)
  | silence hinst hop hlost hsilence =>
    rcases (silence_silenced hsilence).1 hi with hi | ⟨rfl, o, ho, hnames⟩
    · exact hold hi
    · refine ⟨_, _, hinst, rfl, .inr ⟨_, hop, hlost.mono htentative⟩, o, h.missing_subset o ho, ?_⟩
      rw [hop]
      exact hnames

/-! ## Atomic operations -/

/-- An atomic operation with a value to check, on memory of other threads, which is not proven to
behave like a plain access. -/
def Synchronizes (inst : Instr) : Prop :=
  inst.threadLocal = false ∧ ∃ ptr size ordering result,
    inst.op = .atomic ptr size ordering result ∧ result.isWhollyUnknown = false ∧
      ordering ≠ .orderedSimple

theorem Synchronizes.readsMemory (h : Synchronizes inst) : inst.op.readsMemory = true := by
  obtain ⟨-, ptr, size, ordering, result, hop, -⟩ := h
  rw [hop]
  rfl

/-- Such an operation needs a check on every visit, until its value is given up. -/
theorem Accounted.needNow_eq_must_iff (hapart : w.program.NamesApart) (h : Accounted w s)
    (hthreads : w.settings.singleThreaded = false) (hinst : w.program.Holds scope.context inst)
    (hsync : Synchronizes inst) (x : Snapshot) :
    needNow w inst x (s.findings.needs.get? inst.id) = .must ↔
      inst.id ∉ s.findings.silenced := by
  rw [h.needNow_eq hapart hinst hsync.readsMemory]
  obtain ⟨hshared, ptr, size, ordering, result, hop, hknown, -⟩ := hsync
  have hneed : w.program.need w.settings x inst.op = .must := by
    simp [Program.need, hthreads, hop, hknown]
  rw [hneed]
  by_cases hsilenced : inst.id ∈ s.findings.silenced
  · simp [hsilenced]
  · simp [hshared, hsilenced, Need.max]

/-- What is known of such operations in the middle of a run: one whose value is kept after a visit
names no object without a reference, and the need on a visit was `must` unless the value is given up
and there was an earlier visit. -/
structure Clobbering (w : Setting) (s : State) : Prop where
  accounted : Accounted w s
  kept : ∀ v ∈ s.visits, Synchronizes v.inst → v.inst.id ∉ s.findings.silenced →
    ∀ o, w.program.Names v.inst.op.readValues o → o ∉ s.references.missing
  after : ∀ later v earlier, s.visits = later ++ v :: earlier → Synchronizes v.inst →
    ∃ now need suppressed,
      v.after = w.program.transfer w.settings now v.inst.op (some need) suppressed v.before ∧
      (need = .must ↔
        (v.inst.id ∈ s.findings.silenced → ∀ u ∈ earlier, u.inst.id ≠ v.inst.id))

theorem clobbering_fresh (clock : Stamp) (r : References) :
    Clobbering w { clock := clock, references := r } where
  accounted := accounted_fresh clock r
  kept v hv := absurd hv List.not_mem_nil
  after later v earlier h := by simp at h

/-- What concerns neither the visits nor the values of visited reads changes nothing. -/
theorem Clobbering.congr (h : Clobbering w s) (haccounted : Accounted w s')
    (hvisits : s'.visits = s.visits)
    (hmissing : ∀ o ∈ s'.references.missing, o ∈ s.references.missing)
    (hsilenced : ∀ v ∈ s.visits,
      (v.inst.id ∈ s'.findings.silenced ↔ v.inst.id ∈ s.findings.silenced)) :
    Clobbering w s' := by
  refine ⟨haccounted, ?_, ?_⟩
  · rw [hvisits]
    intro v hv hsync hkept o ho hin
    exact h.kept v hv hsync (fun hs => hkept ((hsilenced v hv).2 hs)) o ho (hmissing o hin)
  · rw [hvisits]
    intro later v earlier hsplit hsync
    rw [hsilenced v (hsplit ▸ List.mem_append_right later List.mem_cons_self)]
    exact h.after later v earlier hsplit hsync

/-- A value that is kept on one visit names no missing object, so it is kept on all later ones. -/
theorem Clobbering.silenced_iff {certain : Bool} (hapart : w.program.NamesApart)
    (h : Clobbering w s) (hinst : w.program.Holds scope.context inst)
    (hvisit : visitRead w scope certain inst x s = .ok (y, s')) :
    ∀ v ∈ s.visits, Synchronizes v.inst →
      (v.inst.id ∈ s'.findings.silenced ↔ v.inst.id ∈ s.findings.silenced) := by
  intro v hv hsync
  rw [visitRead_silenced hvisit]
  refine ⟨fun hs' => ?_, .inl⟩
  rcases hs' with hs | ⟨hid, -, o, ho, hnames⟩
  · exact hs
  · by_contra hs
    obtain ⟨-, hsame⟩ := h.accounted.eq_of_id hapart hinst hv hid
    exact h.kept v hv hsync hs o (hsame ▸ hnames) ho

theorem Clobbering.read {certain : Bool} (hapart : w.program.NamesApart) (h : Clobbering w s)
    (hthreads : w.settings.singleThreaded = false) (hinst : w.program.Holds scope.context inst)
    (hread : inst.op.readsMemory = true)
    (hvisit : visitRead w scope certain inst x s = .ok (y, s')) : Clobbering w s' := by
  have hturn : Turn w s s' := .read hinst hread hvisit
  obtain ⟨hvisits, -⟩ := visitRead_book hvisit
  obtain ⟨s₁, -, -, hafter, -⟩ := visitRead_cases hvisit
  have hsub : ∀ i ∈ s.findings.silenced, i ∈ s'.findings.silenced := fun i hi =>
    (visitRead_silenced hvisit).2 (.inl hi)
  have hkeep := h.silenced_iff hapart hinst hvisit
  refine ⟨h.accounted.turn hapart hturn, ?_, ?_⟩
  · rw [hvisits, List.forall_mem_cons]
    constructor
    · intro hsync hkept o ho hin
      have hmust := (h.accounted.needNow_eq_must_iff hapart hthreads hinst hsync x).2 fun hs =>
        hkept (hsub _ hs)
      exact hkept ((visitRead_silenced hvisit).2
        (.inr ⟨rfl, hmust, o, hturn.missing_subset o hin, ho⟩))
    · intro v hv hsync hkept o ho hin
      exact h.kept v hv hsync (fun hs => hkept (hsub _ hs)) o ho (hturn.missing_subset o hin)
  · intro later v earlier hsplit hsync
    rw [hvisits] at hsplit
    cases later with
    | nil =>
      obtain ⟨rfl, rfl⟩ := List.cons.inj hsplit
      refine ⟨_, _, _, hafter, ?_⟩
      rw [h.accounted.needNow_eq_must_iff hapart hthreads hinst hsync]
      constructor
      · intro hs hs' u hu hid
        have hsame := (h.accounted.eq_of_id hapart hinst hu hid).2
        exact hs (hid ▸ (hkeep u hu (hsame ▸ hsync)).1 (hid ▸ hs'))
      · intro hfirst hs
        obtain ⟨u, hu, hid⟩ := h.accounted.visit_of_silenced hapart hinst hread hs
        exact hfirst (hsub _ hs) u hu hid
    | cons _ later =>
      obtain ⟨-, hsplit⟩ := List.cons.inj hsplit
      rw [hkeep v (hsplit ▸ List.mem_append_right later List.mem_cons_self) hsync]
      exact h.after later v earlier hsplit hsync

theorem Clobbering.turn (hapart : w.program.NamesApart)
    (hthreads : w.settings.singleThreaded = false) (h : Clobbering w s) (hturn : Turn w s s') :
    Clobbering w s' := by
  have haccounted := h.accounted.turn hapart hturn
  have hmissing := hturn.missing_subset
  cases hturn with
  | quiet hbook =>
    have hsilenced : s'.findings.silenced = s.findings.silenced := congrArg Book.silenced hbook
    have hvisits : s'.visits = s.visits := congrArg Book.visits hbook
    exact h.congr haccounted hvisits hmissing fun v _ => by rw [hsilenced]
  | read hinst hread hvisit => exact h.read hapart hthreads hinst hread hvisit
  | promote _ _ _ hpromote =>
    obtain ⟨-, -, hvisits, hsilenced⟩ := promote_book hpromote
    exact h.congr haccounted hvisits hmissing fun v _ => by rw [hsilenced]
  | @silence c inst site b hinst hop _ hsilence =>
    refine h.congr haccounted (silence_book hsilence).2.2.1 hmissing fun v hv => ?_
    rw [silence_silenced hsilence]
    refine or_iff_left ?_
    -- no read bears the name of the call
    rintro ⟨hid, -⟩
    obtain ⟨hholds, hread⟩ := h.accounted.stands v hv
    obtain ⟨-, hsame⟩ := hapart _ _ _ _ hholds hinst hid
    rw [hsame, hop] at hread
    cases hread

/-- After any number of runs, whatever references were missing: an atomic operation with a value to
check, on memory of other threads and not proven to behave like a plain access, leaves nothing
trusted on its first visit, and on every visit if its value is not given up. Its value is given up
only if it names an object that had no reference at first, and then all its visits but the first
make its bytes trusted and take no trust away. -/
theorem atomic_yields {p₀ : Program} (hlink : p₀.link = .ok w.program)
    (hthreads : w.settings.singleThreaded = false) {clock : Stamp} {r : References}
    {entries : List (Stamp × Snapshot)}
    (h : runAll w entries { clock := clock, references := r } = .ok s) {later earlier : List Visit}
    {v : Visit} (hvisits : s.visits = later ++ v :: earlier) {ptr : PointerValue} {size : Nat}
    {ordering : AccessOrdering} {result : ReadValue}
    (hop : v.inst.op = .atomic ptr size ordering result) (hshared : v.inst.threadLocal = false)
    (hknown : result.isWhollyUnknown = false) (hordering : ordering ≠ .orderedSimple) :
    ((v.inst.id ∈ s.findings.silenced → ∀ u ∈ earlier, u.inst.id ≠ v.inst.id) →
      v.after.othersClobbered = true ∧ ∀ pos o b, ¬ v.after.Trusts pos o b) ∧
    (v.inst.id ∈ s.findings.silenced →
      (∃ o ∈ r.missing, w.program.Names result.values o) ∧
      ((∃ u ∈ earlier, u.inst.id = v.inst.id) → ∃ suppressed now,
        v.after = w.program.vouchUnless suppressed now ptr 0 size v.before)) := by
  have hapart := Program.namesApart_of_link hlink
  have hinv : Clobbering w s := runAll_induction h (clobbering_fresh clock r)
    fun s s' hturn hs => hs.turn hapart hthreads hturn
  have htraced : Traced w r.missing s :=
    runAll_induction h (traced_fresh clock r) fun s s' hturn hs => hs.turn hturn
  obtain ⟨now, need, suppressed, hafter, hneed⟩ := hinv.after later v earlier hvisits
    ⟨hshared, ptr, size, ordering, result, hop, hknown, hordering⟩
  rw [hop, Program.transfer] at hafter
  refine ⟨fun hfirst => ?_, fun hsilenced => ⟨?_, ?_⟩⟩
  · rw [if_pos ⟨congrArg some (hneed.2 hfirst), hordering⟩] at hafter
    rw [hafter]
    refine ⟨rfl, fun pos o b hb => ?_⟩
    exact Snapshot.not_trustsAt_clobberAll (Snapshot.trusts_iff_trustsAt.1 hb)
  · obtain ⟨c, inst, hinst, hid, -, o, ho, hnames⟩ := htraced.source _ hsilenced
    have hv := hinv.accounted.stands v (hvisits ▸ List.mem_append_right later List.mem_cons_self)
    obtain ⟨-, rfl⟩ := hapart _ _ _ _ hinst hv.1 hid
    rw [hop] at hnames
    exact ⟨o, ho, hnames⟩
  · rintro ⟨u, hu, hid⟩
    have hplain : ¬ (some need = some .must ∧ ordering ≠ .orderedSimple) := by
      rintro ⟨hmust, -⟩
      exact hneed.1 (Option.some.inj hmust) hsilenced u hu hid
    rw [if_neg hplain] at hafter
    exact ⟨suppressed, now, hafter⟩

/-- An atomic operation on the first object, which reads a reference to the second one. -/
def atomicReference (id : Nat) : Instr :=
  ⟨⟨id⟩, .atomic (.single ⟨0⟩ 0) 8 .ordered (.known (.pointer ⟨⟨1⟩, 0⟩)), false, .none, true⟩

/-- The value of the operation is given up in the first pass over the loop, which leaves nothing
trusted; in the second pass its bytes become trusted. -/
theorem atomic_yields_loop :
    let w := linkedSetting (looping [atomicReference 0] [])
    Yields (runAll w [(1, .trusting 0)] { clock := 0, references := .without [⟨1⟩] }) fun s =>
      ∃ first second, s.visits = [second, first] ∧ first.after.othersClobbered = true ∧
        (∀ pos o b, ¬ first.after.Trusts pos o b) ∧ ∃ suppressed now,
          second.after = w.program.vouchUnless suppressed now (.single ⟨0⟩ 0) 0 8 second.before := by
  intro w
  have hyields : Yields (runAll w [(1, .trusting 0)]
      { clock := 0, references := .without [⟨1⟩] }) fun s =>
        s.visits.map (·.inst) = [atomicReference 0, atomicReference 0] ∧
          ⟨0⟩ ∈ s.findings.silenced :=
    yields_runAll 4 (by decide +kernel)
  obtain ⟨s, hruns, hinsts, hsilenced⟩ := hyields
  obtain ⟨second, _, hvisits, hsecond, hrest⟩ := List.map_eq_cons_iff.1 hinsts
  obtain ⟨first, _, rfl, hfirst, hnil⟩ := List.map_eq_cons_iff.1 hrest
  obtain rfl := List.map_eq_nil_iff.1 hnil
  obtain ⟨hlink, -⟩ := linkedSetting_spec (p := looping [atomicReference 0] []) (by decide +kernel)
  have hatomic (v : Visit) (hv : v.inst = atomicReference 0) :
      v.inst.op = .atomic (.single ⟨0⟩ 0) 8 .ordered (.known (.pointer ⟨⟨1⟩, 0⟩)) ∧
        v.inst.threadLocal = false := by
    rw [hv]
    exact ⟨rfl, rfl⟩
  have hbefore : s.visits = [second] ++ first :: [] := hvisits
  have hafter : s.visits = [] ++ second :: [first] := hvisits
  obtain ⟨hblank, -⟩ := atomic_yields hlink rfl hruns hbefore (hatomic first hfirst).1
    (hatomic first hfirst).2 rfl (by decide)
  obtain ⟨-, hvouched⟩ := atomic_yields hlink rfl hruns hafter (hatomic second hsecond).1
    (hatomic second hsecond).2 rfl (by decide)
  obtain ⟨hclobbered, hnothing⟩ := hblank fun _ u hu => absurd hu List.not_mem_nil
  refine ⟨s, hruns, first, second, hvisits, hclobbered, hnothing, ?_⟩
  refine (hvouched ?_).2 ⟨first, List.mem_singleton_self first, ?_⟩
  · rw [hsecond]
    exact hsilenced
  · rw [hfirst, hsecond]

/-- In the second pass over the loop the operation leaves bytes trusted. -/
theorem atomic_yields_no_more :
    let w := linkedSetting (looping [atomicReference 0] [])
    Yields (runAll w [(1, .trusting 0)] { clock := 0, references := .without [⟨1⟩] }) fun s =>
      ∃ v ∈ s.visits, v.inst = atomicReference 0 ∧ v.after.Trusts .shared ⟨0⟩ 0 := by
  intro w
  have hyields : Yields (runAll w [(1, .trusting 0)]
      { clock := 0, references := .without [⟨1⟩] }) fun s => ∃ v ∈ s.visits,
        v.inst = atomicReference 0 ∧ v.after.shared.listed.get? ⟨0⟩ = some (.ofRange ⟨0, 8⟩) :=
    yields_runAll 4 (by decide +kernel)
  obtain ⟨s, hruns, v, hv, hinst, hbytes⟩ := hyields
  refine ⟨s, hruns, v, hv, hinst, v.after.shared, rfl, ?_⟩
  rw [Sheet.Trusts, hbytes]
  exact (by decide : 0 ∈ ByteSet.ofRange ⟨0, 8⟩)

/-! ## Checks of values that are given up -/

/-- The value of a lost call is checked, if it has one. -/
theorem Lost.callNeedsCheck {f : Findings} {site : CallSite} (h : Lost w f site) :
    callNeedsCheck w f site = .ok !site.result.isWhollyUnknown := by
  obtain ⟨callee, c, hcallee, hc, hemitted, htentative⟩ := h
  simp only [Walk.callNeedsCheck, hcallee, hc, ok_bind, hemitted, htentative]
  rfl

/-- After any number of runs, a value that is given up, and of which no check was asked for before,
is checked if and only if it is that of an inlined call which is reached, unless checks are
omitted. The instruction is to be found where the layout says, as it is in every linked program
whose contexts bear their own names. -/
theorem needsCheck_of_silenced {p₀ : Program} (hlink : p₀.link = .ok w.program) {clock : Stamp}
    {r : References} {entries : List (Stamp × Snapshot)}
    (h : runAll w entries { clock := clock, references := r } = .ok s) {place : Place}
    (hplace : w.layout.place inst.id = .ok place) (hfound : w.program.instruction place = .ok inst)
    (hnone : inst.runtimeCheck = .none) (hsilenced : inst.id ∈ s.findings.silenced) :
    needsCheck w s.findings inst.id false =
      .ok (!w.settings.omitChecks && inst.reached && inst.op.callee?.isSome) := by
  have hapart := Program.namesApart_of_link hlink
  have hacc : Accounted w s :=
    runAll_induction h (accounted_fresh clock r) fun s s' hturn hs => hs.turn hapart hturn
  have htraced : Traced w r.missing s :=
    runAll_induction h (traced_fresh clock r) fun s s' hturn hs => hs.turn hturn
  have hholds : w.program.Holds place.context inst := Program.holds_of_instruction hfound
  obtain ⟨c, inst', hinst', hid, hkind, o, -, -, v, hv, -⟩ := htraced.source _ hsilenced
  obtain ⟨-, rfl⟩ := hapart _ _ _ _ hinst' hholds hid
  rw [needsCheck_of_none hplace hfound hnone]
  rcases hkind with hread | ⟨site, hop, hlost⟩
  · rw [interferes_of_never hread (hacc.never_of_silenced hapart hholds hread hsilenced),
      Operation.callee?_of_readsMemory hread]
    cases w.settings.omitChecks <;> cases inst'.reached <;> simp
  · obtain ⟨callee, -, hcallee, -⟩ := id hlost
    rw [hop] at hv ⊢
    rw [interferes, hlost.callNeedsCheck, ReadValue.isWhollyUnknown_of_mem_values hv]
    simp only [Operation.producesValue, Operation.callee?, hcallee, Option.isSome_some, Bool.or_true]
    cases w.settings.omitChecks <;> cases inst'.reached <;> simp

/-- A call of a function that is not emitted, which has a fence and then loads a reference. The call
is speculated to return that reference too. -/
def referenceCall : Program :=
  { straight [] with
    contexts := .ofList
      [oneBlock 0 [⟨⟨0⟩, .call { callee := some ⟨1⟩, result := .known (.pointer ⟨⟨1⟩, 0⟩) },
          false, .none, true⟩],
        (⟨1⟩, { (oneBlock 1 [fenceAt 1, loadReference 2]).2 with materialized := false })] }

/-- The value of the load in the function is given up, and is not checked. -/
theorem needsCheck_of_silenced_load :
    let w := linkedSetting referenceCall
    Yields (runAll w [(1, .trusting 0)] { clock := 0, references := .without [⟨1⟩] }) fun s =>
      ⟨2⟩ ∈ s.findings.silenced ∧ needsCheck w s.findings ⟨2⟩ false = .ok false := by
  intro w
  have hyields : Yields (runAll w [(1, .trusting 0)]
      { clock := 0, references := .without [⟨1⟩] }) fun s => ⟨2⟩ ∈ s.findings.silenced :=
    yields_runAll 4 (by decide +kernel)
  obtain ⟨s, hruns, hsilenced⟩ := hyields
  obtain ⟨hlink, -⟩ := linkedSetting_spec (p := referenceCall) (by decide +kernel)
  have hplace : Yields (w.layout.place ⟨2⟩) fun place =>
      w.program.instruction place = .ok (loadReference 2) := by
    decide +kernel
  obtain ⟨place, hplace, hfound⟩ := hplace
  exact ⟨s, hruns, hsilenced, needsCheck_of_silenced hlink hruns hplace hfound rfl hsilenced⟩

/-- The value of the call is given up too, and is checked. -/
theorem needsCheck_silenced_call :
    let w := linkedSetting referenceCall
    Yields (runAll w [(1, .trusting 0)] { clock := 0, references := .without [⟨1⟩] }) fun s =>
      ⟨0⟩ ∈ s.findings.silenced ∧ needsCheck w s.findings ⟨0⟩ false = .ok true := by
  intro w
  exact yields_runAll 4 (by decide +kernel)

end Walk

end ByteTrust
