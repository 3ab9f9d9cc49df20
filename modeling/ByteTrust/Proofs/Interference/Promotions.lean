import ByteTrust.Proofs.Interference.Completes
import ByteTrust.Proofs.Interference.Reported

/-!
# Promoted and given up

A read that is safe may become the surviving reference of the object it names, and one that needs a
check has its value given up if the object has no surviving reference. On one visit only one of the
two can happen, and for a call only one of the two can ever happen: what makes the value of a call
lost is never taken back (`Lost.mono`). A read that is visited again can have both.

* A read whose value was given up is recorded with `never`, so on the next visit it is taken for
  safe and may be promoted (`given_up_and_promoted`). A read with no visit after one on which it
  needed a check does not both give up an object and become its reference (`given_up_not_promoted`).
* A read that is safe on one visit may be promoted there, and on a later visit its object is not
  missing any more, so the need `must` is recorded and stays (`promoted_and_must`). A promoted read
  with no visit that needed a check after one that did not is not recorded with `must`
  (`promoted_not_must`).
-/

namespace ByteTrust

namespace References

/-- The objects for which the value of an instruction is given up. -/
def given (r : References) (i : InstId) : List ObjectId := (r.silenced.get? i).getD []

theorem mem_given_silence {r : References} {i j : InstId} {o o' : ObjectId} :
    o ∈ (r.silence j o').given i ↔ o ∈ r.given i ∨ i = j ∧ o = o' := by
  unfold given silence
  rw [IdentMap.get?_insert]
  by_cases hij : j = i
  · subst hij
    simp only [if_true, Option.getD_some, true_and]
    split
    · next ho =>
      rw [List.contains_iff_mem] at ho
      exact ⟨.inl, fun h => h.elim id fun h => h ▸ ho⟩
    · rw [List.mem_append, List.mem_singleton]
  · simp [Ne.symm hij]

theorem mem_given_foldl {r : References} {i j : InstId} {o : ObjectId} {objects : List ObjectId} :
    o ∈ (objects.foldl (fun r o => r.silence j o) r).given i ↔
      o ∈ r.given i ∨ i = j ∧ o ∈ objects := by
  induction objects generalizing r with
  | nil => simp
  | cons o' objects ih =>
    rw [List.foldl_cons, ih, mem_given_silence, List.mem_cons]
    tauto

@[simp] theorem canonical_foldl_silence (r : References) (j : InstId) (objects : List ObjectId) :
    (objects.foldl (fun r o => r.silence j o) r).canonical = r.canonical := by
  induction objects generalizing r with
  | nil => rfl
  | cons o objects ih => exact ih (r.silence j o)

end References

namespace Walk

variable {w : Setting} {s s' : State} {scope : Scope} {inst : Instr} {x y : Snapshot}

/-! ## A lost value stays lost -/

theorem Lost.mono {f f' : Findings} {site : CallSite} (h : Lost w f site)
    (hf : ∀ c ∈ f.tentative, c ∈ f'.tentative) : Lost w f' site := by
  obtain ⟨callee, c, hcallee, hc, hemitted, htentative⟩ := h
  exact ⟨callee, c, hcallee, hc, hemitted, Program.reaches_mono hf htentative⟩

/-- A tentative context stays so. -/
theorem Turn.tentative_subset (h : Turn w s s') :
    ∀ c ∈ s.findings.tentative, c ∈ s'.findings.tentative := by
  intro c hc
  cases h with
  | quiet hbook =>
    have htentative : s'.findings.tentative = s.findings.tentative := congrArg Book.tentative hbook
    exact htentative ▸ hc
  | read _ _ hvisit =>
    obtain ⟨-, recorded, -, hout⟩ := visitRead_book hvisit
    cases hout <;> simp_all
  | promote _ _ _ hpromote => exact (promote_book hpromote).2.1 ▸ hc
  | silence _ _ _ hsilence => exact (silence_book hsilence).2.1 ▸ hc

/-! ## What happens to references -/

/-- What one step does with the references of objects on behalf of `i`, where `checked` says that
the value of `i` is not to be used without a check. -/
inductive Handles (w : Setting) (i : InstId) (checked : Prop) (s s' : State) : Prop
  | leaves (hrefs : s'.references = s.references)
      (hpromotions : s'.findings.promotions = s.findings.promotions)
      (hsilenced : s'.findings.silenced = s.findings.silenced)
  | gives {objects : List ObjectId} (hchecked : checked)
      (hmissing : ∀ o ∈ objects, o ∈ s.references.missing)
      (hsilenced : s'.findings.silenced = s.findings.silenced.insert i)
      (hrefs : s'.references = objects.foldl (fun r o => r.silence i o) s.references)
      (hpromotions : s'.findings.promotions = s.findings.promotions)
      (hne : objects ≠ []) (hneeded : ∀ o ∈ objects, w.program.needsReference o = true)
  | keeps {o : ObjectId} (hchecked : ¬ checked) (hmissing : o ∈ s.references.missing)
      (hrefs : s'.references = s.references.promote o i)
      (hpromotions : s'.findings.promotions = s.findings.promotions ∧
          (o, i) ∈ s.findings.promotions ∨
        s'.findings.promotions = s.findings.promotions ++ [(o, i)])
      (hsilenced : s'.findings.silenced = s.findings.silenced)
      (hneeded : w.program.needsReference o = true)

theorem silence_handles {i : InstId} {values : List SpecValue} {b : Bool}
    (h : silence w i values s = .ok (b, s')) : Handles w i True s s' := by
  obtain ⟨rfl, rfl⟩ | ⟨objects, rfl, hne, hmissing, hneeded, rfl⟩ := silence_cases h
  · exact .leaves rfl rfl rfl
  · exact .gives trivial hmissing rfl rfl rfl hne hneeded

theorem promote_handles {i : InstId} {result : ReadValue} {u : Unit}
    (h : promote w i result s = .ok (u, s')) : Handles w i False s s' := by
  obtain rfl | ⟨o, promotions, -, hmissing, hneeded, hpromotions, rfl⟩ := promote_cases h
  · exact .leaves rfl rfl rfl
  · exact .keeps not_false hmissing rfl hpromotions rfl hneeded

/-- What came before and after may differ in whatever else is in the state. -/
theorem Handles.congr {i : InstId} {checked checked' : Prop} {t t' : State}
    (h : Handles w i checked t t') (hchecked : checked ↔ checked')
    (hrefs : s.references = t.references)
    (hpromotions : s.findings.promotions = t.findings.promotions)
    (hsilenced : s.findings.silenced = t.findings.silenced)
    (hrefs' : s'.references = t'.references)
    (hpromotions' : s'.findings.promotions = t'.findings.promotions)
    (hsilenced' : s'.findings.silenced = t'.findings.silenced) : Handles w i checked' s s' := by
  cases h with
  | leaves hr hp hs =>
    rw [← hrefs, ← hrefs'] at hr
    rw [← hpromotions, ← hpromotions'] at hp
    rw [← hsilenced, ← hsilenced'] at hs
    exact .leaves hr hp hs
  | gives hc hm hs hr hp hne hn =>
    rw [← hrefs] at hm
    rw [← hrefs, ← hrefs'] at hr
    rw [← hpromotions, ← hpromotions'] at hp
    rw [← hsilenced, ← hsilenced'] at hs
    exact .gives (hchecked.1 hc) hm hs hr hp hne hn
  | keeps hc hm hr hp hs hn =>
    rw [← hrefs] at hm
    rw [← hrefs, ← hrefs'] at hr
    rw [← hpromotions, ← hpromotions'] at hp
    rw [← hsilenced, ← hsilenced'] at hs
    exact .keeps (fun h => hc (hchecked.2 h)) hm hr hp hs hn

theorem visitRead_handles {certain : Bool} (h : visitRead w scope certain inst x s = .ok (y, s')) :
    Handles w inst.id (needNow w inst x (s.findings.needs.get? inst.id) = .must) s s' := by
  obtain ⟨s₁, recorded, hdecides, rfl, rfl⟩ := visitRead_cases h
  generalize needNow w inst x (s.findings.needs.get? inst.id) = need at hdecides
  cases hdecides with
  | checked hmust hsilence =>
    exact (silence_handles hsilence).congr (by simp [hmust]) rfl rfl rfl rfl rfl rfl
  | promoted hmust _ hpromote =>
    exact (promote_handles hpromote).congr (by simp [hmust]) rfl rfl rfl rfl rfl rfl
  | safe => exact .leaves rfl rfl rfl

/-- The promotions are old, but for the one of the step. -/
theorem Handles.mem_promotions {i : InstId} {checked : Prop} (h : Handles w i checked s s')
    {q : ObjectId × InstId} (hq : q ∈ s'.findings.promotions) :
    q ∈ s.findings.promotions ∨ q.2 = i ∧ ¬ checked := by
  cases h with
  | leaves _ hp => exact .inl (hp ▸ hq)
  | gives _ _ _ _ hp => exact .inl (hp ▸ hq)
  | keeps hc _ _ hp =>
    rcases hp with ⟨hp, -⟩ | hp
    · exact .inl (hp ▸ hq)
    · rw [hp, List.mem_append, List.mem_singleton] at hq
      exact hq.imp_right fun hq => ⟨congrArg Prod.snd hq, hc⟩

/-! ## Visits one after the other -/

/-- A visit of `i` with a need in `P` precedes one with a need in `Q`, where the latest visit
comes first. -/
def Precedes (w : Setting) (vs : List Visit) (i : InstId) (P Q : Need → Prop) : Prop :=
  ∃ earlier later, [later, earlier].Sublist vs ∧ earlier.inst.id = i ∧ later.inst.id = i ∧
    P (earlier.need w) ∧ Q (later.need w)

section Precedes

variable {vs : List Visit} {u v : Visit} {i : InstId} {P Q : Need → Prop}

theorem Precedes.cons (h : Precedes w vs i P Q) : Precedes w (u :: vs) i P Q := by
  obtain ⟨earlier, later, hsub, hrest⟩ := h
  exact ⟨earlier, later, hsub.cons u, hrest⟩

theorem precedes_cons (hv : v ∈ vs) (hid : v.inst.id = i) (hP : P (v.need w)) (hu : u.inst.id = i)
    (hQ : Q (u.need w)) : Precedes w (u :: vs) i P Q :=
  ⟨v, u, (List.singleton_sublist.2 hv).cons_cons u, hid, hu, hP, hQ⟩

/-- The strongest need is that of some visit. -/
theorem exists_of_strongest (h : strongest w vs i = .must) :
    ∃ v ∈ vs, v.inst.id = i ∧ v.need w = .must := by
  induction vs with
  | nil => cases h
  | cons u vs ih =>
    by_cases hu : u.inst.id = i
    · rw [strongest_cons_self hu] at h
      rcases Need.max_eq_must h with hmust | hmust
      · exact ⟨u, List.mem_cons_self, hu, hmust⟩
      · obtain ⟨v, hv, hrest⟩ := ih hmust
        exact ⟨v, List.mem_cons_of_mem u hv, hrest⟩
    · rw [strongest_cons_of_ne hu] at h
      obtain ⟨v, hv, hrest⟩ := ih h
      exact ⟨v, List.mem_cons_of_mem u hv, hrest⟩

end Precedes

/-! ## Not both given up and promoted -/

/-- The table of references agrees with what was found, and where the value of an instruction is
both given up for an object and its reference, `P` holds of the instruction. -/
structure Filed (s : State) (P : InstId → Prop) : Prop where
  given : ∀ i, ∀ o ∈ s.references.given i, i ∈ s.findings.silenced
  canonical : ∀ o i, s.references.canonical.get? o = some i → o ∉ s.references.missing
  both : ∀ i, ∀ o ∈ s.references.given i, s.references.canonical.get? o = some i → P i

theorem Filed.mono {P Q : InstId → Prop} (h : Filed s P) (hPQ : ∀ i, P i → Q i) : Filed s Q :=
  ⟨h.given, h.canonical, fun i o ho hi => hPQ i (h.both i o ho hi)⟩

theorem Filed.handles {P : InstId → Prop} {i : InstId} {checked : Prop} (h : Filed s P)
    (hhandles : Handles w i checked s s')
    (hsilenced : ∀ j ∈ s.findings.silenced, j ∈ s'.findings.silenced)
    (hkeep : ¬ checked → i ∈ s.findings.silenced → P i) : Filed s' P := by
  cases hhandles with
  | leaves hrefs =>
    constructor
    · rw [hrefs]
      exact fun j o ho => hsilenced j (h.given j o ho)
    · rw [hrefs]
      exact h.canonical
    · rw [hrefs]
      exact h.both
  | gives _ hmissing hi hrefs =>
    constructor
    · intro j o ho
      rw [hrefs, References.mem_given_foldl] at ho
      rcases ho with ho | ⟨rfl, -⟩
      · exact hsilenced j (h.given j o ho)
      · exact hi ▸ IdentSet.mem_insert.2 (.inl rfl)
    · rw [hrefs, References.canonical_foldl_silence, References.missing_foldl_silence]
      exact h.canonical
    · intro j o ho hj
      rw [hrefs, References.mem_given_foldl] at ho
      rw [hrefs, References.canonical_foldl_silence] at hj
      rcases ho with ho | ⟨-, ho⟩
      · exact h.both j o ho hj
      · -- an object without a reference has none that is canonical
        exact absurd (hmissing o ho) (h.canonical o j hj)
  | @keeps o' hchecked hmissing hrefs =>
    have hgiven (j : InstId) : s'.references.given j = s.references.given j := by
      rw [hrefs]
      rfl
    have hget (o : ObjectId) : s'.references.canonical.get? o =
        if o = o' then some i else s.references.canonical.get? o := by
      rw [hrefs]
      exact IdentMap.get?_insert ..
    constructor
    · intro j o ho
      rw [hgiven] at ho
      exact hsilenced j (h.given j o ho)
    · intro o j hj hmissing'
      rw [hrefs] at hmissing'
      obtain ⟨hne, hmissing'⟩ := IdentSet.mem_erase.1 hmissing'
      rw [hget] at hj
      split at hj
      · next heq => exact hne heq
      · exact h.canonical o j hj hmissing'
    · intro j o ho hj
      rw [hgiven] at ho
      rw [hget] at hj
      split at hj
      · cases hj
        exact hkeep hchecked (h.given _ o ho)
      · exact h.both j o ho hj

/-- What is known of references in the middle of a run: a call whose value was given up is lost, a
read whose value was given up needed a check on some visit, and a value that was given up for the
object whose reference it is belongs to a read that was visited again. -/
structure Apart (w : Setting) (s : State) : Prop where
  accounted : Accounted w s
  lost : ∀ c inst site, w.program.Holds c inst → inst.op = .call site →
    inst.id ∈ s.findings.silenced → Lost w s.findings site
  checked : ∀ c inst, w.program.Holds c inst → inst.op.readsMemory = true →
    inst.id ∈ s.findings.silenced → ∃ v ∈ s.visits, v.inst.id = inst.id ∧ v.need w = .must
  filed : Filed s fun i => Precedes w s.visits i (· = .must) fun _ => True

theorem apart_fresh (clock : Stamp) (objects : List ObjectId) :
    Apart w { clock := clock, references := .without objects } where
  accounted := accounted_fresh clock _
  lost _ _ _ _ _ h := absurd h (IdentSet.not_mem_empty _)
  checked _ _ _ _ h := absurd h (IdentSet.not_mem_empty _)
  filed := ⟨fun _ _ h => absurd h List.not_mem_nil, fun _ _ h => (by cases h),
    fun _ _ h => absurd h List.not_mem_nil⟩

theorem Apart.read {certain : Bool} (hapart : w.program.NamesApart) (h : Apart w s)
    (hinst : w.program.Holds scope.context inst) (hread : inst.op.readsMemory = true)
    (hvisit : visitRead w scope certain inst x s = .ok (y, s')) : Apart w s' := by
  obtain ⟨hvisits, recorded, -, hout⟩ := visitRead_book hvisit
  have htentative := Turn.tentative_subset (.read hinst hread hvisit)
  have hsilenced : ∀ i, i ∈ s'.findings.silenced → i ∈ s.findings.silenced ∨
      i = inst.id ∧ needNow w inst x (s.findings.needs.get? inst.id) = .must := by
    intro i hi
    cases hout with
    | unchecked _ _ hs => exact .inl (hs ▸ hi)
    | checked _ _ hs => exact .inl (hs ▸ hi)
    | silenced hneed _ hs =>
      rw [hs, IdentSet.mem_insert] at hi
      exact hi.symm.imp_right fun hi => ⟨hi, hneed⟩
  have hsub : ∀ i ∈ s.findings.silenced, i ∈ s'.findings.silenced := by
    intro i hi
    cases hout <;> simp_all
  constructor
  · exact h.accounted.read hapart hinst hread hvisit
  · intro c call site hcall hop hi
    rcases hsilenced _ hi with hi | ⟨hid, -⟩
    · exact (h.lost c call site hcall hop hi).mono htentative
    · obtain ⟨-, rfl⟩ := hapart _ _ _ _ hcall hinst hid
      rw [hop] at hread
      cases hread
  · intro c inst' hinst' hread' hi
    rw [hvisits]
    rcases hsilenced _ hi with hi | ⟨hid, hmust⟩
    · obtain ⟨v, hv, hrest⟩ := h.checked c inst' hinst' hread' hi
      exact ⟨v, List.mem_cons_of_mem _ hv, hrest⟩
    · -- the need of this visit is the strongest of all visits up to it
      rw [h.accounted.needNow_eq hapart hinst hread x] at hmust
      split at hmust
      · cases hmust
      · rw [hid]
        exact exists_of_strongest ((strongest_cons_self rfl).trans hmust)
  · refine Filed.handles (h.filed.mono fun i hi => ?_) (visitRead_handles hvisit) hsub ?_
    · rw [hvisits]
      exact hi.cons
    · intro _ hi
      obtain ⟨v, hv, hid, hmust⟩ := h.checked _ inst hinst hread hi
      rw [hvisits]
      exact precedes_cons hv hid hmust rfl trivial

theorem Apart.turn (hapart : w.program.NamesApart) (h : Apart w s) (hturn : Turn w s s') :
    Apart w s' := by
  have haccounted := h.accounted.turn hapart hturn
  have htentative := hturn.tentative_subset
  cases hturn with
  | quiet hbook =>
    have hsilenced : s'.findings.silenced = s.findings.silenced := congrArg Book.silenced hbook
    have hrefs : s'.references = s.references := congrArg Book.references hbook
    have hpromotions : s'.findings.promotions = s.findings.promotions :=
      congrArg Book.promotions hbook
    have hvisits : s'.visits = s.visits := congrArg Book.visits hbook
    constructor
    · exact haccounted
    · rw [hsilenced]
      exact fun c inst site hinst hop hi => (h.lost c inst site hinst hop hi).mono htentative
    · rw [hsilenced, hvisits]
      exact h.checked
    · rw [hvisits]
      have hhandles : Handles w ⟨0⟩ True s s' := .leaves hrefs hpromotions hsilenced
      exact h.filed.handles hhandles (fun i hi => hsilenced ▸ hi) fun hc => absurd trivial hc
  | read hinst hread hvisit => exact h.read hapart hinst hread hvisit
  | @promote c inst site _ hinst hop hkept hpromote =>
    obtain ⟨-, -, hvisits, hsilenced⟩ := promote_book hpromote
    constructor
    · exact haccounted
    · rw [hsilenced]
      exact fun c inst site hinst hop hi => (h.lost c inst site hinst hop hi).mono htentative
    · rw [hsilenced, hvisits]
      exact h.checked
    · rw [hvisits]
      exact h.filed.handles (promote_handles hpromote) (fun i hi => hsilenced ▸ hi)
        fun _ hi => absurd (h.lost c inst site hinst hop hi) hkept
  | @silence c inst site b hinst hop hlost hsilence =>
    obtain ⟨-, -, hvisits, hsilenced⟩ := silence_book hsilence
    have hmem : ∀ i, i ∈ s'.findings.silenced → i = inst.id ∨ i ∈ s.findings.silenced := by
      intro i hi
      rw [hsilenced] at hi
      split at hi
      · exact IdentSet.mem_insert.1 hi
      · exact .inr hi
    have hsub : ∀ i ∈ s.findings.silenced, i ∈ s'.findings.silenced := by
      intro i hi
      rw [hsilenced]
      split
      · exact IdentSet.mem_insert.2 (.inr hi)
      · exact hi
    constructor
    · exact haccounted
    · intro c' inst' site' hinst' hop' hi
      rcases hmem _ hi with hid | hi
      · obtain ⟨-, rfl⟩ := hapart _ _ _ _ hinst' hinst hid
        cases hop.symm.trans hop'
        exact hlost.mono htentative
      · exact (h.lost c' inst' site' hinst' hop' hi).mono htentative
    · intro c' inst' hinst' hread' hi
      rw [hvisits]
      rcases hmem _ hi with hid | hi
      · obtain ⟨-, rfl⟩ := hapart _ _ _ _ hinst' hinst hid
        rw [hop] at hread'
        cases hread'
      · exact h.checked c' inst' hinst' hread' hi
    · rw [hvisits]
      exact h.filed.handles (silence_handles hsilence) hsub fun hc => absurd trivial hc

/-- After any number of runs, an instruction that was not visited again after a visit on which it
needed a check has not both given up its value for an object and become the surviving reference of
that object. -/
theorem given_up_not_promoted {p₀ : Program} (hlink : p₀.link = .ok w.program) {clock : Stamp}
    {objects : List ObjectId} {entries : List (Stamp × Snapshot)}
    (h : runAll w entries { clock := clock, references := .without objects } = .ok s) {i : InstId}
    (hlast : ∀ earlier later, [later, earlier].Sublist s.visits → earlier.inst.id = i →
      later.inst.id = i → earlier.need w ≠ .must) (o : ObjectId) :
    ¬ (o ∈ (s.references.silenced.get? i).getD [] ∧ s.references.canonical.get? o = some i) := by
  have hapart := Program.namesApart_of_link hlink
  have hinv : Apart w s :=
    runAll_induction h (apart_fresh clock objects) fun s s' hturn hs => hs.turn hapart hturn
  rintro ⟨hgiven, hcanonical⟩
  obtain ⟨earlier, later, hsub, hearlier, hlater, hmust, -⟩ := hinv.filed.both i o hgiven hcanonical
  exact hlast earlier later hsub hearlier hlater hmust

/-- A load of a reference to the second object. -/
def loadReference (id : Nat) : Instr := loadAll id (.known (.pointer ⟨⟨1⟩, 0⟩))

/-- A fence. -/
def fenceAt (id : Nat) : Instr := ⟨⟨id⟩, .fence, false, .none, true⟩

/-- The only two visits are these. -/
theorem visits_eq_pair {vs : List Visit} {earlier later : Visit} {m n : Need}
    (hneeds : vs.map (Visit.need w) = [m, n]) (hsub : [later, earlier].Sublist vs) :
    later.need w = m ∧ earlier.need w = n := by
  have hlength : vs.length = 2 := by simpa using congrArg List.length hneeds
  obtain rfl := hsub.eq_of_length hlength.symm
  simpa using hneeds

/-- The load is safe in the first pass over the loop, and promoted. In the second pass it needs a
check, and is not visited again. -/
theorem given_up_not_promoted_loop :
    let w := linkedSetting (looping [loadReference 0, fenceAt 1] [])
    Yields (runAll w [(1, .trusting 0)] { clock := 0, references := .without [⟨1⟩] }) fun s =>
      s.visits.map (Visit.need w) = [.must, .safe] ∧
        s.references.canonical.get? ⟨1⟩ = some ⟨0⟩ ∧
        ⟨1⟩ ∉ (s.references.silenced.get? ⟨0⟩).getD [] := by
  intro w
  have hyields : Yields (runAll w [(1, .trusting 0)]
      { clock := 0, references := .without [⟨1⟩] }) fun s =>
      s.visits.map (Visit.need w) = [.must, .safe] ∧
        s.references.canonical.get? ⟨1⟩ = some ⟨0⟩ :=
    yields_runAll 4 (by decide +kernel)
  obtain ⟨s, hruns, hneeds, hcanonical⟩ := hyields
  have hlast : ∀ earlier later, [later, earlier].Sublist s.visits → earlier.inst.id = ⟨0⟩ →
      later.inst.id = ⟨0⟩ → earlier.need w ≠ .must := by
    intro earlier later hsub _ _ hmust
    cases (visits_eq_pair hneeds hsub).2.symm.trans hmust
  obtain ⟨hlink, -⟩ := linkedSetting_spec (p := looping [loadReference 0, fenceAt 1] [])
    (by decide +kernel)
  exact ⟨s, hruns, hneeds, hcanonical, fun hgiven =>
    given_up_not_promoted hlink hruns hlast ⟨1⟩ ⟨hgiven, hcanonical⟩⟩

/-- The load needs a check in the first pass over the loop and its value is given up. In the second
pass it is taken for safe, and becomes the reference of the object it was given up for. -/
theorem given_up_and_promoted :
    let w := linkedSetting (looping [fenceAt 0, loadReference 1] [])
    Yields (runAll w [(1, .trusting 0)] { clock := 0, references := .without [⟨1⟩] }) fun s =>
      ⟨1⟩ ∈ (s.references.silenced.get? ⟨1⟩).getD [] ∧
        s.references.canonical.get? ⟨1⟩ = some ⟨1⟩ := by
  intro w
  exact yields_runAll 4 (by decide +kernel)

/-! ## Promoted, and recorded with `must` -/

/-- What is known of promotions in the middle of a run: a promoted read was visited, and if it is
recorded with `must`, a visit that needed a check came after one that did not. -/
structure Raised (w : Setting) (s : State) : Prop where
  accounted : Accounted w s
  visited : ∀ q ∈ s.findings.promotions, ∃ c inst, w.program.Holds c inst ∧ inst.id = q.2 ∧
    (inst.op.readsMemory = true → ∃ v ∈ s.visits, v.inst.id = q.2)
  raised : ∀ q ∈ s.findings.promotions, s.findings.needs.get? q.2 = some .must →
    Precedes w s.visits q.2 (· ≠ .must) (· = .must)

theorem raised_fresh (clock : Stamp) (r : References) :
    Raised w { clock := clock, references := r } where
  accounted := accounted_fresh clock r
  visited _ h := absurd h List.not_mem_nil
  raised _ h := absurd h List.not_mem_nil

theorem Raised.read {certain : Bool} (hapart : w.program.NamesApart) (h : Raised w s)
    (hinst : w.program.Holds scope.context inst) (hread : inst.op.readsMemory = true)
    (hvisit : visitRead w scope certain inst x s = .ok (y, s')) : Raised w s' := by
  obtain ⟨hvisits, recorded, hneeds, hout⟩ := visitRead_book hvisit
  have hpromotions : ∀ q ∈ s'.findings.promotions, q ∈ s.findings.promotions ∨
      q.2 = inst.id ∧ needNow w inst x (s.findings.needs.get? inst.id) ≠ .must :=
    fun q hq => (visitRead_handles hvisit).mem_promotions hq
  constructor
  · exact h.accounted.read hapart hinst hread hvisit
  · intro q hq
    rcases hpromotions q hq with hq | ⟨hid, -⟩
    · obtain ⟨c, inst', hinst', hid, hv⟩ := h.visited q hq
      refine ⟨c, inst', hinst', hid, fun hread' => ?_⟩
      obtain ⟨v, hv, hvid⟩ := hv hread'
      exact ⟨v, hvisits ▸ List.mem_cons_of_mem _ hv, hvid⟩
    · exact ⟨_, inst, hinst, hid.symm, fun _ => ⟨_, hvisits ▸ List.mem_cons_self, hid.symm⟩⟩
  · intro q hq hmust
    rw [hvisits]
    rw [hneeds, IdentMap.get?_insert] at hmust
    split at hmust
    · next hid =>
      have hrecorded := Option.some.inj hmust
      -- the need is recorded as decided, so nothing was promoted on this visit
      have hnow : needNow w inst x (s.findings.needs.get? inst.id) = .must := by
        cases hout with
        | unchecked hneed => exact absurd hrecorded hneed
        | checked hneed => exact hneed
        | silenced => cases hrecorded
      have hq : q ∈ s.findings.promotions := (hpromotions q hq).resolve_right fun hq => hq.2 hnow
      by_cases hbefore : s.findings.needs.get? q.2 = some .must
      · exact (h.raised q hq hbefore).cons
      obtain ⟨c, inst', hinst', hid', hv⟩ := h.visited q hq
      obtain ⟨-, rfl⟩ := hapart _ _ _ _ hinst' hinst (hid'.trans hid)
      obtain ⟨v, hv, hvid⟩ := hv hread
      have hsame := (h.accounted.eq_of_id hapart hinst hv (hvid.trans hid)).2
      rw [h.accounted.needNow_eq hapart hinst hread x] at hnow
      split at hnow
      · cases hnow
      next hfixed =>
      have hold : strongest w s.visits inst'.id ≠ .must := by
        intro hstrongest
        refine hbefore ?_
        rw [← hvid, h.accounted.needs v hv, settledNeed, hsame, if_neg hfixed, hstrongest]
      have hnew := (Need.max_eq_must hnow).resolve_right hold
      refine precedes_cons hv hvid (fun hmust => hold ?_) hid.symm hnew
      have hle := need_le_strongest (w := w) hv
      rw [hmust, hsame] at hle
      exact hle.symm
    · next hid =>
      have hq : q ∈ s.findings.promotions :=
        (hpromotions q hq).resolve_right fun hq => hid hq.1
      exact (h.raised q hq hmust).cons

theorem Raised.turn (hapart : w.program.NamesApart) (h : Raised w s) (hturn : Turn w s s') :
    Raised w s' := by
  have haccounted := h.accounted.turn hapart hturn
  cases hturn with
  | quiet hbook =>
    have hneeds : s'.findings.needs = s.findings.needs := congrArg Book.needs hbook
    have hpromotions : s'.findings.promotions = s.findings.promotions :=
      congrArg Book.promotions hbook
    have hvisits : s'.visits = s.visits := congrArg Book.visits hbook
    refine ⟨haccounted, ?_, ?_⟩
    · rw [hpromotions, hvisits]
      exact h.visited
    · rw [hpromotions, hvisits, hneeds]
      exact h.raised
  | read hinst hread hvisit => exact h.read hapart hinst hread hvisit
  | @promote c inst site _ hinst hop _ hpromote =>
    obtain ⟨hneeds, -, hvisits, -⟩ := promote_book hpromote
    have hread : inst.op.readsMemory = false := by rw [hop]; rfl
    have hpromotions : ∀ q ∈ s'.findings.promotions,
        q ∈ s.findings.promotions ∨ q.2 = inst.id :=
      fun q hq => ((promote_handles hpromote).mem_promotions hq).imp_right And.left
    refine ⟨haccounted, ?_, ?_⟩
    · intro q hq
      rw [hvisits]
      rcases hpromotions q hq with hq | hid
      · exact h.visited q hq
      · exact ⟨c, inst, hinst, hid.symm, fun hread' => by rw [hread] at hread'; cases hread'⟩
    · intro q hq hmust
      rw [hvisits]
      rw [hneeds] at hmust
      rcases hpromotions q hq with hq | hid
      · exact h.raised q hq hmust
      · -- a call is not visited as a read, so no need is recorded for it
        have hread' := h.accounted.readsMemory hapart hinst (hid ▸ hmust)
        rw [hread] at hread'
        cases hread'
  | silence _ _ _ hsilence =>
    obtain ⟨hneeds, -, hvisits, -⟩ := silence_book hsilence
    have hpromotions : s'.findings.promotions = s.findings.promotions := by
      cases silence_handles hsilence with
      | leaves _ hp => exact hp
      | gives _ _ _ _ hp => exact hp
      | keeps hf => exact absurd trivial hf
    refine ⟨haccounted, ?_, ?_⟩
    · rw [hpromotions, hvisits]
      exact h.visited
    · rw [hpromotions, hvisits, hneeds]
      exact h.raised

/-- After any number of runs, a promoted read with no visit that needed a check after one that did
not is recorded with a need other than `must`. -/
theorem promoted_not_must {p₀ : Program} (hlink : p₀.link = .ok w.program) {clock : Stamp}
    {objects : List ObjectId} {entries : List (Stamp × Snapshot)}
    (h : runAll w entries { clock := clock, references := .without objects } = .ok s)
    {c : ContextId} (hinst : w.program.Holds c inst) (hread : inst.op.readsMemory = true)
    {o : ObjectId} (hpromoted : (o, inst.id) ∈ s.findings.promotions)
    (hsafe : ∀ earlier later, [later, earlier].Sublist s.visits → earlier.inst.id = inst.id →
      later.inst.id = inst.id → later.need w = .must → earlier.need w = .must) :
    ∃ n, s.findings.needs.get? inst.id = some n ∧ n ≠ .must := by
  have hapart := Program.namesApart_of_link hlink
  have hinv : Raised w s :=
    runAll_induction h (raised_fresh clock _) fun s s' hturn hs => hs.turn hapart hturn
  obtain ⟨c', inst', hinst', hid, hvisited⟩ := hinv.visited _ hpromoted
  obtain ⟨-, rfl⟩ := hapart _ _ _ _ hinst' hinst hid
  obtain ⟨v, hv, hvid⟩ := hvisited hread
  refine ⟨_, hvid ▸ hinv.accounted.needs v hv, fun hmust => ?_⟩
  have hrecorded : s.findings.needs.get? inst'.id = some .must := by
    rw [← hmust, ← hinv.accounted.needs v hv, hvid]
  obtain ⟨earlier, later, hsub, hearlier, hlater, hne, hmust⟩ := hinv.raised _ hpromoted hrecorded
  exact hne (hsafe earlier later hsub hearlier hlater hmust)

/-- The load needs a check in both passes over the loop: its value is given up in the first, and
promoted in the second. -/
theorem promoted_not_must_loop :
    let w := linkedSetting (looping [fenceAt 0, loadReference 1] [])
    Yields (runAll w [(1, .trusting 0)] { clock := 0, references := .without [⟨1⟩] }) fun s =>
      s.visits.map (Visit.need w) = [.must, .must] ∧ (⟨1⟩, ⟨1⟩) ∈ s.findings.promotions ∧
        ∃ n, s.findings.needs.get? ⟨1⟩ = some n ∧ n ≠ .must := by
  intro w
  have hyields : Yields (runAll w [(1, .trusting 0)]
      { clock := 0, references := .without [⟨1⟩] }) fun s =>
      s.visits.map (Visit.need w) = [.must, .must] ∧ (⟨1⟩, ⟨1⟩) ∈ s.findings.promotions :=
    yields_runAll 4 (by decide +kernel)
  obtain ⟨s, hruns, hneeds, hpromoted⟩ := hyields
  have hsafe : ∀ earlier later, [later, earlier].Sublist s.visits →
      earlier.inst.id = (loadReference 1).id → later.inst.id = (loadReference 1).id →
      later.need w = .must → earlier.need w = .must :=
    fun _ _ hsub _ _ _ => (visits_eq_pair hneeds hsub).2
  obtain ⟨hlink, -⟩ := linkedSetting_spec (p := looping [fenceAt 0, loadReference 1] [])
    (by decide +kernel)
  have hblock : Yields (w.program.block ⟨0⟩ ⟨1⟩) fun b => loadReference 1 ∈ b.insts := by
    decide +kernel
  obtain ⟨block, hblock, hmem⟩ := hblock
  exact ⟨s, hruns, hneeds, hpromoted,
    promoted_not_must hlink hruns ⟨⟨1⟩, block, hblock, hmem⟩ rfl hpromoted hsafe⟩

/-- The load is safe in the first pass over the loop, and promoted. In the second pass it needs a
check, which is recorded: its object is not missing any more. -/
theorem promoted_and_must :
    let w := linkedSetting (looping [loadReference 0, fenceAt 1] [])
    Yields (runAll w [(1, .trusting 0)] { clock := 0, references := .without [⟨1⟩] }) fun s =>
      (⟨1⟩, ⟨0⟩) ∈ s.findings.promotions ∧ s.findings.needs.get? ⟨0⟩ = some .must := by
  intro w
  exact yields_runAll 4 (by decide +kernel)

end Walk

end ByteTrust
