import ByteTrust.Proofs.Interference.Promotions

/-!
# The table of references agrees with the findings

What becomes of the references of objects is written down twice: in the table of references, which
the walk also reads, and in what the walk has found. A read may change both, and so may a call, in
any order and again on every visit. Each turn of the walk adds the same to both (`Agrees.turn`), so
after any number of runs one can be read off the other (`references_match_findings`): the table
names the promoted reads, the objects still missing are the given ones without the promoted ones,
and a value is listed as given up just when it was found so.
-/

namespace ByteTrust

/-- Only a declared heap object or descriptor lives on through a reference. -/
theorem Program.needsReference_eq_true {p : Program} {o : ObjectId} :
    p.needsReference o = true ↔
      ∃ object, p.objects.get? o = some object ∧
        (object.kind = .heap ∨ object.kind = .descriptor) := by
  simp [needsReference, MemoryObject.needsReference, Option.any_eq_true]

namespace References

variable {r : References} {i j : InstId} {o : ObjectId} {objects : List ObjectId}

/-- The value of the instruction is given up for some list of objects. -/
def Lists (r : References) (i : InstId) : Prop := ∃ os, r.silenced.get? i = some os

theorem given_of_get? {os : List ObjectId} (h : r.silenced.get? i = some os) : r.given i = os := by
  rw [given, h, Option.getD_some]

theorem lists_silence : (r.silence j o).Lists i ↔ i = j ∨ r.Lists i := by
  unfold Lists silence
  rw [IdentMap.get?_insert]
  split
  · next hij => simp [hij]
  · next hij => simp [hij]

theorem lists_foldl_silence :
    (objects.foldl (fun r o => r.silence j o) r).Lists i ↔
      i = j ∧ objects ≠ [] ∨ r.Lists i := by
  induction objects generalizing r with
  | nil => simp
  | cons o objects ih =>
    rw [List.foldl_cons, ih, lists_silence]
    simp only [ne_eq, reduceCtorEq, not_false_eq_true, and_true]
    tauto

theorem nodup_given_silence (h : ∀ i, (r.given i).Nodup) (i : InstId) :
    ((r.silence j o).given i).Nodup := by
  unfold given silence
  rw [IdentMap.get?_insert]
  split
  · rw [Option.getD_some]
    split
    · exact h j
    · next ho =>
      rw [List.contains_iff_mem] at ho
      exact (h j).append (List.nodup_singleton o) (List.disjoint_singleton.2 ho)
  · exact h i

theorem nodup_given_foldl_silence (h : ∀ i, (r.given i).Nodup) (i : InstId) :
    ((objects.foldl (fun r o => r.silence j o) r).given i).Nodup := by
  induction objects generalizing r with
  | nil => exact h i
  | cons o objects ih => exact ih (nodup_given_silence h)

end References

namespace Walk

variable {w : Setting} {s s' : State} {objects : List ObjectId}

/-- The table of references and what was found agree, where `objects` had no reference at first. -/
structure Agrees (w : Setting) (objects : List ObjectId) (s : State) : Prop where
  once : (s.findings.promotions.map Prod.fst).Nodup
  canonical : ∀ o i, s.references.canonical.get? o = some i ↔ (o, i) ∈ s.findings.promotions
  missing : ∀ o, o ∈ s.references.missing ↔
    o ∈ objects ∧ o ∉ s.findings.promotions.map Prod.fst
  promoted : ∀ o ∈ s.findings.promotions.map Prod.fst,
    o ∈ objects ∧ w.program.needsReference o = true
  given : ∀ i, ∀ o ∈ s.references.given i, o ∈ objects ∧ w.program.needsReference o = true
  nodup : ∀ i, (s.references.given i).Nodup
  silenced : ∀ i, s.references.Lists i ↔ i ∈ s.findings.silenced

theorem agrees_fresh (clock : Stamp) (objects : List ObjectId) :
    Agrees w objects { clock := clock, references := .without objects } where
  once := List.nodup_nil
  canonical o i := by simp [References.without]
  missing o := by simp [References.without]
  promoted o h := absurd h List.not_mem_nil
  given i o h := absurd h List.not_mem_nil
  nodup i := List.nodup_nil
  silenced i := by simp [References.Lists, References.without]

section Handles

variable {i : InstId} {o : ObjectId}

theorem Agrees.gives (h : Agrees w objects s) {lost : List ObjectId}
    (hmissing : ∀ o ∈ lost, o ∈ s.references.missing)
    (hsilenced : s'.findings.silenced = s.findings.silenced.insert i)
    (hrefs : s'.references = lost.foldl (fun r o => r.silence i o) s.references)
    (hpromotions : s'.findings.promotions = s.findings.promotions) (hne : lost ≠ [])
    (hneeded : ∀ o ∈ lost, w.program.needsReference o = true) : Agrees w objects s' := by
  constructor
  · rw [hpromotions]
    exact h.once
  · rw [hrefs, hpromotions, References.canonical_foldl_silence]
    exact h.canonical
  · rw [hrefs, hpromotions, References.missing_foldl_silence]
    exact h.missing
  · rw [hpromotions]
    exact h.promoted
  · intro j o ho
    rw [hrefs, References.mem_given_foldl] at ho
    rcases ho with ho | ⟨-, ho⟩
    · exact h.given j o ho
    · exact ⟨((h.missing o).1 (hmissing o ho)).1, hneeded o ho⟩
  · rw [hrefs]
    exact References.nodup_given_foldl_silence h.nodup
  · intro j
    rw [hrefs, hsilenced, References.lists_foldl_silence, IdentSet.mem_insert, h.silenced]
    simp only [hne, ne_eq, not_false_eq_true, and_true]

/-- An object without a reference was not promoted before. -/
theorem Agrees.keeps (h : Agrees w objects s) (hmissing : o ∈ s.references.missing)
    (hrefs : s'.references = s.references.promote o i)
    (hpromotions : s'.findings.promotions = s.findings.promotions ++ [(o, i)])
    (hsilenced : s'.findings.silenced = s.findings.silenced)
    (hneeded : w.program.needsReference o = true) : Agrees w objects s' := by
  obtain ⟨hobject, hnew⟩ := (h.missing o).1 hmissing
  have hnames :
      s'.findings.promotions.map Prod.fst = s.findings.promotions.map Prod.fst ++ [o] := by
    rw [hpromotions, List.map_append, List.map_singleton]
  have hgiven (j : InstId) : s'.references.given j = s.references.given j := by
    rw [hrefs]
    rfl
  constructor
  · rw [hnames]
    exact h.once.append (List.nodup_singleton o) (List.disjoint_singleton.2 hnew)
  · intro o' j
    rw [hrefs, hpromotions, List.mem_append, List.mem_singleton, ← h.canonical, Prod.mk.injEq,
      References.promote, IdentMap.get?_insert]
    split
    · next heq =>
      subst heq
      have hnone : s.references.canonical.get? o' ≠ some j := fun hj =>
        hnew (List.mem_map_of_mem ((h.canonical o' j).1 hj))
      simp [hnone, eq_comm]
    · next hne => simp [hne]
  · intro o'
    rw [hrefs, hnames, References.promote, IdentSet.mem_erase, h.missing, List.mem_append,
      List.mem_singleton]
    tauto
  · intro o' ho'
    rw [hnames, List.mem_append, List.mem_singleton] at ho'
    rcases ho' with ho' | rfl
    · exact h.promoted o' ho'
    · exact ⟨hobject, hneeded⟩
  · intro j
    rw [hgiven]
    exact h.given j
  · intro j
    rw [hgiven]
    exact h.nodup j
  · intro j
    rw [hsilenced, ← h.silenced, hrefs]
    rfl

theorem Agrees.handles {checked : Prop} (h : Agrees w objects s)
    (hhandles : Handles w i checked s s') : Agrees w objects s' := by
  cases hhandles with
  | leaves hrefs hpromotions hsilenced =>
    constructor
    all_goals simp only [hrefs, hpromotions, hsilenced]
    exacts [h.once, h.canonical, h.missing, h.promoted, h.given, h.nodup, h.silenced]
  | gives _ hmissing hsilenced hrefs hpromotions hne hneeded =>
    exact h.gives hmissing hsilenced hrefs hpromotions hne hneeded
  | @keeps o _ hmissing hrefs hpromotions hsilenced hneeded =>
    rcases hpromotions with ⟨-, hold⟩ | hpromotions
    · exact absurd (List.mem_map_of_mem hold) ((h.missing o).1 hmissing).2
    · exact h.keeps hmissing hrefs hpromotions hsilenced hneeded

end Handles

/-- Every turn handles references on behalf of at most one instruction. -/
theorem Turn.handles (h : Turn w s s') : ∃ i checked, Handles w i checked s s' := by
  cases h with
  | quiet hbook =>
    exact ⟨⟨0⟩, True, .leaves (congrArg Book.references hbook) (congrArg Book.promotions hbook)
      (congrArg Book.silenced hbook)⟩
  | read _ _ hvisit => exact ⟨_, _, visitRead_handles hvisit⟩
  | promote _ _ _ hpromote => exact ⟨_, _, promote_handles hpromote⟩
  | silence _ _ _ hsilence => exact ⟨_, _, silence_handles hsilence⟩

theorem Agrees.turn (h : Agrees w objects s) (hturn : Turn w s s') : Agrees w objects s' := by
  obtain ⟨i, checked, hhandles⟩ := hturn.handles
  exact h.handles hhandles

/-- After any number of runs, no object was promoted twice, and the table of references names just
the promoted reads. The objects without a reference are those that had none at first and were not
promoted. Values are promoted and given up only for such objects, if they are heap objects or
descriptors. The table lists the values that were found to be given up, and lists no object
twice. -/
theorem references_match_findings {clock : Stamp} {entries : List (Stamp × Snapshot)}
    (h : runAll w entries { clock := clock, references := .without objects } = .ok s) :
    (s.findings.promotions.map Prod.fst).Nodup ∧
    (∀ o i, s.references.canonical.get? o = some i ↔ (o, i) ∈ s.findings.promotions) ∧
    (∀ o, o ∈ s.references.missing ↔ o ∈ objects ∧ o ∉ s.findings.promotions.map Prod.fst) ∧
    (∀ o, (o ∈ s.findings.promotions.map Prod.fst ∨
        ∃ i os, s.references.silenced.get? i = some os ∧ o ∈ os) →
      o ∈ objects ∧ ∃ object, w.program.objects.get? o = some object ∧
        (object.kind = .heap ∨ object.kind = .descriptor)) ∧
    (∀ i, (∃ os, s.references.silenced.get? i = some os) ↔ i ∈ s.findings.silenced) ∧
    ∀ i os, s.references.silenced.get? i = some os → os.Nodup := by
  have hagrees : Agrees w objects s :=
    runAll_induction h (agrees_fresh clock objects) fun s s' hturn hs => hs.turn hturn
  refine ⟨hagrees.once, hagrees.canonical, hagrees.missing, ?_, hagrees.silenced, ?_⟩
  · rintro o ho
    rw [← Program.needsReference_eq_true]
    rcases ho with ho | ⟨i, os, hos, ho⟩
    · exact hagrees.promoted o ho
    · exact hagrees.given i o (References.given_of_get? hos ▸ ho)
  · intro i os hos
    exact References.given_of_get? hos ▸ hagrees.nodup i

/-- In the first of two runs the value of the load is given up in the first pass over the loop, and
promoted in the second. An object that is not declared stays without a reference. -/
theorem references_match_findings_loop :
    let w := linkedSetting (looping [fenceAt 0, loadReference 1] [])
    Yields (runAll w [(1, .trusting 0), (20, .trusting 0)]
      { clock := 0, references := .without [⟨1⟩, ⟨7⟩] }) fun s =>
      s.findings.promotions = [(⟨1⟩, ⟨1⟩)] ∧ s.references.canonical.get? ⟨1⟩ = some ⟨1⟩ ∧
        ⟨1⟩ ∉ s.references.missing ∧ ⟨7⟩ ∈ s.references.missing ∧
        (∃ os, s.references.silenced.get? ⟨1⟩ = some os ∧ os.Nodup) := by
  intro w
  have hyields : Yields (runAll w [(1, .trusting 0), (20, .trusting 0)]
      { clock := 0, references := .without [⟨1⟩, ⟨7⟩] }) fun s =>
      s.findings.promotions = [(⟨1⟩, ⟨1⟩)] ∧ ⟨1⟩ ∈ s.findings.silenced :=
    yields_runAll 4 (by decide +kernel)
  obtain ⟨s, hruns, hpromotions, hsilenced⟩ := hyields
  obtain ⟨-, hcanonical, hmissing, -, hlists, hnodup⟩ := references_match_findings hruns
  rw [hpromotions] at hcanonical hmissing
  obtain ⟨os, hos⟩ := (hlists ⟨1⟩).2 hsilenced
  refine ⟨s, hruns, hpromotions, (hcanonical ⟨1⟩ ⟨1⟩).2 List.mem_cons_self, ?_, ?_,
    os, hos, hnodup ⟨1⟩ os hos⟩
  · rw [hmissing]
    decide
  · rw [hmissing]
    decide

end Walk

end ByteTrust
