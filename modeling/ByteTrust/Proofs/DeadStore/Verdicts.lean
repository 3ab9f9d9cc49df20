import ByteTrust.Proofs.DeadStore.EdgeOrder

/-!
# Verdicts that rest on copies

A search asks for the verdicts on copies and for nothing else that the sweep finds out: a copy that
is dead is no reader. With more dead copies, or with fewer checked loads, there are fewer readers
and everything else on the paths stays as it is, so that a search goes the same way or had found a
reader before (`Eases.isDead`). It follows that the writes other than copies can be tried in any
order, and that they lose nothing when copies are tried before them (`verdicts_from_copies`).

The second half of the module bounds the length of searches, which makes the sweep of a given
program computable (`sweepWithin`).
-/

namespace ByteTrust

open Relation (ReflTransGen)

/-- A copy of the program bears the name `i`. -/
def Program.Copies (p : Program) (i : InstId) : Prop :=
  ∃ c inst dest src len copied, p.Holds c inst ∧ inst.id = i ∧ inst.op = .memcpy dest src len copied

namespace DeadStore

/-- Nothing reads in `q'` that does not read in `q`: no fewer copies are dead, and no more loads are
checked. Of the programs, only contexts and objects count. -/
structure Eases (q q' : Setting) : Prop where
  contexts : q'.program.contexts = q.program.contexts
  objects : q'.program.objects = q.program.objects
  layout : q'.layout = q.layout
  copies : ∀ i, q.program.Copies i → q.verdicts.get? i = some .dead →
    q'.verdicts.get? i = some .dead
  checked : ∀ i ∈ q'.checked, i ∈ q.checked

theorem visitRead_of_hidden {w : Write} {hidden hidden' : Bool} (h : hidden = true → hidden' = true)
    (ptr : PointerValue) (len : Option Nat) (bits : Overwritten) :
    visitRead w hidden' ptr len bits = visitRead w hidden ptr len bits ∨
      visitRead w hidden ptr len bits = .observed := by
  unfold visitRead
  cases hidden with
  | true => exact .inl (by simp [h rfl])
  | false =>
    cases halias : w.mayAlias ptr len with
    | true => exact .inr (by simp)
    | false => exact .inl (by simp)

namespace Eases

variable {q q' : Setting} {w : Write} {s : State} {k : Cursor}

theorem context (h : Eases q q') : q'.program.context = q.program.context := by
  funext c
  rw [Program.context, Program.context, h.contexts]

theorem block (h : Eases q q') : q'.program.block = q.program.block := by
  funext c b
  rw [Program.block, Program.block, h.context]

theorem copies_iff (h : Eases q q') {i : InstId} :
    q'.program.Copies i ↔ q.program.Copies i := by
  unfold Program.Copies Program.Holds
  rw [h.block]

theorem isReplaced (h : Eases q q') (c : ContextId) (inst : InstId) (result : ReadValue) :
    (∃ fault, DeadStore.isReplaced q c inst result = .error fault ∧
      DeadStore.isReplaced q' c inst result = .error fault) ∨
    ∃ b b', DeadStore.isReplaced q c inst result = .ok b ∧
      DeadStore.isReplaced q' c inst result = .ok b' ∧ (b = true → b' = true) := by
  unfold DeadStore.isReplaced
  rw [h.context]
  split
  · cases q.program.context c with
    | error fault => exact .inl ⟨fault, rfl, rfl⟩
    | ok context =>
      refine .inr ⟨_, _, rfl, rfl, ?_⟩
      simp only [Bool.and_eq_true, Bool.not_eq_true', ← Bool.not_eq_true, IdentSet.contains_iff]
      exact fun hb => ⟨hb.1, fun hmem => hb.2 (h.checked inst hmem)⟩
  · exact .inr ⟨false, false, rfl, rfl, id⟩

/-- An instruction is visited as before, or it was a reader. -/
theorem visitInstr (h : Eases q q') {c : ContextId} {inst : Instr} (hinst : q.program.Holds c inst)
    (bits : Overwritten) :
    DeadStore.visitInstr q' w c inst bits = DeadStore.visitInstr q w c inst bits ∨
      DeadStore.visitInstr q w c inst bits = .ok .observed := by
  unfold DeadStore.visitInstr
  cases hop : inst.op with
  | memcpy dest src len copied =>
    have hdead : decide (q.verdicts.get? inst.id = some .dead) = true →
        decide (q'.verdicts.get? inst.id = some .dead) = true := by
      simpa using h.copies _ ⟨c, inst, dest, src, len, copied, hinst, rfl, hop⟩
    rcases visitRead_of_hidden (w := w) hdead src len bits with hsame | hobs
    · exact .inl (by simp only [hsame])
    · exact .inr (by simp only [hobs, pure_eq_ok])
  | load ptr size ordering result =>
    rcases h.isReplaced c inst.id result with ⟨fault, hq, hq'⟩ | ⟨b, b', hq, hq', hb⟩
    · exact .inl (by simp only [hq, hq', error_bind])
    · rcases visitRead_of_hidden (w := w) hb ptr (some size) bits with hsame | hobs
      · exact .inl (by simp only [hq, hq', ok_bind, hsame])
      · exact .inr (by simp only [hq, ok_bind, hobs, pure_eq_ok])
  | memset dest len => cases len <;> exact .inl rfl
  | readFile dest len => cases len <;> exact .inl rfl
  | _ => exact .inl rfl

theorem follow (h : Eases q q') {c : ContextId} {insts : List Instr}
    (hinsts : ∀ inst ∈ insts, q.program.Holds c inst) (index : Nat) (bits : Overwritten) :
    DeadStore.follow q' w c index insts bits = DeadStore.follow q w c index insts bits ∨
      DeadStore.follow q w c index insts bits = .ok .observed := by
  induction insts generalizing index bits with
  | nil => exact .inl rfl
  | cons inst insts ih =>
    obtain ⟨hinst, hinsts⟩ := List.forall_mem_cons.1 hinsts
    rw [DeadStore.follow, DeadStore.follow]
    split
    · split
      · exact .inl rfl
      · exact ih hinsts _ _
    · rcases h.visitInstr (w := w) hinst bits with hsame | hobs
      · rw [hsame]
        cases DeadStore.visitInstr q w c inst bits with
        | error fault => exact .inl rfl
        | ok visit =>
          cases visit with
          | goOn bits => exact ih hinsts _ _
          | stop => exact .inl rfl
          | observed => exact .inl rfl
      · exact .inr (by rw [hobs]; rfl)

theorem branchTo (h : Eases q q') (k : Cursor) (bits : Overwritten) (targets : List BlockId) :
    DeadStore.branchTo q' k bits targets = DeadStore.branchTo q k bits targets := by
  have hsuccessor (c : ContextId) (source target : BlockId) :
      successor q' c source target = successor q c source target := by
    unfold successor
    rw [h.context, h.layout]
  induction targets with
  | nil => rfl
  | cons target targets ih => rw [DeadStore.branchTo, DeadStore.branchTo, hsuccessor, ih]

theorem leave (h : Eases q q') (k : Cursor) (block : Block) (bits : Overwritten) :
    DeadStore.leave q' w k block bits = DeadStore.leave q w k block bits := by
  unfold DeadStore.leave returnFrom
  simp only [h.branchTo, h.context, h.layout]

theorem advance (h : Eases q q') (s : State) (k : Cursor) :
    s.advance q' w k = s.advance q w k ∨ s.advance q w k = .ok (.done false) := by
  unfold State.advance
  rw [h.context, h.block]
  cases hblock : q.program.block k.place.context k.place.block with
  | error fault => exact .inl rfl
  | ok block =>
    have hinsts : ∀ inst ∈ block.insts.drop k.place.index, q.program.Holds k.place.context inst :=
      fun inst hinst => ⟨_, block, hblock, List.mem_of_mem_drop hinst⟩
    simp only [ok_bind, h.leave]
    rcases h.follow (w := w) hinsts k.place.index k.bits with hsame | hobs
    · exact .inl (by rw [hsame])
    · exact .inr (by rw [hobs]; rfl)

theorem step (h : Eases q q') (s : State) :
    s.step q' w = s.step q w ∨ s.step q w = .ok (.done false) := by
  unfold State.step
  split
  · exact .inl rfl
  · dsimp only
    split
    · split
      · exact .inl rfl
      · exact h.advance _ _
    · exact h.advance _ _

theorem run_of_ne (h : Eases q q') {r : Except Fault Bool} (hrun : s.run q w = some r)
    (hr : r ≠ .ok false) : s.run q' w = some r := by
  refine State.run.partial_correctness q w (fun s r => r ≠ .ok false → s.run q' w = some r) ?_ s r
    hrun hr
  intro run ih s r hr hne
  rw [State.run]
  rcases h.step (w := w) s with hsame | hobs
  · rw [hsame]
    cases hstep : s.step q w with
    | error fault =>
      rw [hstep] at hr
      exact hr
    | ok progress =>
      rw [hstep] at hr
      cases progress with
      | done dead => exact hr
      | more s' => exact ih s' r hr hne
  · rw [hobs] at hr
    cases hr
    exact absurd rfl hne

theorem run_of_eased (h : Eases q q') {r : Except Fault Bool} (hrun : s.run q' w = some r) :
    s.run q w = some r ∨ s.run q w = some (.ok false) := by
  refine State.run.partial_correctness q' w
    (fun s r => s.run q w = some r ∨ s.run q w = some (.ok false)) ?_ s r hrun
  intro run ih s r hr
  rw [State.run]
  rcases h.step (w := w) s with hsame | hobs
  · rw [hsame] at hr
    cases hstep : s.step q w with
    | error fault =>
      rw [hstep] at hr
      exact .inl hr
    | ok progress =>
      rw [hstep] at hr
      cases progress with
      | done dead => exact .inl hr
      | more s' => exact ih s' r hr
  · rw [hobs]
    exact .inr rfl

/-- A search goes as before, or it had found a reader. -/
theorem isDead (h : Eases q q') (w : Write) (place : Place) :
    isDead q' w place = DeadStore.isDead q w place ∨ DeadStore.isDead q w place = .ok false := by
  unfold DeadStore.isDead
  dsimp only
  generalize State.mk [⟨{ place with index := place.index + 1 }, [], w.fresh⟩] _ = s
  cases hrun : s.run q w with
  | none =>
    cases hrun' : s.run q' w with
    | none => exact .inl rfl
    | some r => rcases h.run_of_eased hrun' with hr | hr <;> cases hrun.symm.trans hr
  | some r =>
    by_cases hr : r = .ok false
    · exact .inr (by rw [hr, Option.getD_some])
    · exact .inl (by rw [h.run_of_ne hrun hr])

end Eases

variable {p : Program} {l : Layout} {checked : IdentSet .inst} {verdicts : IdentMap .inst Verdict}
  {settings : DeadStoreSettings} {i : InstId} {ids : List InstId}

/-! ## Verdicts one by one -/

/-- The verdict on an instruction, given those on copies. -/
def verdictOf (q : Setting) (inst : InstId) : Except Fault Verdict := do
  let place ← q.layout.place inst
  let instr ← q.program.instruction place
  let dead ←
    match Write.ofInstr? q.program instr with
    | some w => isDead q w place
    | none => pure false
  return if dead then .dead else .live

theorem judge_eq (p : Program) (l : Layout) (checked : IdentSet .inst)
    (verdicts : IdentMap .inst Verdict) (i : InstId) : judge p l checked verdicts i =
      (verdictOf ⟨p, l, verdicts, checked⟩ i >>= fun x => .ok (verdicts.insert i x)) := by
  unfold judge verdictOf
  cases l.place i with
  | error fault => rfl
  | ok place =>
    simp only [ok_bind]
    cases p.instruction place with
    | error fault => rfl
    | ok inst =>
      simp only [ok_bind]
      cases Write.ofInstr? p inst with
      | none => rfl
      | some w =>
        simp only [bind_assoc]
        rfl

theorem judge_eq_ok {v : IdentMap .inst Verdict} : judge p l checked verdicts i = .ok v ↔
    ∃ x, verdictOf ⟨p, l, verdicts, checked⟩ i = .ok x ∧ verdicts.insert i x = v := by
  rw [judge_eq, bind_eq_ok]
  simp only [Except.ok.injEq]

theorem verdictOf_eases {q q' : Setting} (h : Eases q q') (i : InstId) :
    verdictOf q' i = verdictOf q i ∨ verdictOf q i = .ok .live := by
  have hinstruction : q'.program.instruction = q.program.instruction := by
    funext place
    rw [Program.instruction, Program.instruction, h.block]
  have hwrite : Write.ofInstr? q'.program = Write.ofInstr? q.program := by
    funext inst
    rw [Write.ofInstr?, Write.ofInstr?, h.objects]
  unfold verdictOf
  rw [hinstruction, hwrite, h.layout]
  cases q.layout.place i with
  | error fault => exact .inl (by simp only [error_bind])
  | ok place =>
    simp only [ok_bind]
    cases q.program.instruction place with
    | error fault => exact .inl (by simp only [error_bind])
    | ok inst =>
      simp only [ok_bind]
      cases Write.ofInstr? q.program inst with
      | none => exact .inl (by simp only)
      | some w =>
        rcases h.isDead w place with hsame | hlive
        · exact .inl (by simp only [hsame])
        · exact .inr (by simp [hlive])

/-- Of the verdicts, only those on copies are asked for. -/
theorem verdictOf_congr {p' : Program} {v v' : IdentMap .inst Verdict}
    (hcontexts : p'.contexts = p.contexts) (hobjects : p'.objects = p.objects)
    (hcopies : ∀ j, p.Copies j → v'.get? j = v.get? j) (i : InstId) :
    verdictOf ⟨p', l, v', checked⟩ i = verdictOf ⟨p, l, v, checked⟩ i := by
  have hforth : Eases ⟨p, l, v, checked⟩ ⟨p', l, v', checked⟩ :=
    ⟨hcontexts, hobjects, rfl, fun j hj hdead => (hcopies j hj).trans hdead, fun _ => id⟩
  have hback : Eases ⟨p', l, v', checked⟩ ⟨p, l, v, checked⟩ :=
    ⟨hcontexts.symm, hobjects.symm, rfl,
      fun j hj hdead => (hcopies j (hforth.copies_iff.1 hj)).symm.trans hdead, fun _ => id⟩
  rcases verdictOf_eases hforth i with hsame | hlive
  · exact hsame
  · rcases verdictOf_eases hback i with hsame | hlive'
    · exact hsame.symm
    · exact hlive'.trans hlive.symm

/-- Writes that are no copies get their verdicts whatever their order. -/
theorem foldlM_judge_eq_ok {v : IdentMap .inst Verdict} (hids : ∀ i ∈ ids, ¬ p.Copies i) :
    ids.foldlM (judge p l checked) verdicts = .ok v ↔ ∀ i,
      (i ∈ ids → ∃ x, verdictOf ⟨p, l, verdicts, checked⟩ i = .ok x ∧ v.get? i = some x) ∧
        (i ∉ ids → v.get? i = verdicts.get? i) := by
  induction ids generalizing verdicts with
  | nil =>
    rw [List.foldlM_nil, pure_eq_ok, Except.ok.injEq]
    constructor
    · rintro rfl
      exact fun i => ⟨fun h => absurd h List.not_mem_nil, fun _ => rfl⟩
    · exact fun h => IdentMap.ext fun i => ((h i).2 List.not_mem_nil).symm
  | cons j ids ih =>
    obtain ⟨hj, hids⟩ := List.forall_mem_cons.1 hids
    -- what is put in for `j` makes no difference to the searches
    have hsame (x : Verdict) (i : InstId) :
        verdictOf ⟨p, l, verdicts.insert j x, checked⟩ i =
          verdictOf ⟨p, l, verdicts, checked⟩ i := by
      refine verdictOf_congr rfl rfl (fun k hk => ?_) i
      rw [IdentMap.get?_insert, if_neg fun heq : k = j => hj (heq ▸ hk)]
    simp only [List.foldlM_cons, bind_eq_ok, judge_eq_ok]
    constructor
    · rintro ⟨_, ⟨x, hx, rfl⟩, h⟩ i
      obtain ⟨hin, hout⟩ := (ih hids).1 h i
      simp only [hsame, IdentMap.get?_insert] at hin hout
      by_cases hmem : i ∈ ids
      · exact ⟨fun _ => hin hmem, fun hnot => absurd (List.mem_cons_of_mem _ hmem) hnot⟩
      · refine ⟨fun hi => ?_, fun hnot => ?_⟩
        · obtain rfl := (List.mem_cons.1 hi).resolve_right hmem
          exact ⟨x, hx, by rw [hout hmem, if_pos rfl]⟩
        · rw [hout hmem, if_neg fun heq : i = j => hnot (heq ▸ List.mem_cons_self)]
    · intro h
      obtain ⟨x, hx, hget⟩ := (h j).1 List.mem_cons_self
      refine ⟨_, ⟨x, hx, rfl⟩, (ih hids).2 fun i => ⟨fun hi => ?_, fun hi => ?_⟩⟩
      · rw [hsame]
        exact (h i).1 (List.mem_cons_of_mem _ hi)
      · rw [IdentMap.get?_insert]
        split
        · next heq => exact heq ▸ hget
        · next hne => exact (h i).2 fun hmem => (List.mem_cons.1 hmem).elim hne hi

/-! ## The copies that are tried -/

/-- From a context that is emitted to one that it enters. -/
def Emits (p : Program) (c c' : ContextId) : Prop :=
  ∃ context, p.context c = .ok context ∧ context.materialized = true ∧
    .entered c' ∈ eventsAll context context.regions

/-- A copy of a context that is emitted. -/
def EmitsCopy (p : Program) (c : ContextId) (i : InstId) : Prop :=
  ∃ context, p.context c = .ok context ∧ context.materialized = true ∧
    .copy i ∈ eventsAll context context.regions

/-- Every copy that is collected is in a context to which emitted contexts lead. -/
theorem mem_collectCopies {fuel : Nat} {found found' : Found} {c : ContextId}
    (h : collectCopies p fuel found c = .ok found') (hi : i ∈ found'.copies) :
    i ∈ found.copies ∨ ∃ c', ReflTransGen (Emits p) c c' ∧ EmitsCopy p c' i := by
  induction fuel generalizing found found' c with
  | zero => cases h
  | succ fuel ih =>
    rw [collectCopies] at h
    split at h
    · cases h
      exact .inl hi
    · obtain ⟨context, hcontext, h⟩ := bind_eq_ok.1 h
      split at h
      · next hemitted =>
        refine foldlM_induction h (fun _ found' => i ∈ found'.copies → i ∈ found.copies ∨
          ∃ c', ReflTransGen (Emits p) c c' ∧ EmitsCopy p c' i) .inl ?_ hi
        intro _ found₁ event found₂ hevent hstep hbefore hi
        cases event with
        | fault f => cases hstep
        | copy j =>
          cases hstep
          rcases List.mem_cons.1 hi with rfl | hi
          · exact .inr ⟨c, .refl, context, hcontext, hemitted, hevent⟩
          · exact hbefore hi
        | entered child =>
          rcases ih hstep hi with hi | ⟨c', hpath, hcopy⟩
          · exact hbefore hi
          · exact .inr ⟨c', .head ⟨context, hcontext, hemitted, hevent⟩ hpath, hcopy⟩
      · cases h
        exact .inl hi

theorem mem_blockEvents {b : Block} (h : .copy i ∈ blockEvents b) :
    ∃ inst ∈ b.insts, inst.id = i ∧
      ∃ dest src len copied, inst.op = .memcpy dest src len copied := by
  obtain ⟨inst, hinst, hevent⟩ := List.mem_filterMap.1 h
  refine ⟨inst, List.mem_reverse.1 hinst, ?_⟩
  split at hevent
  · next dest src len copied hop =>
    split at hevent
    · cases hevent
      exact ⟨rfl, dest, src, len, copied, hop⟩
    · cases hevent
  · obtain ⟨f, -, hf⟩ := Option.map_eq_some_iff.1 hevent
    cases hf

mutual

theorem mem_events {c : Context} : ∀ {r : Region}, .copy i ∈ events c r →
    ∃ b block, c.block b = .ok block ∧ .copy i ∈ blockEvents block
  | .block b, h => by
    rw [events] at h
    split at h
    · next block hblock => exact ⟨b, block, hblock, h⟩
    · cases List.mem_singleton.1 h
  | .loop info body, h => by
    rw [events] at h
    split at h
    · obtain ⟨f, -, hf⟩ := List.mem_map.1 h
      cases hf
    · exact mem_eventsAll h

theorem mem_eventsAll {c : Context} : ∀ {rs : List Region}, .copy i ∈ eventsAll c rs →
    ∃ b block, c.block b = .ok block ∧ .copy i ∈ blockEvents block
  | [], h => by cases h
  | r :: rs, h => by
    rw [eventsAll, List.mem_append] at h
    exact h.elim mem_eventsAll mem_events

end

theorem EmitsCopy.holds {c : ContextId} (h : EmitsCopy p c i) :
    ∃ inst, p.Holds c inst ∧ inst.id = i ∧
      ∃ dest src len copied, inst.op = .memcpy dest src len copied := by
  obtain ⟨context, hcontext, -, hevent⟩ := h
  obtain ⟨b, block, hblock, hevent⟩ := mem_eventsAll hevent
  obtain ⟨inst, hinst, hid, hop⟩ := mem_blockEvents hevent
  exact ⟨inst, ⟨b, block, bind_eq_ok.2 ⟨context, hcontext, hblock⟩, hinst⟩, hid, hop⟩

theorem EmitsCopy.copies {c : ContextId} (h : EmitsCopy p c i) : p.Copies i := by
  obtain ⟨inst, hinst, hid, dest, src, len, copied, hop⟩ := h.holds
  exact ⟨c, inst, dest, src, len, copied, hinst, hid, hop⟩

/-! ## The other writes that are tried -/

/-- What is collected, one by one. -/
theorem mem_collect {wanted : Operation → Bool} (h : collect p l wanted = .ok ids) :
    i ∈ ids ↔ ∃ k ∈ l.order, ∃ c inst, p.context k = .ok c ∧ c.materialized = true ∧
      p.Holds k inst ∧ inst.id = i ∧ inst.reached = true ∧ wanted inst.op = true := by
  obtain ⟨lists, hlists, h⟩ := bind_eq_ok.1 h
  cases h
  rw [List.mem_flatten]
  constructor
  · rintro ⟨ids, hids, hi⟩
    obtain ⟨k, hk, h⟩ := exists_of_mem_mapM hlists hids
    obtain ⟨c, hc, h⟩ := bind_eq_ok.1 h
    split at h
    · next hemitted =>
      cases h
      obtain ⟨e, he, rfl⟩ := List.mem_map.1 hi
      obtain ⟨he, hwanted⟩ := List.mem_filter.1 he
      have hholds := (Program.mem_map_instructions hc).1 (List.mem_map_of_mem he)
      exact ⟨k, hk, c, e.2.2, hc, hemitted, hholds, rfl, Bool.and_eq_true_iff.1 hwanted⟩
    · cases h
      cases hi
  · rintro ⟨k, hk, c, inst, hc, hemitted, hholds, rfl, hwanted⟩
    obtain ⟨e, he, rfl⟩ := List.mem_map.1 ((Program.mem_map_instructions hc).2 hholds)
    refine ⟨_, mem_of_mapM hlists hk
      (bind_eq_ok.2 ⟨c, hc, by rw [if_pos hemitted, pure_eq_ok]⟩), ?_⟩
    exact List.mem_map_of_mem (List.mem_filter.2 ⟨he, Bool.and_eq_true_iff.2 hwanted⟩)

/-- The settings ask for writes of this kind, apart from copies. -/
def isTried (settings : DeadStoreSettings) (op : Operation) : Bool :=
  settings.enabled && (isPlainWrite op || settings.allocations && isAlloc op)

/-! ## The sweep -/

/-- The copies that are tried, in the order of the sweep. -/
def triedCopies (p : Program) (settings : DeadStoreSettings) : Except Fault (List InstId) := do
  if settings.enabled && settings.copies then
    let found ← collectCopies p p.climbBound {} p.root
    return found.copies.reverse
  else return []

/-- The writes tried after the copies, in the order of the sweep. -/
def tried (p : Program) (l : Layout) (settings : DeadStoreSettings) :
    Except Fault (List InstId) := do
  if settings.enabled then
    let writes ← collect p l isPlainWrite
    let allocs ← if settings.allocations then collect p l isAlloc else pure []
    return writes ++ allocs
  else return []

/-- What is tried after the copies: every write that is reached, in contexts that are emitted. -/
theorem mem_tried (h : tried p l settings = .ok ids) :
    i ∈ ids ↔ ∃ k ∈ l.order, ∃ c inst, p.context k = .ok c ∧ c.materialized = true ∧
      p.Holds k inst ∧ inst.id = i ∧ inst.reached = true ∧ isTried settings inst.op = true := by
  unfold tried at h
  split at h
  · next henabled =>
    obtain ⟨writes, hwrites, h⟩ := bind_eq_ok.1 h
    dsimp only at h
    split at h
    · next hallocations =>
      obtain ⟨allocs, hallocs, h⟩ := bind_eq_ok.1 h
      cases h
      simp only [List.mem_append, mem_collect hwrites, mem_collect hallocs, isTried, henabled,
        hallocations, Bool.true_and, Bool.or_eq_true]
      grind
    · next hallocations =>
      cases h
      simp [mem_collect hwrites, isTried, henabled, hallocations]
  · next henabled =>
    cases h
    simp [isTried, henabled]

/-- A sweep tries the copies and then the other writes. -/
theorem sweep_eq_ok {v : IdentMap .inst Verdict} : sweep p l settings checked = .ok v ↔
    ∃ first copies ids, triedCopies p settings = .ok first ∧
      first.foldlM (judge p l checked) ∅ = .ok copies ∧ tried p l settings = .ok ids ∧
      ids.foldlM (judge p l checked) copies = .ok v := by
  obtain ⟨enabled, copies, allocations⟩ := settings
  cases enabled <;> cases copies <;> cases allocations <;>
    simp [sweep, triedCopies, tried, bind_eq_ok, List.foldlM_append]
  all_goals grind

theorem mem_triedCopies {first : List InstId} (h : triedCopies p settings = .ok first)
    (hi : i ∈ first) : ∃ c, ReflTransGen (Emits p) p.root c ∧ EmitsCopy p c i := by
  unfold triedCopies at h
  split at h
  · obtain ⟨found, hfound, h⟩ := bind_eq_ok.1 h
    cases h
    obtain hmem | hcopy := mem_collectCopies hfound (List.mem_reverse.1 hi)
    · cases hmem
    · exact hcopy
  · cases h
    cases hi

/-- Whatever has a verdict was tried. -/
theorem mem_of_foldlM_judge {v : IdentMap .inst Verdict}
    (h : ids.foldlM (judge p l checked) verdicts = .ok v) (hi : v.get? i ≠ verdicts.get? i) :
    i ∈ ids := by
  by_contra hnot
  refine hi (foldlM_induction h (fun _ v => v.get? i = verdicts.get? i) rfl ?_)
  intro _ v₁ j v₂ hj hjudge hbefore
  obtain ⟨x, -, rfl⟩ := judge_eq_ok.1 hjudge
  rw [IdentMap.get?_insert, if_neg fun heq : i = j => hnot (heq ▸ hj), hbefore]

theorem get?_copies {first : List InstId} {copies : IdentMap .inst Verdict}
    (hfirst : triedCopies p settings = .ok first)
    (h : first.foldlM (judge p l checked) ∅ = .ok copies) (hi : ¬ p.Copies i) :
    copies.get? i = none := by
  by_contra hne
  obtain ⟨c, -, hcopy⟩ := mem_triedCopies hfirst (mem_of_foldlM_judge h hne)
  exact hi hcopy.copies

theorem not_copies_of_isTried (hapart : p.NamesApart) {k : ContextId} {inst : Instr}
    (hinst : p.Holds k inst) (htried : isTried settings inst.op = true) : ¬ p.Copies inst.id := by
  rintro ⟨k', inst', dest, src, len, copied, hinst', hid, hop⟩
  obtain ⟨-, rfl⟩ := hapart _ _ _ _ hinst hinst' hid.symm
  simp [isTried, hop, isPlainWrite, isAlloc] at htried

theorem not_copies_of_mem_tried (hapart : p.NamesApart) (h : tried p l settings = .ok ids)
    (hi : i ∈ ids) : ¬ p.Copies i := by
  obtain ⟨k, -, c, inst, -, -, hinst, rfl, -, htried⟩ := (mem_tried h).1 hi
  exact not_copies_of_isTried hapart hinst htried

theorem verdictOf_eq_ok {q : Setting} {x : Verdict} (h : verdictOf q i = .ok x) :
    ∃ place inst, q.layout.place i = .ok place ∧ q.program.instruction place = .ok inst ∧
      ((∃ w, Write.ofInstr? q.program inst = some w ∧ isDead q w place = .ok (decide (x = .dead))) ∨
        Write.ofInstr? q.program inst = none ∧ x = .live) := by
  obtain ⟨place, hplace, h⟩ := bind_eq_ok.1 h
  obtain ⟨inst, hinst, h⟩ := bind_eq_ok.1 h
  refine ⟨place, inst, hplace, hinst, ?_⟩
  dsimp only at h
  split at h
  · next w hw =>
    obtain ⟨dead, hdead, h⟩ := bind_eq_ok.1 h
    cases h
    refine .inl ⟨w, hw, hdead.trans ?_⟩
    cases dead <;> rfl
  · next hnone =>
    cases h
    exact .inr ⟨hnone, rfl⟩

/-- A write that is dead while copies are not tried is dead when they are. -/
theorem dead_of_sweep_copies (hapart : p.NamesApart) {v v' : IdentMap .inst Verdict}
    (h : sweep p l { settings with copies := false } checked = .ok v)
    (h' : sweep p l { settings with copies := true } checked = .ok v')
    (hdead : v.get? i = some .dead) : v'.get? i = some .dead := by
  obtain ⟨first, copies, ids, hfirst, hcopies, htried, hfold⟩ := sweep_eq_ok.1 h
  obtain ⟨-, copies', ids', -, -, htried', hfold'⟩ := sweep_eq_ok.1 h'
  cases htried.symm.trans htried'
  have hids : ∀ i ∈ ids, ¬ p.Copies i := fun i => not_copies_of_mem_tried hapart htried
  have hempty : first = [] := by
    unfold triedCopies at hfirst
    rw [Bool.and_false, if_neg Bool.false_ne_true] at hfirst
    exact (Except.ok.inj hfirst).symm
  subst hempty
  cases hcopies
  have hmem : i ∈ ids := mem_of_foldlM_judge hfold (hdead ▸ Option.some_ne_none _)
  obtain ⟨x, hverdict, hx⟩ := ((foldlM_judge_eq_ok hids).1 hfold i).1 hmem
  obtain ⟨x', hverdict', hx'⟩ := ((foldlM_judge_eq_ok hids).1 hfold' i).1 hmem
  cases hdead.symm.trans hx
  -- without verdicts on copies, every copy is a reader
  have hnone : Eases ⟨p, l, ∅, checked⟩ ⟨p, l, copies', checked⟩ :=
    ⟨rfl, rfl, rfl, fun i _ hi => (by cases hi), fun _ => id⟩
  rcases verdictOf_eases hnone i with hsame | hlive
  · cases hverdict'.symm.trans (hsame.trans hverdict)
    exact hx'
  · cases hverdict.symm.trans hlive

end DeadStore

open DeadStore

/-- More dead copies and fewer checks never turn a dead write into a live one. So every write other
than a copy gets the verdict that a search finds when it knows those on copies alone, in whichever
order the writes are tried, and it stays dead when copies are tried too. -/
theorem verdicts_from_copies {p₀ p : Program} (hlink : p₀.link = .ok p) (l : Layout) :
    (∀ v v' checked checked', (∀ i, p.Copies i → v.get? i = some .dead → v'.get? i = some .dead) →
      (∀ i ∈ checked', i ∈ checked) → ∀ w place, isDead ⟨p, l, v, checked⟩ w place = .ok true →
        isDead ⟨p, l, v', checked'⟩ w place = .ok true) ∧
    (∀ settings checked verdicts, sweep p l settings checked = .ok verdicts → ∃ copies ids,
      (∀ i, p.Copies i → copies.get? i = verdicts.get? i) ∧
      (∀ i, ¬ p.Copies i → copies.get? i = none) ∧
      (∀ i x, ¬ p.Copies i → verdicts.get? i = some x → ∃ place inst, l.place i = .ok place ∧
        p.instruction place = .ok inst ∧
        ((∃ w, Write.ofInstr? p inst = some w ∧
          isDead ⟨p, l, copies, checked⟩ w place = .ok (decide (x = .dead))) ∨
          Write.ofInstr? p inst = none ∧ x = .live)) ∧
      tried p l settings = .ok ids ∧
      ∀ ids' : List InstId, (∀ i, i ∈ ids' ↔ i ∈ ids) →
        ids'.foldlM (judge p l checked) copies = .ok verdicts) ∧
    (∀ (settings : DeadStoreSettings) checked v v',
      sweep p l { settings with copies := false } checked = .ok v →
      sweep p l { settings with copies := true } checked = .ok v' →
        ∀ i, ¬ p.Copies i → v.get? i = some .dead → v'.get? i = some .dead) := by
  have hapart := Program.namesApart_of_link hlink
  refine ⟨fun v v' checked checked' hv hchecked w place hdead => ?_,
    fun settings checked verdicts h => ?_, fun settings checked v v' h h' i _ hdead => ?_⟩
  · have heases : Eases ⟨p, l, v, checked⟩ ⟨p, l, v', checked'⟩ := ⟨rfl, rfl, rfl, hv, hchecked⟩
    rcases heases.isDead w place with hsame | hlive
    · exact hsame.trans hdead
    · cases hdead.symm.trans hlive
  · obtain ⟨first, copies, ids, hfirst, hcopies, htried, hfold⟩ := sweep_eq_ok.1 h
    have hids : ∀ i ∈ ids, ¬ p.Copies i := fun i => not_copies_of_mem_tried hapart htried
    have hfolded := (foldlM_judge_eq_ok hids).1 hfold
    refine ⟨copies, ids, fun i hi => ((hfolded i).2 fun hmem => hids i hmem hi).symm,
      fun i hi => get?_copies hfirst hcopies hi, fun i x hi hx => ?_, htried, fun ids' hsame => ?_⟩
    · by_cases hmem : i ∈ ids
      · obtain ⟨x', hverdict, hx'⟩ := (hfolded i).1 hmem
        cases hx.symm.trans hx'
        exact verdictOf_eq_ok hverdict
      · rw [(hfolded i).2 hmem, get?_copies hfirst hcopies hi] at hx
        cases hx
    · refine (foldlM_judge_eq_ok fun i hi => hids i ((hsame i).1 hi)).2 fun i => ?_
      rw [hsame i]
      exact hfolded i
  · exact dead_of_sweep_copies hapart h h' hdead

/-- The verdicts of an analysis are those of a sweep. -/
theorem sweep_of_analyze {w : Walk.Setting} (hl : Layout.ofProgram w.program = .ok w.layout)
    {r r' : References} {report : Report}
    (h : analyze w.program w.settings r = .ok (report, r')) :
    sweep w.program w.layout w.settings.deadStores report.runtimeChecks =
      .ok report.deadStores := by
  rw [analyze, hl, ok_bind, bind_eq_ok] at h
  obtain ⟨⟨out, s⟩, -, h⟩ := h
  obtain ⟨checked, -, h⟩ := bind_eq_ok.1 h
  obtain ⟨counts, -, h⟩ := bind_eq_ok.1 h
  obtain ⟨verdicts, hsweep, h⟩ := bind_eq_ok.1 h
  cases h
  exact hsweep

/-! ## Searches that end soon -/

section Within

variable {p : Program} {l : Layout} {checked : IdentSet .inst} {verdicts v : IdentMap .inst Verdict}
  {n : Nat}

namespace DeadStore

/-- Decide about one write by a search of at most so many steps. -/
def judgeWithin (n : Nat) (p : Program) (l : Layout) (checked : IdentSet .inst)
    (verdicts : IdentMap .inst Verdict) (inst : InstId) :
    Except Fault (IdentMap .inst Verdict) := do
  let place ← l.place inst
  let instr ← p.instruction place
  match Write.ofInstr? p instr with
  | some w =>
    let initial : State := { work := [⟨{ place with index := place.index + 1 }, [], w.fresh⟩] }
    match initial.answer? ⟨p, l, verdicts, checked⟩ w n with
    | some dead => return verdicts.insert inst (if dead then .dead else .live)
    | none => throw .endless
  | none => return verdicts.insert inst .live

theorem judge_of_judgeWithin {i : InstId} (h : judgeWithin n p l checked verdicts i = .ok v) :
    judge p l checked verdicts i = .ok v := by
  obtain ⟨place, hplace, h⟩ := bind_eq_ok.1 h
  obtain ⟨inst, hinst, h⟩ := bind_eq_ok.1 h
  dsimp only at h
  split at h
  · next w hw =>
    split at h
    · next dead hdead =>
      cases h
      exact judge_of_answer? hplace hinst hw hdead
    · cases h
  · next hw =>
    refine bind_eq_ok.2 ⟨place, hplace, bind_eq_ok.2 ⟨inst, hinst, ?_⟩⟩
    rw [hw]
    exact h

theorem foldlM_judge_of_judgeWithin {ids : List InstId}
    (h : ids.foldlM (judgeWithin n p l checked) verdicts = .ok v) :
    ids.foldlM (judge p l checked) verdicts = .ok v := by
  induction ids generalizing verdicts with
  | nil => exact h
  | cons i ids ih =>
    rw [List.foldlM_cons] at h ⊢
    obtain ⟨v', hv', h⟩ := bind_eq_ok.1 h
    exact bind_eq_ok.2 ⟨v', judge_of_judgeWithin hv', ih h⟩

/-- The sweep, with searches of at most so many steps. -/
def sweepWithin (n : Nat) (p : Program) (l : Layout) (settings : DeadStoreSettings)
    (checked : IdentSet .inst) : Except Fault (IdentMap .inst Verdict) := do
  let copies ← (← triedCopies p settings).foldlM (judgeWithin n p l checked) ∅
  (← tried p l settings).foldlM (judgeWithin n p l checked) copies

theorem sweep_of_sweepWithin {settings : DeadStoreSettings}
    (h : sweepWithin n p l settings checked = .ok v) : sweep p l settings checked = .ok v := by
  obtain ⟨first, hfirst, h⟩ := bind_eq_ok.1 h
  obtain ⟨copies, hcopies, h⟩ := bind_eq_ok.1 h
  obtain ⟨ids, hids, h⟩ := bind_eq_ok.1 h
  exact sweep_eq_ok.2 ⟨first, copies, ids, hfirst, foldlM_judge_of_judgeWithin hcopies, hids,
    foldlM_judge_of_judgeWithin h⟩

/-- A whole analysis, computed with a walk to some depth and with searches of at most so many
steps. -/
theorem analyze_of_sweepWithin {w : Walk.Setting} {r : References}
    {P : IdentSet .inst → IdentMap .inst Verdict → Prop} (depth n : Nat)
    (hl : Layout.ofProgram w.program = .ok w.layout)
    (h : Yields (Walk.runTo w depth (.trusting 0) { clock := 1, references := r }) fun out =>
      Yields (Walk.runtimeChecks w out.2.findings) fun checked =>
        Yields (Walk.checkCounts w out.2.findings) fun _ =>
          Yields (sweepWithin n w.program w.layout w.settings.deadStores checked) (P checked)) :
    Yields (analyze w.program w.settings r) fun out => P out.1.runtimeChecks out.1.deadStores := by
  obtain ⟨⟨out, s⟩, hrun, checked, hchecked, counts, hcounts, verdicts, hsweep, hP⟩ :=
    Walk.yields_run depth h
  exact ⟨_, bind_eq_ok.2 ⟨_, hl, bind_eq_ok.2 ⟨_, hrun, bind_eq_ok.2 ⟨_, hchecked,
    bind_eq_ok.2 ⟨_, hcounts, bind_eq_ok.2 ⟨_, sweep_of_sweepWithin hsweep, rfl⟩⟩⟩⟩⟩, hP⟩

end DeadStore

end Within

open Walk in
/-- A store, a copy of what it stored, a store over the copy, and the end of both objects. -/
def copiedThenStored : Program :=
  straight [⟨⟨0⟩, .store (.single ⟨0⟩ 0) 8, false, .none, true⟩,
    ⟨⟨1⟩, .memcpy (.single ⟨1⟩ 0) (.single ⟨0⟩ 0) (some 8) [], false, .none, true⟩,
    ⟨⟨2⟩, .store (.single ⟨1⟩ 0) 8, false, .none, true⟩,
    ⟨⟨3⟩, .free (.single ⟨0⟩ 0), false, .none, true⟩,
    ⟨⟨4⟩, .free (.single ⟨1⟩ 0), false, .none, true⟩]

/-- The copy is dead, and so is the first store once copies are tried; the second store is dead
either way. -/
theorem verdicts_from_copies_straight :
    let p := copiedThenStored
    let l := (Walk.linkedSetting p).layout
    Yields (sweep p l { copies := false } ∅) fun v => Yields (sweep p l {} ∅) fun v' =>
      v.get? ⟨0⟩ = some .live ∧ v'.get? ⟨0⟩ = some .dead ∧ v'.get? ⟨2⟩ = some .dead ∧
        ∃ copies : IdentMap .inst Verdict, copies.get? ⟨0⟩ = none ∧ copies.get? ⟨1⟩ = some .dead ∧
          isDead ⟨p, l, copies, ∅⟩ ⟨⟨0⟩, ⟨⟨0⟩, 0⟩, some 8, .heap⟩ ⟨⟨0⟩, ⟨0⟩, 0⟩ = .ok true ∧
          [⟨2⟩, ⟨0⟩].foldlM (judge p l ∅) copies = .ok v' := by
  intro p l
  have hlink : p.link = .ok p := rfl
  have hfirst : Yields (l.place ⟨0⟩) (· = ⟨⟨0⟩, ⟨0⟩, 0⟩) := by decide +kernel
  have hsweeps : Yields (sweepWithin 8 p l { copies := false } ∅) fun v =>
      Yields (sweepWithin 8 p l {} ∅) fun v' => Yields (tried p l {}) fun ids =>
        v.get? ⟨0⟩ = some .live ∧ v.get? ⟨2⟩ = some .dead ∧ v'.get? ⟨0⟩ = some .dead ∧
          v'.get? ⟨1⟩ = some .dead ∧ ids = [⟨0⟩, ⟨2⟩] := by
    decide +kernel
  obtain ⟨v, hv, v', hv', ids, hids, hlive, hdead₂, hdead₀, hdead₁, rfl⟩ := hsweeps
  replace hv := sweep_of_sweepWithin hv
  replace hv' := sweep_of_sweepWithin hv'
  obtain ⟨-, hsweep, hoption⟩ := verdicts_from_copies hlink l
  obtain ⟨copies, ids, hcopies, hothers, hverdicts, htried, horder⟩ := hsweep _ _ _ hv'
  cases hids.symm.trans htried
  have hapart := Program.namesApart_of_link hlink
  have hnot : ∀ i ∈ [(⟨0⟩ : InstId), ⟨2⟩], ¬ p.Copies i := fun i =>
    not_copies_of_mem_tried hapart htried
  have hcopy : p.Copies ⟨1⟩ := ⟨⟨0⟩, _, _, _, _, _, ⟨⟨0⟩, _, rfl, .tail _ (.head _)⟩, rfl, rfl⟩
  refine ⟨v, hv, v', hv', hlive, hdead₀, ?_, copies, hothers _ (hnot _ (.head _)),
    (hcopies _ hcopy).trans hdead₁, ?_, horder _ fun i => ?_⟩
  · exact hoption {} ∅ v v' hv hv' ⟨2⟩ (hnot _ (.tail _ (.head _))) hdead₂
  · obtain ⟨place, inst, hplace, hinst, hsearch⟩ :=
      hverdicts ⟨0⟩ .dead (hnot _ (.head _)) hdead₀
    obtain ⟨_, hplace', rfl⟩ := hfirst
    cases hplace'.symm.trans hplace
    cases (rfl : p.instruction ⟨⟨0⟩, ⟨0⟩, 0⟩ = .ok _).symm.trans hinst
    obtain ⟨w, hw, hsearch⟩ | ⟨-, hne⟩ := hsearch
    · cases (rfl : Write.ofInstr? p _ = some _).symm.trans hw
      exact hsearch
    · cases hne
  · simp only [List.mem_cons, List.not_mem_nil, or_false]
    exact or_comm

end ByteTrust
