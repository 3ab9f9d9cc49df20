import ByteTrust.Proofs.DeadStore.Paths
import ByteTrust.Proofs.Program.Linked

/-!
# One block of a search

A step of the search follows a cursor through its block. On a linked program it never fails, and it
does what the paths from the cursor do: the cursors that it leaves behind are met on these paths, and
whatever can be read from the cursor can be read from one of them, by a shorter path.
-/

namespace ByteTrust.DeadStore

open Relation

variable {q : Setting} {w : Write} {k k' : Cursor} {c : Context} {block : Block} {inst : Instr}
  {bits : Overwritten} {n : Nat}

/-! ## One instruction -/

theorem isReplaced_eq_ok {key : ContextId} (hc : q.program.contexts.get? key = some c)
    (id : InstId) (result : ReadValue) :
    ∃ b, isReplaced q key id result = .ok b ∧
      (b = true ↔ result.isFullyKnown = true ∧ c.materialized = true ∧ id ∉ q.checked) := by
  unfold isReplaced
  cases hknown : result.isFullyKnown with
  | false => exact ⟨false, rfl, by simp⟩
  | true =>
    refine ⟨c.materialized && !q.checked.contains id, ?_, ?_⟩
    · simp [Program.context_eq_ok.2 hc]
    · rw [Bool.and_eq_true, Bool.not_eq_true', ← Bool.not_eq_true, IdentSet.contains_iff]
      simp

/-- What a visit says about an instruction that is not a call. -/
def VisitSpec (q : Setting) (w : Write) (c : Context) (inst : Instr) (bits : Overwritten) :
    Visit → Prop
  | .goOn bits' => ¬ Reads q w c inst ∧ ¬ Frees w inst ∧
      overwrittenBy w inst.op bits = (bits', false)
  | .stop => ¬ Reads q w c inst ∧ (Frees w inst ∨ (overwrittenBy w inst.op bits).2 = true)
  | .observed => Reads q w c inst

theorem visitWrite_spec {dest : PointerValue} {len : Nat} (hread : ¬ Reads q w c inst)
    (hfree : ¬ Frees w inst) (hwrite : written? inst.op = some (dest, len)) :
    VisitSpec q w c inst bits (visitWrite w dest len bits) := by
  have hover : overwrittenBy w inst.op bits = w.overwrite dest len bits := by
    rw [overwrittenBy, hwrite]
  unfold visitWrite
  rcases hw : w.overwrite dest len bits with ⟨bits', complete⟩
  cases complete with
  | true => exact ⟨hread, .inr (by rw [hover, hw])⟩
  | false => exact ⟨hread, hfree, by rw [hover, hw]⟩

theorem visitRead_spec {hidden : Bool} {ptr : PointerValue} {len : Option Nat}
    (hread : Reads q w c inst ↔ hidden = false ∧ w.mayAlias ptr len = true)
    (hfree : ¬ Frees w inst) (hwrite : written? inst.op = none) :
    VisitSpec q w c inst bits (visitRead w hidden ptr len bits) := by
  unfold visitRead
  split
  · next h =>
    rw [Bool.and_eq_true, Bool.not_eq_true'] at h
    exact hread.2 h
  · next h =>
    rw [Bool.and_eq_true, Bool.not_eq_true'] at h
    exact ⟨fun hr => h (hread.1 hr), hfree, by rw [overwrittenBy, hwrite]⟩

/-- Operations that cannot read the write. -/
theorem not_reads {op : Operation} (hop : inst.op = op) (hmem : op.readsMemory = false)
    (hcall : ∀ site, op ≠ .call site) : ¬ Reads q w c inst := by
  subst hop
  rintro (⟨hop, -, -⟩ | ⟨hop, -, -⟩ | ⟨hop, -⟩ | ⟨hop, -⟩ | ⟨hop, -, -⟩)
  case call => exact hcall _ hop
  all_goals
    rw [hop] at hmem
    cases hmem

theorem not_frees {op : Operation} (hop : inst.op = op) (hfree : ∀ ptr, op ≠ .free ptr) :
    ¬ Frees w inst := by
  rintro ⟨-, ptr, -, hptr, -⟩
  exact hfree ptr (hop.symm.trans hptr)

theorem frees_iff {ptr : PointerValue} (hop : inst.op = .free ptr) :
    Frees w inst ↔ w.kind = .heap ∧
      (ptr.unique?.any fun target => target.object = w.target.object) = true := by
  rw [Frees, Option.any_eq_true]
  constructor
  · rintro ⟨hkind, ptr', target, hptr, htarget, hobj⟩
    cases hop.symm.trans hptr
    exact ⟨hkind, target, htarget, by simpa using hobj⟩
  · rintro ⟨hkind, target, htarget, hobj⟩
    exact ⟨hkind, ptr, target, hop, htarget, by simpa using hobj⟩

theorem reads_memcpy_iff {dest src : PointerValue} {len : Option Nat} {copied : List ValuePiece}
    (hop : inst.op = .memcpy dest src len copied) :
    Reads q w c inst ↔
      decide (q.verdicts.get? inst.id = some .dead) = false ∧ w.mayAlias src len = true := by
  rw [decide_eq_false_iff_not]
  constructor
  · rintro (⟨hop', -, -⟩ | ⟨hop', halias, hlive⟩ | ⟨hop', -⟩ | ⟨hop', -⟩ | ⟨hop', -, -⟩) <;>
      cases hop.symm.trans hop'
    exact ⟨hlive, halias⟩
  · exact fun h => .memcpy hop h.2 h.1

theorem visitInstr_spec {key : ContextId} (hc : q.program.contexts.get? key = some c)
    (hcall : ∀ site, inst.op ≠ .call site) (bits : Overwritten) :
    ∃ visit, visitInstr q w key inst bits = .ok visit ∧ VisitSpec q w c inst bits visit := by
  unfold visitInstr
  cases hop : inst.op with
  | call site => exact absurd hop (hcall site)
  | free ptr =>
    have hread : ¬ Reads q w c inst := not_reads hop rfl (by simp)
    simp only
    split
    · next hfree => exact ⟨_, rfl, hread, .inl ((frees_iff hop).2 hfree)⟩
    · next hfree =>
      exact ⟨_, rfl, hread, fun h => hfree ((frees_iff hop).1 h), by rw [hop]; rfl⟩
  | memcpy dest src len copied =>
    have hfree : ¬ Frees w inst := not_frees hop (by simp)
    have hread := reads_memcpy_iff (q := q) (w := w) (c := c) hop
    rw [← Bool.not_eq_true', ← Bool.and_eq_true] at hread
    simp only [visitRead]
    by_cases hr : Reads q w c inst
    · rw [if_pos (hread.1 hr)]
      exact ⟨.observed, rfl, hr⟩
    · rw [if_neg fun h => hr (hread.2 h)]
      cases len with
      | none => exact ⟨.goOn bits, rfl, hr, hfree, by rw [hop]; rfl⟩
      | some len => exact ⟨_, rfl, visitWrite_spec hr hfree (by rw [hop]; rfl)⟩
  | load ptr size ordering result =>
    obtain ⟨hidden, hhidden, hiff⟩ := isReplaced_eq_ok hc inst.id result
    refine ⟨visitRead w hidden ptr (some size) bits, by simp [hhidden], visitRead_spec ?_
      (not_frees hop (by simp)) (by rw [hop]; rfl)⟩
    rw [← Bool.not_eq_true, hiff]
    constructor
    · rintro (⟨hop', halias, hkept⟩ | ⟨hop', -, -⟩ | ⟨hop', -⟩ | ⟨hop', -⟩ | ⟨hop', -, -⟩) <;>
        cases hop.symm.trans hop'
      exact ⟨hkept, halias⟩
    · exact fun h => .load hop h.2 h.1
  | atomic ptr size ordering result =>
    refine ⟨_, rfl, visitRead_spec ?_ (not_frees hop (by simp)) (by rw [hop]; rfl)⟩
    constructor
    · rintro (⟨hop', -, -⟩ | ⟨hop', -, -⟩ | ⟨hop', halias⟩ | ⟨hop', -⟩ | ⟨hop', -, -⟩) <;>
        cases hop.symm.trans hop'
      exact ⟨rfl, halias⟩
    · exact fun h => .atomic hop h.2
  | realloc object source len copied =>
    refine ⟨_, rfl, visitRead_spec ?_ (not_frees hop (by simp)) (by rw [hop]; rfl)⟩
    constructor
    · rintro (⟨hop', -, -⟩ | ⟨hop', -, -⟩ | ⟨hop', -⟩ | ⟨hop', halias⟩ | ⟨hop', -, -⟩) <;>
        cases hop.symm.trans hop'
      exact ⟨rfl, halias⟩
    · exact fun h => .realloc hop h.2
  | store ptr size =>
    exact ⟨_, rfl, visitWrite_spec (not_reads hop rfl (by simp)) (not_frees hop (by simp))
      (by rw [hop]; rfl)⟩
  | memset dest len =>
    cases len with
    | none =>
      exact ⟨_, rfl, not_reads hop rfl (by simp), not_frees hop (by simp), by rw [hop]; rfl⟩
    | some len =>
      exact ⟨_, rfl, visitWrite_spec (not_reads hop rfl (by simp)) (not_frees hop (by simp))
        (by rw [hop]; rfl)⟩
  | readFile dest len =>
    cases len with
    | none =>
      exact ⟨_, rfl, not_reads hop rfl (by simp), not_frees hop (by simp), by rw [hop]; rfl⟩
    | some len =>
      exact ⟨_, rfl, visitWrite_spec (not_reads hop rfl (by simp)) (not_frees hop (by simp))
        (by rw [hop]; rfl)⟩
  | _ => exact ⟨_, rfl, not_reads hop rfl (by simp), not_frees hop (by simp), by rw [hop]; rfl⟩

/-! ## Cursors in a program -/

/-- The function that a place is in. -/
def Place.function (q : Setting) (place : Place) : ContextId :=
  q.layout.functionRoot place.context

/-- The place is in a block of the program, or just after one. -/
def Within (q : Setting) (place : Place) : Prop :=
  ∃ c block, q.program.contexts.get? place.context = some c ∧
    c.blocks.get? place.block = some block ∧ place.index ≤ block.insts.length

/-- The cursor stands in the program, and its pending returns are the calls that led there. -/
structure Valid (q : Setting) (w : Write) (k : Cursor) : Prop where
  within : ∀ place ∈ k.place :: k.stack, Within q place
  resumes : ∀ place ∈ k.stack, 0 < place.index
  calls : (k.place :: k.stack).Pairwise fun callee caller =>
    TransGen (q.program.Calls q.layout) (Place.function q caller) (Place.function q callee)
  bits : Fits w k.bits

theorem Stands.unique {c' : Context} {block' : Block} (h : Stands q k c block)
    (h' : Stands q k c' block') : c' = c ∧ block' = block := by
  obtain ⟨hc, hb⟩ := h
  obtain ⟨hc', hb'⟩ := h'
  cases hc.symm.trans hc'
  cases hb.symm.trans hb'
  exact ⟨rfl, rfl⟩

theorem Valid.stands (h : Valid q w k) :
    ∃ c block, Stands q k c block ∧ k.place.index ≤ block.insts.length := by
  obtain ⟨c, block, hc, hb, hle⟩ := h.within k.place List.mem_cons_self
  exact ⟨c, block, ⟨hc, hb⟩, hle⟩

/-- A program that a search can go through without a fault. -/
structure Searchable (q : Setting) : Prop where
  linked : q.program.Linked q.layout
  /-- Callers are instructions of the program. -/
  callers : ∀ {f d i}, q.program.contexts.get? f = some d → i ∈ d.callers →
    ∃ place, q.layout.places.get? i = some place

/-- The same cursor further on in its block. -/
def Cursor.goto (k : Cursor) (index : Nat) (bits : Overwritten) : Cursor :=
  { k with place := { k.place with index := index }, bits := bits }

theorem Stands.goto (h : Stands q k c block) (index : Nat) (bits : Overwritten) :
    Stands q (k.goto index bits) c block := ⟨h.found, h.holds⟩

theorem Valid.goto (h : Valid q w k) (hk : Stands q k c block) {index : Nat}
    (hindex : index ≤ block.insts.length) (hbits : Fits w bits) : Valid q w (k.goto index bits) := by
  obtain ⟨hwithin, hresumes, hcalls, -⟩ := h
  rw [List.forall_mem_cons] at hwithin
  rw [List.pairwise_cons] at hcalls
  refine ⟨?_, hresumes, List.pairwise_cons.2 hcalls, hbits⟩
  exact List.forall_mem_cons.2 ⟨⟨c, block, hk.found, hk.holds, hindex⟩, hwithin.2⟩

/-- The start of a block of the same function, or of one that this one calls. -/
theorem Valid.enterBlock (h : Valid q w k) {key : ContextId} {b : BlockId} {d : Context}
    {start : Block} (hd : q.program.contexts.get? key = some d)
    (hstart : d.blocks.get? b = some start)
    (hroot : q.layout.functionRoot key = k.function q ∨
      q.program.Calls q.layout (k.function q) (q.layout.functionRoot key)) :
    Valid q w ⟨⟨key, b, 0⟩, k.stack, k.bits⟩ := by
  obtain ⟨hwithin, hresumes, hcalls, hbits⟩ := h
  rw [List.forall_mem_cons] at hwithin
  rw [List.pairwise_cons] at hcalls
  refine ⟨List.forall_mem_cons.2 ⟨⟨d, start, hd, hstart, Nat.zero_le _⟩, hwithin.2⟩, hresumes,
    List.pairwise_cons.2 ⟨fun caller hcaller => ?_, hcalls.2⟩, hbits⟩
  have hold := hcalls.1 caller hcaller
  rcases hroot with hroot | hroot
  · have hfun : Place.function q ⟨key, b, 0⟩ = Place.function q k.place := hroot
    rwa [hfun]
  · exact hold.tail hroot

/-- A call is among the calls of its function. -/
theorem Stands.calls (hk : Stands q k c block) (hinst : block.insts[k.place.index]? = some inst)
    {f : ContextId} (hcall : Enters w inst f) : q.program.Calls q.layout (k.function q) f := by
  obtain ⟨site, hop, hcallee, -⟩ := hcall
  refine .inl ⟨inst, ⟨_, c, _, block, hk.found, rfl, hk.holds, List.mem_of_getElem? hinst⟩, ?_⟩
  rw [hop, Operation.callee?, hcallee]

/-- The iteration that follows stays in its function, or the function is said to call another. -/
theorem Stands.again (hq : Searchable q) (hk : Stands q k c block) {loop : LoopId} {index : Nat}
    {header latch : BlockId} {parent following : ContextId}
    (hkind : c.kind = .iteration loop index header latch) (hparent : c.parent = some parent)
    (hnext : iterationAfter? q.layout parent loop index = some following) :
    (∃ d, q.program.contexts.get? following = some d) ∧
      (q.layout.functionRoot following = k.function q ∨
        q.program.Calls q.layout (k.function q) (q.layout.functionRoot following)) := by
  obtain ⟨peel, hpeel, hfollowing⟩ := Option.bind_eq_some_iff.1 hnext
  have hmem := List.mem_of_getElem? hfollowing
  refine ⟨hq.linked.iteration_exists hpeel hmem, ?_⟩
  have henc : c.enclosing? = some parent := by simp only [Context.enclosing?, hkind, hparent]
  have hroot := hq.linked.functionRoot_of_enclosing hk.found henc
  by_cases hsame : q.layout.functionRoot following = k.function q
  · exact .inl hsame
  · exact .inr (.inr ⟨fun h => hsame h.symm, parent, loop, peel, following, hroot.symm, hpeel, hmem,
      rfl⟩)

/-- A path stays in the program. -/
theorem Valid.moves (hq : Searchable q) (h : Valid q w k) (hmove : Moves q w k k') :
    Valid q w k' := by
  cases hmove with
  | @past c block inst bits hk hinst _ _ _ hwrite =>
    have hlt := (List.getElem?_eq_some_iff.1 hinst).1
    have hbits := h.bits.overwrittenBy inst.op
    rw [hwrite] at hbits
    exact h.goto hk hlt hbits
  | @enter c block inst f d hk hinst hcall hcallee =>
    obtain ⟨start, hstart⟩ := hq.linked.entry hcallee
    have hfun : q.layout.functionRoot f = f := by
      obtain ⟨site, hop, hf, -⟩ := hcall
      obtain ⟨d', hd', hfun⟩ := hq.linked.callee hk.found hk.holds (List.mem_of_getElem? hinst)
        (by rw [hop]; exact hf)
      exact hq.linked.functionRoot_of_isFunction hd' hfun
    have hcalls : q.program.Calls q.layout (k.function q) (q.layout.functionRoot f) := by
      rw [hfun]
      exact hk.calls hinst hcall
    have hlt := (List.getElem?_eq_some_iff.1 hinst).1
    -- the place to return to is as good as the present one, and the callee comes below it
    obtain ⟨hwithin, hresumes, hpairs, hbits⟩ := h.goto hk hlt h.bits
    refine ⟨List.forall_mem_cons.2 ⟨⟨d, start, hcallee, hstart, Nat.zero_le _⟩, hwithin⟩,
      List.forall_mem_cons.2 ⟨Nat.succ_pos _, hresumes⟩,
      List.pairwise_cons.2 ⟨?_, hpairs⟩, hbits⟩
    rw [List.pairwise_cons] at hpairs
    exact List.forall_mem_cons.2 ⟨.single hcalls, fun caller hcaller =>
      (hpairs.1 caller hcaller).tail hcalls⟩
  | resume hk hstack =>
    obtain ⟨hwithin, hresumes, hcalls, hbits⟩ := h
    rw [hstack] at hwithin hresumes hcalls
    exact ⟨(List.forall_mem_cons.1 hwithin).2, (List.forall_mem_cons.1 hresumes).2,
      (List.pairwise_cons.1 hcalls).2, hbits⟩
  | toCaller hk hstack hroot hi hplace =>
    obtain ⟨c, block, inst, hc, hb, hinst, -⟩ := hq.linked.place_spec hplace
    have hlt := (List.getElem?_eq_some_iff.1 hinst).1
    refine ⟨List.forall_mem_cons.2 ⟨⟨c, block, hc, hb, hlt⟩, by simp⟩, by simp, by simp, h.bits⟩
  | branch hk htarget hedge howner =>
    obtain ⟨d, hd, hroot, start, hstart⟩ := hq.linked.owner_spec howner
    exact h.enterBlock hd hstart (.inl hroot)
  | again hk htarget hkind hparent hnext hd =>
    obtain ⟨start, hstart⟩ := hq.linked.entry hd
    exact h.enterBlock hd hstart (hk.stands.again hq hkind hparent hnext).2

/-! ## Through a block -/

/-- From `k` every path to a reader leads through `k'`. -/
structure Follows (q : Setting) (w : Write) (k k' : Cursor) : Prop where
  path : ReflTransGen (Moves q w) k k'
  leaks : ∀ {n}, Leaks q w n k → ∃ m ≤ n, Leaks q w m k'

theorem Follows.refl (k : Cursor) : Follows q w k k := ⟨.refl, fun h => ⟨_, Nat.le_refl _, h⟩⟩

theorem Follows.trans {k'' : Cursor} (h : Follows q w k k') (h' : Follows q w k' k'') :
    Follows q w k k'' := by
  refine ⟨h.path.trans h'.path, fun hleak => ?_⟩
  obtain ⟨m, hm, hleak⟩ := h.leaks hleak
  obtain ⟨m', hm', hleak⟩ := h'.leaks hleak
  exact ⟨m', Nat.le_trans hm' hm, hleak⟩

/-- Before an instruction that is not a call to enter there is one way on. -/
theorem Stands.moves_eq (hk : Stands q k c block) (hinst : block.insts[k.place.index]? = some inst)
    (henter : ∀ f, ¬ Enters w inst f) (hmove : Moves q w k k') :
    ∃ bits, ¬ Frees w inst ∧ overwrittenBy w inst.op k.bits = (bits, false) ∧ k' = k.next bits := by
  have hlt := (List.getElem?_eq_some_iff.1 hinst).1
  cases hmove with
  | past hk' hinst' _ hfree _ hwrite =>
    obtain ⟨rfl, rfl⟩ := hk.unique hk'
    cases hinst.symm.trans hinst'
    exact ⟨_, hfree, hwrite, rfl⟩
  | enter hk' hinst' hcall _ =>
    obtain ⟨rfl, rfl⟩ := hk.unique hk'
    cases hinst.symm.trans hinst'
    exact absurd hcall (henter _)
  | resume hk' | toCaller hk' | branch hk' | again hk' =>
    obtain ⟨rfl, rfl⟩ := hk.unique hk'.stands
    exact absurd hk'.finished (Nat.not_le.2 hlt)

theorem Stands.reads (hk : Stands q k c block) (hinst : block.insts[k.place.index]? = some inst)
    (hobs : Observes q w k) : Reads q w c inst := by
  have hlt := (List.getElem?_eq_some_iff.1 hinst).1
  cases hobs with
  | read hk' hinst' hread =>
    obtain ⟨rfl, rfl⟩ := hk.unique hk'
    cases hinst.symm.trans hinst'
    exact hread
  | escape hk' | beyond hk' =>
    obtain ⟨rfl, rfl⟩ := hk.unique hk'.stands
    exact absurd hk'.finished (Nat.not_le.2 hlt)

/-- What is read from before a harmless instruction is read from after it. -/
theorem Stands.leaks_next (hk : Stands q k c block)
    (hinst : block.insts[k.place.index]? = some inst) (hread : ¬ Reads q w c inst)
    (henter : ∀ f, ¬ Enters w inst f) (hleak : Leaks q w n k) :
    ∃ bits m, ¬ Frees w inst ∧ overwrittenBy w inst.op k.bits = (bits, false) ∧
      m ≤ n ∧ Leaks q w m (k.next bits) := by
  cases hleak with
  | here hobs => exact absurd (hk.reads hinst hobs) hread
  | step hmove hleak =>
    obtain ⟨bits, hfree, hwrite, rfl⟩ := hk.moves_eq hinst henter hmove
    exact ⟨bits, _, hfree, hwrite, Nat.le_succ _, hleak⟩

theorem Stands.follows_next (hk : Stands q k c block)
    (hinst : block.insts[k.place.index]? = some inst) (hread : ¬ Reads q w c inst)
    (hfree : ¬ Frees w inst) (henter : ∀ f, ¬ Enters w inst f)
    (hwrite : overwrittenBy w inst.op k.bits = (bits, false)) : Follows q w k (k.next bits) := by
  refine ⟨.single (.past hk hinst hread hfree henter hwrite), fun hleak => ?_⟩
  obtain ⟨bits', m, -, hwrite', hm, hleak⟩ := hk.leaks_next hinst hread henter hleak
  cases hwrite.symm.trans hwrite'
  exact ⟨m, hm, hleak⟩

/-- What is left of the paths from `k` at the end of a leg. -/
def LegSpec (q : Setting) (w : Write) (k : Cursor) (block : Block) : Leg → Prop
  | .finished bits => Fits w bits ∧ Follows q w k (k.goto block.insts.length bits)
  | .entering f index bits => ∃ i inst, index = i + 1 ∧ block.insts[i]? = some inst ∧
      Enters w inst f ∧ k.place.index ≤ i ∧ Fits w bits ∧ Follows q w k (k.goto i bits)
  | .stop => ∀ n, ¬ Leaks q w n k
  | .observed => ∃ n, Leaks q w n k

theorem LegSpec.of_next {leg : Leg} (hfollows : Follows q w k (k.next bits))
    (h : LegSpec q w (k.next bits) block leg) : LegSpec q w k block leg := by
  cases leg with
  | finished bits' => exact ⟨h.1, hfollows.trans h.2⟩
  | entering f index bits' =>
    obtain ⟨i, inst, hindex, hinst, hcall, hle, hfits, hfollows'⟩ := h
    exact ⟨i, inst, hindex, hinst, hcall, Nat.le_of_succ_le hle, hfits, hfollows.trans hfollows'⟩
  | stop =>
    intro n hleak
    obtain ⟨m, -, hleak⟩ := hfollows.leaks hleak
    exact h m hleak
  | observed =>
    obtain ⟨k', hpath, hobs⟩ := exists_leaks_iff.1 h
    exact exists_leaks_iff.2 ⟨k', hfollows.path.trans hpath, hobs⟩

theorem follow_spec (hk : Stands q k c block) (hindex : k.place.index ≤ block.insts.length)
    (hfits : Fits w k.bits) :
    ∃ leg, follow q w k.place.context k.place.index (block.insts.drop k.place.index) k.bits =
      .ok leg ∧ LegSpec q w k block leg := by
  induction hrest : block.insts.drop k.place.index generalizing k with
  | nil =>
    have hlen := List.drop_eq_nil_iff.1 hrest
    have heq : k.goto block.insts.length k.bits = k := by
      rw [← Nat.le_antisymm hindex hlen]
      rfl
    exact ⟨_, rfl, hfits, heq.symm ▸ .refl k⟩
  | cons inst rest ih =>
    have hinst : block.insts[k.place.index]? = some inst := by
      have := congrArg (·[0]?) hrest
      simpa using this
    have hrest' : block.insts.drop (k.place.index + 1) = rest := by
      have := congrArg List.tail hrest
      simpa using this
    have hlt := (List.getElem?_eq_some_iff.1 hinst).1
    -- past a harmless instruction the induction hypothesis speaks about the rest of the block
    have hpast {bits : Overwritten} (hread : ¬ Reads q w c inst) (hfree : ¬ Frees w inst)
        (henter : ∀ f, ¬ Enters w inst f)
        (hwrite : overwrittenBy w inst.op k.bits = (bits, false)) :
        ∃ leg, follow q w k.place.context (k.place.index + 1) rest bits = .ok leg ∧
          LegSpec q w k block leg := by
      have hfits' := hfits.overwrittenBy inst.op
      rw [hwrite] at hfits'
      obtain ⟨leg, hleg, hspec⟩ := ih (k := k.next bits) (hk.goto _ _) hlt hfits' hrest'
      exact ⟨leg, hleg, .of_next (hk.follows_next hinst hread hfree henter hwrite) hspec⟩
    by_cases hcall : ∃ site, inst.op = .call site
    · obtain ⟨site, hop⟩ := hcall
      simp only [follow, hop]
      cases href : site.refs.mayReference w.target.object with
      | false =>
        simp only [Bool.false_eq_true, if_false]
        refine hpast ?_ (not_frees hop (by simp)) ?_ (by rw [hop]; rfl)
        · rintro (⟨hop', -, -⟩ | ⟨hop', -, -⟩ | ⟨hop', -⟩ | ⟨hop', -⟩ | ⟨hop', -, href'⟩) <;>
            cases hop.symm.trans hop'
          exact absurd href' (by simp [href])
        · rintro f ⟨site', hop', -, href'⟩
          cases hop.symm.trans hop'
          exact absurd href' (by simp [href])
      | true =>
        simp only [if_true]
        cases hcallee : site.callee with
        | none => exact ⟨.observed, rfl, 0, .here (.read hk hinst (.call hop hcallee href))⟩
        | some f =>
          exact ⟨_, rfl, _, inst, rfl, hinst, ⟨site, hop, hcallee, href⟩, Nat.le_refl _, hfits,
            .refl k⟩
    · have hcall : ∀ site, inst.op ≠ .call site := fun site hop => hcall ⟨site, hop⟩
      have henter (f : ContextId) : ¬ Enters w inst f := fun ⟨site, hop, _⟩ => hcall site hop
      obtain ⟨visit, hvisit, hspec⟩ := visitInstr_spec (w := w) hk.found hcall k.bits
      have hfollow : follow q w k.place.context k.place.index (inst :: rest) k.bits =
          (visitInstr q w k.place.context inst k.bits >>= fun visit =>
            match visit with
            | .goOn bits => follow q w k.place.context (k.place.index + 1) rest bits
            | .stop => return .stop
            | .observed => return .observed) := by
        rw [follow]
        cases hop : inst.op with
        | call site => exact absurd hop (hcall site)
        | _ => rfl
      rw [hfollow, hvisit, ok_bind]
      cases visit with
      | goOn bits => exact hpast hspec.1 hspec.2.1 henter hspec.2.2
      | stop =>
        refine ⟨.stop, rfl, fun n hleak => ?_⟩
        obtain ⟨bits, m, hfree, hwrite, -⟩ := hk.leaks_next hinst hspec.1 henter hleak
        rcases hspec.2 with hfree' | hcomplete
        · exact hfree hfree'
        · rw [hwrite] at hcomplete
          cases hcomplete
      | observed => exact ⟨.observed, rfl, 0, .here (.read hk hinst hspec)⟩

/-! ## Out of a block -/

/-- The cursors are where the paths from `k` go on, and nothing is read at `k`. -/
structure Sprouts (q : Setting) (w : Write) (k : Cursor) (cursors : List Cursor) : Prop where
  moves : ∀ k', Moves q w k k' ↔ k' ∈ cursors
  quiet : ¬ Observes q w k

/-- Where an edge from `k` to `target` leads. -/
inductive Leads (q : Setting) (k : Cursor) (c : Context) (target : BlockId) :
    Option (ContextId × BlockId) → Prop
  | edge {owner} (hedge : ∀ loop index, c.kind ≠ .iteration loop index target k.place.block)
      (howner : q.layout.owner? (k.function q) target = some owner) :
      Leads q k c target (some (owner, target))
  | again {loop index parent following d}
      (hkind : c.kind = .iteration loop index target k.place.block) (hparent : c.parent = some parent)
      (hnext : iterationAfter? q.layout parent loop index = some following)
      (hd : q.program.contexts.get? following = some d) :
      Leads q k c target (some (following, d.entry))
  | beyond {loop index parent}
      (hkind : c.kind = .iteration loop index target k.place.block) (hparent : c.parent = some parent)
      (hnext : iterationAfter? q.layout parent loop index = none) : Leads q k c target none

theorem Leads.unique {target : BlockId} {a b : Option (ContextId × BlockId)}
    (ha : Leads q k c target a) (hb : Leads q k c target b) : a = b := by
  cases ha <;> cases hb <;> simp_all

theorem successor_spec (hq : Searchable q) (hk : Stands q k c block) {target : BlockId}
    (htarget : target ∈ block.liveSuccs) :
    ∃ next, successor q k.place.context k.place.block target = .ok next ∧
      Leads q k c target next := by
  obtain ⟨s, hs, rfl⟩ := List.mem_map.1 htarget
  obtain ⟨owner, howner⟩ := hq.linked.edge_owner hk.found hk.holds (List.mem_filter.1 hs).1
  rw [successor, Program.context_eq_ok.2 hk.found, ok_bind]
  simp only [howner]
  cases hkind : c.kind with
  | function f name callers => exact ⟨_, rfl, .edge (by simp [hkind]) howner⟩
  | iteration loop index header latch =>
    cases hparent : c.parent with
    | none =>
      have hfun := hq.linked.top hk.found hparent
      simp [Context.isFunction, hkind] at hfun
    | some parent =>
      simp only
      split
      · next hback =>
        obtain ⟨rfl, hheader⟩ := hback
        rw [← hheader] at hkind
        cases hnext : iterationAfter? q.layout parent loop index with
        | none => exact ⟨none, rfl, .beyond hkind hparent hnext⟩
        | some following =>
          obtain ⟨d, hd⟩ := (hk.again hq hkind hparent hnext).1
          refine ⟨_, ?_, .again hkind hparent hnext hd⟩
          simp [Program.context_eq_ok.2 hd]
      · next hback =>
        refine ⟨_, rfl, .edge (fun loop' index' h => ?_) howner⟩
        cases hkind.symm.trans h
        exact hback ⟨rfl, rfl⟩

theorem branchTo_spec (hq : Searchable q) (hk : Stands q k c block) (bits : Overwritten)
    {targets : List BlockId} (htargets : ∀ target ∈ targets, target ∈ block.liveSuccs) :
    (∃ cursors, branchTo q k bits targets = .ok (some cursors) ∧
      (∀ target ∈ targets, ¬ Leads q k c target none) ∧
      ∀ k', k' ∈ cursors ↔ ∃ target ∈ targets, ∃ next b, Leads q k c target (some (next, b)) ∧
        k' = ⟨⟨next, b, 0⟩, k.stack, bits⟩) ∨
    branchTo q k bits targets = .ok none ∧ ∃ target ∈ targets, Leads q k c target none := by
  induction targets with
  | nil => exact .inl ⟨[], rfl, by simp, by simp⟩
  | cons target targets ih =>
    rw [List.forall_mem_cons] at htargets
    obtain ⟨next, hnext, hleads⟩ := successor_spec hq hk htargets.1
    rw [branchTo, hnext, ok_bind]
    cases next with
    | none => exact .inr ⟨rfl, target, List.mem_cons_self, hleads⟩
    | some next =>
      obtain ⟨next, b⟩ := next
      have hhead : ¬ Leads q k c target none := fun h => by cases hleads.unique h
      simp only
      rcases ih htargets.2 with ⟨cursors, hrest, hquiet, hmem⟩ | ⟨hrest, target', htarget', h⟩
      · rw [hrest, ok_bind]
        refine .inl ⟨_, rfl, List.forall_mem_cons.2 ⟨hhead, hquiet⟩, fun k' => ?_⟩
        rw [List.mem_cons, hmem]
        constructor
        · rintro (rfl | ⟨target', htarget', h⟩)
          · exact ⟨target, List.mem_cons_self, next, b, hleads, rfl⟩
          · exact ⟨target', List.mem_cons_of_mem _ htarget', h⟩
        · rintro ⟨target', htarget', next', b', h, rfl⟩
          rcases List.mem_cons.1 htarget' with rfl | htarget'
          · cases hleads.unique h
            exact .inl rfl
          · exact .inr ⟨target', htarget', next', b', h, rfl⟩
      · rw [hrest, ok_bind]
        exact .inr ⟨rfl, target', List.mem_cons_of_mem _ htarget', h⟩

theorem Leaves.unique {t t' : Terminator} {c' : Context} {block' : Block}
    (h : Leaves q w k c block t) (h' : Leaves q w k c' block' t') :
    c' = c ∧ block' = block ∧ t' = t := by
  obtain ⟨rfl, rfl⟩ := h.stands.unique h'.stands
  exact ⟨rfl, rfl, h'.terminator.symm.trans h.terminator⟩

/-- At the end of a block no instruction is left. -/
theorem Leaves.no_instr {t : Terminator} {c' : Context} {block' : Block}
    (h : Leaves q w k c block t) (hk : Stands q k c' block') :
    block'.insts[k.place.index]? = none := by
  obtain ⟨rfl, rfl⟩ := h.stands.unique hk
  exact List.getElem?_eq_none h.finished

theorem returnFrom_spec (hq : Searchable q) (hk : Leaves q w k c block .ret) :
    (∃ cursors, returnFrom q (k.function q) k.stack k.bits = .ok (some cursors) ∧
      Sprouts q w k cursors) ∨
    returnFrom q (k.function q) k.stack k.bits = .ok none ∧ Observes q w k := by
  unfold returnFrom
  cases hstack : k.stack with
  | cons place stack =>
    refine .inl ⟨_, rfl, fun k' => ?_, fun hobs => ?_⟩
    · rw [List.mem_singleton]
      refine ⟨fun hmove => ?_, fun h => h ▸ .resume hk hstack⟩
      cases hmove with
      | past hk' hinst | enter hk' hinst => simp [hk.no_instr hk'] at hinst
      | resume _ hstack' =>
        cases hstack.symm.trans hstack'
        rfl
      | toCaller _ hstack' => cases hstack.symm.trans hstack'
      | branch hk' | again hk' => cases (hk.unique hk').2.2
    · cases hobs with
      | read hk' hinst => simp [hk.no_instr hk'] at hinst
      | escape _ hstack' => cases hstack.symm.trans hstack'
      | beyond hk' => cases (hk.unique hk').2.2
  | nil =>
    obtain ⟨d, hd, -⟩ := hq.linked.functionRoot_exists hk.stands.found
    simp only [Program.context_eq_ok.2 (show q.program.contexts.get? (k.function q) = _ from hd),
      ok_bind]
    cases hcallers : d.callers with
    | nil => exact .inr ⟨rfl, .escape hk hstack hd hcallers⟩
    | cons i callers =>
      have hplace (i' : InstId) (hi' : i' ∈ i :: callers) :
          ∃ place, q.layout.place i' = .ok place := by
        obtain ⟨place, hplace⟩ := hq.callers hd (hcallers ▸ hi')
        exact ⟨place, by rw [Layout.place, hplace]⟩
      obtain ⟨places, hplaces, hmem⟩ := mapM_eq_ok hplace
      simp only [hplaces, ok_bind]
      refine .inl ⟨_, rfl, fun k' => ?_, fun hobs => ?_⟩
      · rw [List.mem_map]
        constructor
        · intro hmove
          cases hmove with
          | past hk' hinst | enter hk' hinst => simp [hk.no_instr hk'] at hinst
          | resume _ hstack' => cases hstack.symm.trans hstack'
          | @toCaller _ _ d' i' place hk' _ hroot hi' hplace' =>
            cases hd.symm.trans hroot
            refine ⟨place, (hmem place).2 ⟨i', hcallers ▸ hi', ?_⟩, rfl⟩
            rw [Layout.place, hplace']
          | branch hk' | again hk' => cases (hk.unique hk').2.2
        · rintro ⟨place, hplace, rfl⟩
          obtain ⟨i', hi', hplace⟩ := (hmem place).1 hplace
          refine .toCaller hk hstack hd (hcallers ▸ hi') ?_
          rw [Layout.place] at hplace
          cases h : q.layout.places.get? i' with
          | none => simp [h] at hplace
          | some place' =>
            simp only [h, Except.ok.injEq] at hplace
            rw [hplace]
      · cases hobs with
        | read hk' hinst => simp [hk.no_instr hk'] at hinst
        | escape _ _ hroot hnone =>
          cases hd.symm.trans hroot
          cases hcallers.symm.trans hnone
        | beyond hk' => cases (hk.unique hk').2.2

theorem branch_spec (hq : Searchable q) (hk : Leaves q w k c block .branch) :
    (∃ cursors, branchTo q k k.bits block.liveSuccs = .ok (some cursors) ∧
      Sprouts q w k cursors) ∨
    branchTo q k k.bits block.liveSuccs = .ok none ∧ Observes q w k := by
  rcases branchTo_spec hq hk.stands k.bits (fun _ h => h) with
    ⟨cursors, hcursors, hquiet, hmem⟩ | ⟨hnone, target, htarget, hleads⟩
  · refine .inl ⟨cursors, hcursors, fun k' => ?_, fun hobs => ?_⟩
    · rw [hmem]
      constructor
      · intro hmove
        cases hmove with
        | past hk' hinst | enter hk' hinst => simp [hk.no_instr hk'] at hinst
        | resume hk' | toCaller hk' => cases (hk.unique hk').2.2
        | branch hk' htarget hedge howner =>
          obtain ⟨rfl, rfl, -⟩ := hk.unique hk'
          exact ⟨_, htarget, _, _, .edge hedge howner, rfl⟩
        | again hk' htarget hkind hparent hnext hd =>
          obtain ⟨rfl, rfl, -⟩ := hk.unique hk'
          exact ⟨_, htarget, _, _, .again hkind hparent hnext hd, rfl⟩
      · rintro ⟨target, htarget, next, b, hleads, rfl⟩
        cases hleads with
        | edge hedge howner => exact .branch hk htarget hedge howner
        | again hkind hparent hnext hd => exact .again hk htarget hkind hparent hnext hd
    · cases hobs with
      | read hk' hinst => simp [hk.no_instr hk'] at hinst
      | escape hk' => cases (hk.unique hk').2.2
      | beyond hk' htarget hkind hparent hnext =>
        obtain ⟨rfl, rfl, -⟩ := hk.unique hk'
        exact hquiet _ htarget (.beyond hkind hparent hnext)
  · cases hleads with
    | beyond hkind hparent hnext =>
      exact .inr ⟨hnone, .beyond hk htarget hkind hparent hnext⟩

/-- Where nothing outlives the end of a block, no path goes on. -/
theorem sprouts_nil (hk : Stands q k c block) (hfinished : block.insts.length ≤ k.place.index)
    (hret : block.terminator = .ret → w.kind = .stack (k.function q))
    (hbranch : block.terminator = .branch → block.liveSuccs = []) : Sprouts q w k [] := by
  have hinst : block.insts[k.place.index]? = none := List.getElem?_eq_none hfinished
  have hout {c' block'} (h : Leaves q w k c' block' .ret) : False := by
    obtain ⟨rfl, rfl⟩ := hk.unique h.stands
    exact h.outlives (by simp) (hret h.terminator)
  have hstay {c' block' target} (h : Leaves q w k c' block' .branch)
      (htarget : target ∈ block'.liveSuccs) : False := by
    obtain ⟨rfl, rfl⟩ := hk.unique h.stands
    simp [hbranch h.terminator] at htarget
  refine ⟨fun k' => ?_, fun hobs => ?_⟩
  · refine iff_of_false (fun hmove => ?_) List.not_mem_nil
    cases hmove with
    | past hk' hinst' | enter hk' hinst' =>
      obtain ⟨rfl, rfl⟩ := hk.unique hk'
      simp [hinst] at hinst'
    | resume hk' | toCaller hk' => exact hout hk'
    | branch hk' htarget | again hk' htarget => exact hstay hk' htarget
  · cases hobs with
    | read hk' hinst' =>
      obtain ⟨rfl, rfl⟩ := hk.unique hk'
      simp [hinst] at hinst'
    | escape hk' => exact hout hk'
    | beyond hk' htarget => exact hstay hk' htarget

theorem branchTo_goto (index : Nat) (bits bits' : Overwritten) (targets : List BlockId) :
    branchTo q (k.goto index bits') bits targets = branchTo q k bits targets := by
  induction targets with
  | nil => rfl
  | cons target targets ih =>
    rw [branchTo, branchTo, ih]
    rfl

theorem leave_goto (index : Nat) (bits bits' : Overwritten) :
    leave q w (k.goto index bits') block bits = leave q w k block bits := by
  unfold leave
  rw [branchTo_goto]
  rfl

theorem leave_spec (hq : Searchable q) (hk : Stands q k c block)
    (hfinished : block.insts.length ≤ k.place.index) :
    (∃ cursors, leave q w k block k.bits = .ok (some cursors) ∧ Sprouts q w k cursors) ∨
      leave q w k block k.bits = .ok none ∧ Observes q w k := by
  unfold leave
  simp only [Bool.and_eq_true, Bool.or_eq_true, decide_eq_true_eq, List.isEmpty_iff]
  split
  · next hends =>
    obtain ⟨hexits, hkind⟩ := hends
    exact .inl ⟨[], rfl, sprouts_nil hk hfinished (fun _ => hkind)
      fun hterm => hexits.resolve_left (fun hne => hne hterm)⟩
  · next hends =>
    cases hterm : block.terminator with
    | unreachable =>
      exact .inl ⟨[], rfl, sprouts_nil hk hfinished (by simp [hterm]) (by simp [hterm])⟩
    | ret =>
      refine returnFrom_spec hq ⟨hk, hfinished, hterm, fun _ hkind => hends ⟨.inl ?_, hkind⟩⟩
      simp [hterm]
    | branch => exact branch_spec hq ⟨hk, hfinished, hterm, fun hne => absurd rfl hne⟩

/-! ## One step of the search -/

/-- How a cursor that leaves its block, or enters a call, is followed up. -/
inductive Turns (q : Setting) (k k' : Cursor) : Prop
  /-- At the start of a block. -/
  | start (hindex : k'.place.index = 0)
  /-- After the call that was entered last. -/
  | resume (hstack : k.stack = k'.place :: k'.stack)
  /-- In a caller. -/
  | toCaller (hstack : k.stack = []) (hstack' : k'.stack = [])
      (hreturn : q.program.ReturnsTo q.layout (k.function q) (k'.function q))

/-- What the search puts in the place of `k`. -/
structure Expands (q : Setting) (w : Write) (k : Cursor) (cursors : List Cursor) : Prop where
  path : ∀ k' ∈ cursors, ReflTransGen (Moves q w) k k'
  leaks : ∀ {n}, Leaks q w n k → ∃ m < n, ∃ k' ∈ cursors, Leaks q w m k'
  turns : ∀ k' ∈ cursors, Turns q k k'

theorem Follows.expands {cursors : List Cursor} {index : Nat}
    (h : Follows q w k (k.goto index bits)) (hsprouts : Sprouts q w (k.goto index bits) cursors)
    (hturns : ∀ k' ∈ cursors, Turns q k k') : Expands q w k cursors := by
  refine ⟨fun k' hk' => h.path.tail ((hsprouts.moves k').2 hk'), fun hleak => ?_, hturns⟩
  obtain ⟨m, hm, hleak⟩ := h.leaks hleak
  cases hleak with
  | here hobs => exact absurd hobs hsprouts.quiet
  | step hmove hleak => exact ⟨_, hm, _, (hsprouts.moves _).1 hmove, hleak⟩

theorem Stands.turns (hq : Searchable q) (hk : Stands q k c block)
    (hfinished : block.insts.length ≤ k.place.index) (hmove : Moves q w k k') : Turns q k k' := by
  cases hmove with
  | past hk' hinst | enter hk' hinst =>
    obtain ⟨rfl, rfl⟩ := hk.unique hk'
    simp [List.getElem?_eq_none hfinished] at hinst
  | resume _ hstack => exact .resume hstack
  | toCaller _ hstack hroot hi hplace =>
    obtain ⟨c', block', inst, hc', hblock', hinst, rfl⟩ := hq.linked.place_spec hplace
    refine .toCaller hstack rfl ⟨_, inst, hroot, hi, ?_⟩
    exact ⟨_, c', _, block', hc', rfl, hblock', List.mem_of_getElem? hinst⟩
  | branch | again => exact .start rfl

/-- A call that may read the write is followed into the callee and nowhere else. -/
theorem Stands.sprouts_enter (hk : Stands q k c block)
    (hinst : block.insts[k.place.index]? = some inst) {f : ContextId} (hcall : Enters w inst f)
    {d : Context} (hd : q.program.contexts.get? f = some d) :
    Sprouts q w k [⟨⟨f, d.entry, 0⟩, (k.next k.bits).place :: k.stack, k.bits⟩] := by
  have hlt := (List.getElem?_eq_some_iff.1 hinst).1
  obtain ⟨site, hop, hcallee, href⟩ := hcall
  have hfinish {t c' block'} (h : Leaves q w k c' block' t) : False := by
    obtain ⟨rfl, rfl⟩ := hk.unique h.stands
    exact absurd h.finished (Nat.not_le.2 hlt)
  refine ⟨fun k' => ?_, fun hobs => ?_⟩
  · rw [List.mem_singleton]
    refine ⟨fun hmove => ?_, fun h => h ▸ .enter hk hinst ⟨site, hop, hcallee, href⟩ hd⟩
    cases hmove with
    | past hk' hinst' _ _ henter =>
      obtain ⟨rfl, rfl⟩ := hk.unique hk'
      cases hinst.symm.trans hinst'
      exact absurd ⟨site, hop, hcallee, href⟩ (henter f)
    | enter hk' hinst' hcall' hd' =>
      obtain ⟨rfl, rfl⟩ := hk.unique hk'
      cases hinst.symm.trans hinst'
      obtain ⟨site', hop', hcallee', -⟩ := hcall'
      cases hop.symm.trans hop'
      cases hcallee.symm.trans hcallee'
      cases hd.symm.trans hd'
      rfl
    | resume hk' | toCaller hk' | branch hk' | again hk' => exact (hfinish hk').elim
  · cases hk.reads hinst hobs with
    | call hop' hcallee' =>
      cases hop.symm.trans hop'
      cases hcallee.symm.trans hcallee'
    | load hop' | memcpy hop' | atomic hop' | realloc hop' => cases hop.symm.trans hop'

/-- A step never fails: it follows up the cursor, or it finds the write read. -/
theorem advance_spec (hq : Searchable q) (hk : Valid q w k) (s : State) :
    (∃ cursors, s.advance q w k = .ok (.more { s with work := cursors ++ s.work }) ∧
      Expands q w k cursors) ∨
    s.advance q w k = .ok (.done false) ∧ ∃ n, Leaks q w n k := by
  obtain ⟨c, block, hstands, hindex⟩ := hk.stands
  have hblock : q.program.block k.place.context k.place.block = .ok block := by
    rw [Program.block, Program.context_eq_ok.2 hstands.found, ok_bind,
      Context.block_eq_ok.2 hstands.holds]
  obtain ⟨leg, hleg, hspec⟩ := follow_spec hstands hindex hk.bits
  rw [State.advance, hblock, ok_bind, hleg, ok_bind]
  cases leg with
  | stop =>
    refine .inl ⟨[], rfl, by simp, fun hleak => absurd hleak (hspec _), by simp⟩
  | observed => exact .inr ⟨rfl, hspec⟩
  | entering f index bits =>
    obtain ⟨i, inst, rfl, hinst, hcall, -, -, hfollows⟩ := hspec
    obtain ⟨site, hop, hcallee, -⟩ := id hcall
    obtain ⟨d, hd, -⟩ := hq.linked.callee hstands.found hstands.holds
      (List.mem_of_getElem? hinst) (by rw [hop]; exact hcallee)
    simp only [Program.context_eq_ok.2 hd, ok_bind]
    have hsprouts := (hstands.goto i bits).sprouts_enter hinst hcall hd
    refine .inl ⟨_, rfl, hfollows.expands hsprouts ?_⟩
    intro k' hk'
    exact .start (by rw [List.mem_singleton.1 hk'])
  | finished bits =>
    obtain ⟨-, hfollows⟩ := hspec
    have hend := hstands.goto block.insts.length bits
    rcases leave_spec hq hend (Nat.le_refl _) with ⟨cursors, hcursors, hsprouts⟩ | ⟨hnone, hobs⟩
    · rw [leave_goto] at hcursors
      simp only [show leave q w k block bits = _ from hcursors, ok_bind]
      have hrev : Sprouts q w (k.goto block.insts.length bits) cursors.reverse :=
        ⟨fun k' => by rw [List.mem_reverse, hsprouts.moves], hsprouts.quiet⟩
      refine .inl ⟨_, rfl, hfollows.expands hrev fun k' hk' => ?_⟩
      have hturns := hend.turns hq (Nat.le_refl _) ((hrev.moves k').2 hk')
      cases hturns with
      | start hindex => exact .start hindex
      | resume hstack => exact .resume hstack
      | toCaller hstack hstack' hreturn => exact .toCaller hstack hstack' hreturn
    · rw [leave_goto] at hnone
      simp only [show leave q w k block bits = _ from hnone, ok_bind]
      exact .inr ⟨rfl, exists_leaks_iff.2 ⟨_, hfollows.path, hobs⟩⟩

end ByteTrust.DeadStore
