import ByteTrust.DeadStore.Search
import ByteTrust.Proofs.ByteSet
import Mathlib.Logic.Relation

/-!
# Paths of a search

The search for a reader follows paths. Here these are followed one instruction at a time, every path
for itself, and nothing is remembered from one path to the next: `Moves` says how a path goes on, and
`Observes` where the write may be read. The paths from a cursor with fewer bytes overwritten include
those from one with more (`Leaks.mono`).
-/

namespace ByteTrust.DeadStore

open Relation

/-! ## One instruction -/

/-- An instruction of `c` may read the write. -/
inductive Reads (q : Setting) (w : Write) (c : Context) (inst : Instr) : Prop
  /-- A load, unless it is replaced by its known value. -/
  | load {ptr size ordering result} (hop : inst.op = .load ptr size ordering result)
      (halias : w.mayAlias ptr (some size) = true)
      (hkept : ¬ (result.isFullyKnown = true ∧ c.materialized = true ∧ inst.id ∉ q.checked))
  /-- A copy, unless it is dead. -/
  | memcpy {dest src len copied} (hop : inst.op = .memcpy dest src len copied)
      (halias : w.mayAlias src len = true) (hlive : q.verdicts.get? inst.id ≠ some .dead)
  | atomic {ptr size ordering result} (hop : inst.op = .atomic ptr size ordering result)
      (halias : w.mayAlias ptr (some size) = true)
  | realloc {object source len copied} (hop : inst.op = .realloc object source len copied)
      (halias : w.mayAlias source len = true)
  /-- A call that is not followed. -/
  | call {site} (hop : inst.op = .call site) (hcallee : site.callee = none)
      (href : site.refs.mayReference w.target.object = true)

/-- An instruction frees the object of the write. -/
def Frees (w : Write) (inst : Instr) : Prop :=
  w.kind = .heap ∧ ∃ ptr target, inst.op = .free ptr ∧ ptr.unique? = some target ∧
    target.object = w.target.object

/-- An instruction calls `f`, which may read the write. -/
def Enters (w : Write) (inst : Instr) (f : ContextId) : Prop :=
  ∃ site, inst.op = .call site ∧ site.callee = some f ∧
    site.refs.mayReference w.target.object = true

/-- Where an operation writes, and how many bytes. -/
def written? : Operation → Option (PointerValue × Nat)
  | .store ptr size => some (ptr, size)
  | .memset dest (some len) | .memcpy dest _ (some len) _ | .readFile dest (some len) =>
    some (dest, len)
  | _ => none

/-- The bytes that are overwritten after an operation, and whether these are all. -/
def overwrittenBy (w : Write) (op : Operation) (bits : Overwritten) : Overwritten × Bool :=
  match written? op with
  | some (dest, len) => w.overwrite dest len bits
  | none => (bits, false)

/-! ## Paths -/

/-- The cursor stands in `block`, a block of `c`. -/
structure Stands (q : Setting) (k : Cursor) (c : Context) (block : Block) : Prop where
  found : q.program.contexts.get? k.place.context = some c
  holds : c.blocks.get? k.place.block = some block

/-- The cursor after its next instruction. -/
def Cursor.next (k : Cursor) (bits : Overwritten) : Cursor :=
  { k with place := { k.place with index := k.place.index + 1 }, bits := bits }

/-- The function that the cursor is in. -/
def Cursor.function (q : Setting) (k : Cursor) : ContextId :=
  q.layout.functionRoot k.place.context

/-- The cursor has come to the end of its block, and the object of the write outlives it. -/
structure Leaves (q : Setting) (w : Write) (k : Cursor) (c : Context) (block : Block)
    (t : Terminator) : Prop where
  stands : Stands q k c block
  finished : block.insts.length ≤ k.place.index
  terminator : block.terminator = t
  outlives : t ≠ .branch → w.kind ≠ .stack (k.function q)

/-- How a path goes on, as long as the write is not overwritten altogether and its object is
alive. -/
inductive Moves (q : Setting) (w : Write) (k : Cursor) : Cursor → Prop
  /-- Past an instruction. -/
  | past {c block inst bits} (hk : Stands q k c block)
      (hinst : block.insts[k.place.index]? = some inst) (hread : ¬ Reads q w c inst)
      (hfree : ¬ Frees w inst) (henter : ∀ f, ¬ Enters w inst f)
      (hwrite : overwrittenBy w inst.op k.bits = (bits, false)) : Moves q w k (k.next bits)
  /-- Into a callee. -/
  | enter {c block inst f d} (hk : Stands q k c block)
      (hinst : block.insts[k.place.index]? = some inst) (hcall : Enters w inst f)
      (hcallee : q.program.contexts.get? f = some d) :
      Moves q w k ⟨⟨f, d.entry, 0⟩, (k.next k.bits).place :: k.stack, k.bits⟩
  /-- Back to the call that was entered last. -/
  | resume {c block place stack} (hk : Leaves q w k c block .ret) (hstack : k.stack = place :: stack) :
      Moves q w k ⟨place, stack, k.bits⟩
  /-- Back to any caller. -/
  | toCaller {c block d i place} (hk : Leaves q w k c block .ret) (hstack : k.stack = [])
      (hroot : q.program.contexts.get? (k.function q) = some d) (hi : i ∈ d.callers)
      (hplace : q.layout.places.get? i = some place) :
      Moves q w k ⟨{ place with index := place.index + 1 }, [], k.bits⟩
  /-- Along an edge. -/
  | branch {c block target owner} (hk : Leaves q w k c block .branch)
      (htarget : target ∈ block.liveSuccs)
      (hedge : ∀ loop index, c.kind ≠ .iteration loop index target k.place.block)
      (howner : q.layout.owner? (k.function q) target = some owner) :
      Moves q w k ⟨⟨owner, target, 0⟩, k.stack, k.bits⟩
  /-- From one iteration to the next. -/
  | again {c block target loop index parent following d} (hk : Leaves q w k c block .branch)
      (htarget : target ∈ block.liveSuccs)
      (hkind : c.kind = .iteration loop index target k.place.block) (hparent : c.parent = some parent)
      (hnext : iterationAfter? q.layout parent loop index = some following)
      (hd : q.program.contexts.get? following = some d) :
      Moves q w k ⟨⟨following, d.entry, 0⟩, k.stack, k.bits⟩

/-- The write may be read at the cursor, or it gets out of sight. -/
inductive Observes (q : Setting) (w : Write) (k : Cursor) : Prop
  | read {c block inst} (hk : Stands q k c block)
      (hinst : block.insts[k.place.index]? = some inst) (hread : Reads q w c inst)
  /-- The return of a function without callers. -/
  | escape {c block d} (hk : Leaves q w k c block .ret) (hstack : k.stack = [])
      (hroot : q.program.contexts.get? (k.function q) = some d) (hcallers : d.callers = [])
  /-- A back edge after the last iteration. -/
  | beyond {c block target loop index parent} (hk : Leaves q w k c block .branch)
      (htarget : target ∈ block.liveSuccs)
      (hkind : c.kind = .iteration loop index target k.place.block) (hparent : c.parent = some parent)
      (hnext : iterationAfter? q.layout parent loop index = none)

/-- A path of `n` steps leads to where the write may be read. -/
inductive Leaks (q : Setting) (w : Write) : Nat → Cursor → Prop
  | here {k} (h : Observes q w k) : Leaks q w 0 k
  | step {k k' n} (hmove : Moves q w k k') (h : Leaks q w n k') : Leaks q w (n + 1) k

variable {q : Setting} {w : Write} {k k' : Cursor} {c : Context} {block : Block} {inst : Instr}
  {n : Nat}

theorem exists_leaks_iff :
    (∃ n, Leaks q w n k) ↔ ∃ k', ReflTransGen (Moves q w) k k' ∧ Observes q w k' := by
  constructor
  · rintro ⟨n, h⟩
    induction h with
    | here h => exact ⟨_, .refl, h⟩
    | step hmove _ ih =>
      obtain ⟨k', hpath, hk'⟩ := ih
      exact ⟨k', .head hmove hpath, hk'⟩
  · rintro ⟨k', hpath, hk'⟩
    induction hpath using ReflTransGen.head_induction_on with
    | refl => exact ⟨0, .here hk'⟩
    | head hmove _ ih =>
      obtain ⟨n, hn⟩ := ih
      exact ⟨n + 1, .step hmove hn⟩

/-! ## Overwritten bytes -/

/-- A later write misses the bytes of `w`, whatever is overwritten, or adds a range to them. -/
theorem Write.overwrite_cases (w : Write) (dest : PointerValue) (len : Nat) :
    (∀ bits, w.overwrite dest len bits = (bits, false)) ∨
      ∃ size ptr, w.size = some size ∧ ∀ s : ByteSet, w.overwrite dest len (some s) =
        (some (s.insert (w.overlap size ptr len)),
          isComplete size (s.insert (w.overlap size ptr len))) := by
  cases hsize : w.size with
  | none => exact .inl fun bits => by simp [overwrite, hsize]
  | some size =>
    cases hptr : dest.unique? with
    | none => exact .inl fun bits => by simp [overwrite, hptr]
    | some ptr =>
      by_cases hobj : ptr.object = w.target.object
      · exact .inr ⟨size, ptr, rfl, fun s => by simp [overwrite, hsize, hptr, hobj]⟩
      · refine .inl fun bits => ?_
        cases bits with
        | none => rfl
        | some s => simp [overwrite, hsize, hptr, hobj]

/-- The overwritten bytes are kept in canonical form and lie within the write. -/
inductive Fits (w : Write) : Overwritten → Prop
  | none : Fits w none
  | some {s : ByteSet} {size : Nat} (hcan : s.Canonical) (hsize : w.size = some size)
      (hlt : ∀ b ∈ s, b < size) : Fits w (some s)

theorem fits_fresh (w : Write) : Fits w w.fresh := by
  unfold Write.fresh
  cases hsize : w.size with
  | none => exact .none
  | some size =>
    simp only
    split
    · exact .some ByteSet.canonical_empty hsize fun b hb => absurd hb (ByteSet.not_mem_empty b)
    · exact .none

theorem Fits.overwrittenBy {bits : Overwritten} (h : Fits w bits) (op : Operation) :
    Fits w (overwrittenBy w op bits).1 := by
  unfold DeadStore.overwrittenBy
  split
  · next dest len _ =>
    rcases w.overwrite_cases dest len with hmiss | ⟨size, ptr, hsize, hhit⟩
    · rw [hmiss]
      exact h
    · cases h with
      | none => exact .none
      | some hcan hsize' hlt =>
        cases hsize.symm.trans hsize'
        rw [hhit]
        refine .some (hcan.insert _) hsize fun b hb => ?_
        rcases hcan.mem_insert.1 hb with hb | hb
        · exact hlt b hb
        · have := (ByteRange.mem_def.1 hb).2
          simp only [Write.overlap] at this
          omega
  · exact h

/-- No more bytes are overwritten in `a` than in `b`. -/
inductive Overwritten.Le : Overwritten → Overwritten → Prop
  | none : Le none none
  | some {a b : ByteSet} (ha : a.Canonical) (hb : b.Canonical) (h : ∀ x ∈ a, x ∈ b) :
      Le (some a) (some b)

theorem Fits.le_of_isCoveredBy {a b : Overwritten} (ha : Fits w a) (hb : Fits w b)
    (h : isCoveredBy a b = true) : Overwritten.Le a b := by
  cases ha with
  | none =>
    cases hb with
    | none => exact .none
    | some => cases h
  | some ha =>
    cases hb with
    | none => cases h
    | some hb => exact .some ha hb (hb.subset_iff.1 h)

theorem Fits.isCoveredBy_self {a : Overwritten} (ha : Fits w a) : isCoveredBy a a = true := by
  cases ha with
  | none => rfl
  | some ha => exact ha.subset_iff.2 fun _ h => h

theorem isComplete_mono {size : Nat} {a b : ByteSet} (ha : a.Canonical) (hb : b.Canonical)
    (h : ∀ x ∈ a, x ∈ b) (hcomplete : isComplete size a = true) : isComplete size b = true :=
  hb.covers_iff.2 fun x hx => h x (ha.covers_iff.1 hcomplete x hx)

/-- An operation that does not complete `b` does not complete less than `b`. -/
theorem Overwritten.Le.overwrittenBy {a b b' : Overwritten} {op : Operation} (h : Le a b)
    (hb : overwrittenBy w op b = (b', false)) :
    ∃ a', overwrittenBy w op a = (a', false) ∧ Le a' b' := by
  unfold DeadStore.overwrittenBy at hb ⊢
  split at hb
  · next dest len _ =>
    rcases w.overwrite_cases dest len with hmiss | ⟨size, ptr, hsize, hhit⟩
    · rw [hmiss] at hb ⊢
      cases hb
      exact ⟨a, rfl, h⟩
    · cases h with
      | none =>
        cases hb
        exact ⟨_, rfl, .none⟩
      | @some a b hacan hbcan hsub =>
        rw [hhit, Prod.mk.injEq] at hb
        obtain ⟨rfl, hb⟩ := hb
        have hacan' := hacan.insert (w.overlap size ptr len)
        have hbcan' := hbcan.insert (w.overlap size ptr len)
        have hsub' : ∀ x ∈ a.insert (w.overlap size ptr len), x ∈ b.insert (w.overlap size ptr len) :=
          fun x hx => hbcan.mem_insert.2 ((hacan.mem_insert.1 hx).imp_left (hsub x))
        refine ⟨_, ?_, .some hacan' hbcan' hsub'⟩
        rw [hhit, Prod.mk.injEq]
        refine ⟨rfl, Bool.eq_false_iff.2 fun hcomplete => ?_⟩
        rw [isComplete_mono hacan' hbcan' hsub' hcomplete] at hb
        cases hb
  · cases hb
    exact ⟨a, rfl, h⟩

/-! ## Fewer bytes overwritten, more paths -/

/-- The same cursor with no more bytes overwritten. -/
structure Cursor.Le (k k' : Cursor) : Prop where
  place : k.place = k'.place
  stack : k.stack = k'.stack
  bits : Overwritten.Le k.bits k'.bits

theorem Cursor.Le.stands (h : Cursor.Le k k') (hk : Stands q k' c block) : Stands q k c block :=
  ⟨h.place ▸ hk.found, h.place ▸ hk.holds⟩

theorem Cursor.Le.leaves {t : Terminator} (h : Cursor.Le k k') (hk : Leaves q w k' c block t) :
    Leaves q w k c block t := by
  obtain ⟨hstands, hfinished, hterm, houtlives⟩ := hk
  refine ⟨h.stands hstands, ?_, hterm, ?_⟩
  · rwa [h.place]
  · rwa [Cursor.function, h.place]

/-- Where a cursor goes, one with fewer bytes overwritten can go too. -/
theorem Cursor.Le.moves {k'' : Cursor} (h : Cursor.Le k k') (hmove : Moves q w k' k'') :
    ∃ k₁, Moves q w k k₁ ∧ Cursor.Le k₁ k'' := by
  have hfun : k.function q = k'.function q := by rw [Cursor.function, h.place, Cursor.function]
  cases hmove with
  | past hk hinst hread hfree henter hwrite =>
    obtain ⟨bits, hwrite, hle⟩ := h.bits.overwrittenBy hwrite
    refine ⟨_, .past (h.stands hk) (h.place ▸ hinst) hread hfree henter hwrite, ?_⟩
    exact ⟨by simp [Cursor.next, h.place], h.stack, hle⟩
  | enter hk hinst hcall hcallee =>
    refine ⟨_, .enter (h.stands hk) (h.place ▸ hinst) hcall hcallee, rfl, ?_, h.bits⟩
    simp [Cursor.next, h.place, h.stack]
  | resume hk hstack =>
    exact ⟨_, .resume (h.leaves hk) (h.stack.trans hstack), rfl, rfl, h.bits⟩
  | toCaller hk hstack hroot hi hplace =>
    exact ⟨_, .toCaller (h.leaves hk) (h.stack.trans hstack) (hfun ▸ hroot) hi hplace, rfl, rfl,
      h.bits⟩
  | branch hk htarget hedge howner =>
    exact ⟨_, .branch (h.leaves hk) htarget (h.place ▸ hedge) (hfun ▸ howner), rfl, h.stack, h.bits⟩
  | again hk htarget hkind hparent hnext hd =>
    exact ⟨_, .again (h.leaves hk) htarget (h.place ▸ hkind) hparent hnext hd, rfl, h.stack, h.bits⟩

theorem Cursor.Le.observes (h : Cursor.Le k k') (hk : Observes q w k') : Observes q w k := by
  have hfun : k.function q = k'.function q := by rw [Cursor.function, h.place, Cursor.function]
  cases hk with
  | read hk hinst hread => exact .read (h.stands hk) (h.place ▸ hinst) hread
  | escape hk hstack hroot hcallers =>
    exact .escape (h.leaves hk) (h.stack.trans hstack) (hfun ▸ hroot) hcallers
  | beyond hk htarget hkind hparent hnext =>
    exact .beyond (h.leaves hk) htarget (h.place ▸ hkind) hparent hnext

/-- A path to a reader is also a path with fewer bytes overwritten. -/
theorem Leaks.mono (hk' : Leaks q w n k') (h : Cursor.Le k k') : Leaks q w n k := by
  induction hk' generalizing k with
  | here hk' => exact .here (h.observes hk')
  | step hmove _ ih =>
    obtain ⟨k₁, hmove, hle⟩ := h.moves hmove
    exact .step hmove (ih hle)

end ByteTrust.DeadStore
