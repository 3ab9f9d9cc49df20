import ByteTrust.Proofs.Interference.Order
import ByteTrust.Proofs.Interference.Transfer
import ByteTrust.Proofs.Interference.Walks

/-!
# What may wait during a walk

At each point of a walk only some bins are *open*: those that will still be picked up. The walk is
`Tidy` when nothing waits anywhere else, when every snapshot that waits has the frames of its
function, and when what was noted so far fits the program.

A function is walked for one call only, the one that came to it first, which settles its frames
(`FramesOf`). So a call that is walked does not lead to a function that is being walked already
(`Stance.not_walked`), though functions may call each other in circles.
-/

namespace ByteTrust

namespace Walk

open Snapshot Region

/-- A well-formed snapshot with the frames `cs`. -/
structure Fits (cs : List ContextId) (x : Snapshot) : Prop where
  canonical : x.Canonical
  owners : x.owners = cs

variable {cs : List ContextId} {x y : Snapshot}

theorem Fits.flow {f : Stamp → Snapshot → Snapshot} (hf : Flows cs f) (hx : Fits cs x)
    (now : Stamp) : Fits cs (f now x) :=
  ⟨hf.canonical hx.canonical hx.owners, hf.owners hx.canonical hx.owners⟩

theorem Fits.pushFrame (hx : Fits cs x) (now : Stamp) (c : ContextId) :
    Fits (c :: cs) (x.pushFrame now c) :=
  ⟨hx.canonical.pushFrame c, by simp [hx.owners]⟩

theorem Fits.popFrame {now : Stamp} {c : ContextId} (hx : Fits cs x)
    (h : x.popFrame now = .ok (c, y)) : Fits cs.tail y := by
  refine ⟨hx.canonical.popFrame h, ?_⟩
  rw [← hx.owners, (popFrame_eq_ok h).1, List.tail_cons]

theorem Fits.meet {xs : List Snapshot} (h : IsPickUp xs (some y)) (hxs : ∀ x ∈ xs, Fits cs x) :
    Fits cs y := by
  obtain ⟨hne, hmeet, hcanonical⟩ := h
  obtain ⟨x, hx⟩ := List.exists_mem_of_ne_nil xs hne
  exact ⟨hcanonical, (hmeet.owners x hx).symm.trans (hxs x hx).owners⟩

variable {w : Setting} {scope : Scope} {inst : Instr} {plain : Prop} {s s' s₁ : State}

/-- A visit keeps the frames. -/
theorem Fits.visit (h : Visits w scope inst x s y s') (hx : Fits cs x) : Fits cs y := by
  cases h with
  | read => exact hx.flow (Program.transfer_flows _ _ _) _
  | own => exact hx
  | other => exact hx.flow (Program.transfer_flows _ _ _) _

/-! ## What was noted -/

/-- What was noted fits the program: a callee was entered from a call of it, a read of bytes that
belong to one thread has no need, a check is needed only where a read may need one, and, in a plain
walk, a read has no need only where it never has. A walk is plain when all references survive. -/
structure Noted (w : Setting) (plain : Prop) (s : State) : Prop where
  calls : ∀ {g i}, s.firstCalls.get? g = some i →
    ∃ inst ∈ w.program.instrs, inst.op.callee? = some g ∧ inst.id = i
  own : ∀ inst ∈ w.program.instrs, inst.threadLocal = true →
    ∀ {n}, s.findings.needs.get? inst.id = some n → n = .never
  must : ∀ inst ∈ w.program.instrs, s.findings.needs.get? inst.id = some .must →
    inst.threadLocal = false ∧ ∃ x, w.program.need w.settings x inst.op = .must
  missing : plain → s.references.missing = ∅
  never : plain → ∀ inst ∈ w.program.instrs, s.findings.needs.get? inst.id = some .never →
    inst.threadLocal = true ∨ ∀ x, w.program.need w.settings x inst.op = .never

theorem Noted.still (h : Noted w plain s) (hstill : Still s s') : Noted w plain s' where
  calls hg := h.calls (hstill.firstCalls ▸ hg)
  own inst hinst hlocal _ hneed := h.own inst hinst hlocal (hstill.needs ▸ hneed)
  must inst hinst hneed := h.must inst hinst (hstill.needs ▸ hneed)
  missing hplain := hstill.missing (h.missing hplain)
  never hplain inst hinst hneed := h.never hplain inst hinst (hstill.needs ▸ hneed)

theorem Noted.of_eq (h : Noted w plain s) (hcalls : s'.firstCalls = s.firstCalls)
    (hneeds : s'.findings.needs = s.findings.needs) (hmissing : s'.references = s.references) :
    Noted w plain s' where
  calls hg := h.calls (hcalls ▸ hg)
  own inst hinst hlocal _ hneed := h.own inst hinst hlocal (hneeds ▸ hneed)
  must inst hinst hneed := h.must inst hinst (hneeds ▸ hneed)
  missing hplain := hmissing ▸ h.missing hplain
  never hplain inst hinst hneed := h.never hplain inst hinst (hneeds ▸ hneed)

theorem needNow_eq_must {before : Option Need} (h : needNow w inst x before = .must) :
    inst.threadLocal = false ∧
      (before = some .must ∨ w.program.need w.settings x inst.op = .must) := by
  unfold needNow at h
  split at h
  · cases h
  · next hlocal =>
    rw [not_or, Bool.not_eq_true] at hlocal
    refine ⟨hlocal.1, (Need.max_eq_must h).imp (fun hbefore => ?_) id⟩
    cases before with
    | none => cases hbefore
    | some n => exact congrArg some hbefore

theorem needNow_eq_never {before : Option Need} (h : needNow w inst x before = .never) :
    inst.threadLocal = true ∨ before = some .never ∨
      w.program.need w.settings x inst.op = .never := by
  unfold needNow at h
  split at h
  · next hlocal => exact hlocal.imp id .inl
  · exact .inr (.inr (Need.max_eq_never h).2)

theorem instr_ext (hnames : (w.program.instrs.map Instr.id).Nodup) {inst' : Instr}
    (hinst : inst ∈ w.program.instrs) (hinst' : inst' ∈ w.program.instrs)
    (hid : inst.id = inst'.id) : inst = inst' :=
  List.inj_on_of_nodup_map hnames hinst hinst' hid

theorem Noted.visit (h : Noted w plain s) (hnames : (w.program.instrs.map Instr.id).Nodup)
    (hinst : inst ∈ w.program.instrs) (hvisit : Visits w scope inst x s y s') :
    Noted w plain s' := by
  cases hvisit with
  | own _ _ hstill => exact h.still hstill
  | other _ _ hstill => exact h.still hstill
  | @read need recorded now _ _ hneed hrecorded hmissing hstill =>
    refine Noted.still (s := s.record inst.id recorded) ⟨h.calls,
      fun inst' hinst' hlocal n hget => ?_, fun inst' hinst' hget => ?_, h.missing,
      fun hplain inst' hinst' hget => ?_⟩ hstill
    · simp only [State.record, IdentMap.get?_insert] at hget
      split at hget
      · next hid =>
        obtain rfl := instr_ext hnames hinst hinst' hid.symm
        cases hget
        rw [needNow, if_pos (.inl hlocal)] at hneed
        exact hrecorded.elim (fun hrecorded => hrecorded.trans hneed) id
      · exact h.own inst' hinst' hlocal hget
    · simp only [State.record, IdentMap.get?_insert] at hget
      split at hget
      · next hid =>
        obtain rfl := instr_ext hnames hinst hinst' hid.symm
        cases hget
        have hmust : needNow w inst x (s.findings.needs.get? inst.id) = .must := by
          rcases hrecorded with rfl | hnever
          · exact hneed.symm
          · cases hnever
        obtain ⟨hlocal, hbefore | hnow⟩ := needNow_eq_must hmust
        · exact h.must inst hinst hbefore
        · exact ⟨hlocal, x, hnow⟩
      · exact h.must inst' hinst' hget
    · simp only [State.record, IdentMap.get?_insert] at hget
      split at hget
      · next hid =>
        obtain rfl := instr_ext hnames hinst hinst' hid.symm
        cases hget
        have hnever : needNow w inst x (s.findings.needs.get? inst.id) = .never :=
          hneed.symm.trans (hmissing (h.missing hplain)).symm
        rcases needNow_eq_never hnever with hlocal | hbefore | hnow
        · exact .inl hlocal
        · exact h.never hplain inst hinst hbefore
        · exact .inr (Program.need_eq_never hnow)
      · exact h.never hplain inst' hinst' hget

theorem Visits.bin (h : Visits w scope inst x s y s') (k : Bin) : s'.bin k = s.bin k := by
  cases h with
  | read _ _ _ _ hstill =>
    rw [hstill.bin]
    cases k <;> rfl
  | own _ _ hstill => exact hstill.bin k
  | other _ _ hstill => exact hstill.bin k

/-! ## Open bins -/

/-- The frames of the functions being walked. -/
abbrev Frames := ContextId → List ContextId

/-- The frames of the snapshots in a bin. -/
def Bin.frames (l : Layout) (F : Frames) : Bin → List ContextId
  | .returns f => (F f).tail
  | k => F (l.functionRoot k.context)

/-- The bins in `W`, and those of the blocks `ts` of `c`. -/
def Opens (W : Bin → Prop) (c : ContextId) (ts : List BlockId) (k : Bin) : Prop :=
  W k ∨ ∃ t ∈ ts, k = .block c t

/-- Snapshots wait in the bins `W` only, with the frames that belong there. -/
structure Tidy (w : Setting) (plain : Prop) (W : Bin → Prop) (F : Frames) (s : State) : Prop where
  noted : Noted w plain s
  bins : ∀ {k y}, y ∈ s.bin k → W k ∧ Fits (k.frames w.layout F) y

namespace Tidy

variable {W W' : Bin → Prop} {F F' : Frames} {k : Bin} {out : Option Snapshot}

theorem empty (h : Tidy w plain W F s) (hk : ¬ W k) : s.bin k = [] :=
  List.eq_nil_iff_forall_not_mem.2 fun _ hy => hk (h.bins hy).1

theorem mono (h : Tidy w plain W F s) (hW : ∀ k, W k → W' k) : Tidy w plain W' F s :=
  ⟨h.noted, fun hy => ⟨hW _ (h.bins hy).1, (h.bins hy).2⟩⟩

theorem congr (h : Tidy w plain W F s) (hF : ∀ k, W k → k.frames w.layout F' = k.frames w.layout F) :
    Tidy w plain W F' s :=
  ⟨h.noted, fun hy => ⟨(h.bins hy).1, hF _ (h.bins hy).1 ▸ (h.bins hy).2⟩⟩

theorem still (h : Tidy w plain W F s) (hstill : Still s s') : Tidy w plain W F s' :=
  ⟨h.noted.still hstill, fun hy => h.bins (hstill.bin _ ▸ hy)⟩

theorem leave (h : Tidy w plain W F s) (hk : W k) (hx : Fits (k.frames w.layout F) x) :
    Tidy w plain W F (s.leave x k) := by
  refine ⟨h.noted.of_eq (by simp) (by simp) (by simp), fun hy => ?_⟩
  rcases mem_bin_leave.1 hy with hy | ⟨rfl, rfl⟩
  · exact h.bins hy
  · exact ⟨hk, hx⟩

theorem clear (h : Tidy w plain W' F s) (hW : ∀ j, W' j → W j ∨ j = k) :
    Tidy w plain W F (s.clear k) := by
  refine ⟨h.noted.of_eq (by simp) (by simp) (by simp), fun {j y} hy => ?_⟩
  rw [bin_clear] at hy
  split at hy
  · cases hy
  · next hne => exact ⟨(hW j (h.bins hy).1).resolve_right hne, (h.bins hy).2⟩

/-- A bin that is picked up is closed. -/
theorem pick (h : Tidy w plain W' F s) (hpick : Picks s k out s') (hW : ∀ j, W' j → W j ∨ j = k) :
    Tidy w plain W F s' ∧ ∀ y ∈ out, Fits (k.frames w.layout F) y := by
  refine ⟨(h.clear hW).still hpick.still, ?_⟩
  rintro y ⟨⟩
  exact Fits.meet hpick.meet fun x hx => (h.bins hx).2

theorem visit (h : Tidy w plain W F s) (hnames : (w.program.instrs.map Instr.id).Nodup)
    (hinst : inst ∈ w.program.instrs) (hvisit : Visits w scope inst x s y s') :
    Tidy w plain W F s' :=
  ⟨h.noted.visit hnames hinst hvisit, fun hz => h.bins (hvisit.bin _ ▸ hz)⟩

end Tidy

/-! ## What a walk leaves alone -/

/-- Between two states of a walk in the context `c` the open bins only grow, but for those that
belong to the places `ts`, and the bins of other functions stay as they are. -/
structure Keeps (w : Setting) (W : Bin → Prop) (c : ContextId) (ts : List BlockId) (s s' : State) :
    Prop where
  grows : ∀ {k}, W k → (∀ t ∈ ts, k ≠ .block c t ∧ k ≠ .closing c t) → s.bin k ⊆ s'.bin k
  foreign : ∀ {k}, W k → w.layout.functionRoot k.context ≠ w.layout.functionRoot c →
    s'.bin k = s.bin k

namespace Keeps

variable {W W' : Bin → Prop} {c : ContextId} {ts ts' : List BlockId} {out : Option Snapshot}
  {k : Bin}

theorem of_bin (h : ∀ k, s'.bin k = s.bin k) : Keeps w W c ts s s' :=
  ⟨fun {k} _ _ => h k ▸ List.Subset.refl _, fun {k} _ _ => h k⟩

theorem trans (h : Keeps w W c ts s s₁) (h' : Keeps w W c ts s₁ s') : Keeps w W c ts s s' :=
  ⟨fun hk hts => List.Subset.trans (h.grows hk hts) (h'.grows hk hts),
    fun hk hroot => (h'.foreign hk hroot).trans (h.foreign hk hroot)⟩

theorem mono (h : Keeps w W' c ts' s s') (hW : ∀ k, W k → W' k) (hts : ts' ⊆ ts) :
    Keeps w W c ts s s' :=
  ⟨fun hk hne => h.grows (hW _ hk) fun t ht => hne t (hts ht),
    fun hk hroot => h.foreign (hW _ hk) hroot⟩

theorem leave (x : Snapshot) (hk : w.layout.functionRoot k.context = w.layout.functionRoot c) :
    Keeps w W c ts s (s.leave x k) := by
  refine ⟨fun {j} _ _ y hy => mem_bin_leave.2 (.inl hy), fun {j} _ hroot => ?_⟩
  rw [bin_leave, if_neg]
  rintro rfl
  exact hroot hk

theorem clear (hk : W k → w.layout.functionRoot k.context = w.layout.functionRoot c ∧
    ∃ t ∈ ts, k = .block c t ∨ k = .closing c t) : Keeps w W c ts s (s.clear k) := by
  refine ⟨fun {j} hj hne => ?_, fun {j} hj hroot => ?_⟩
  · rw [bin_clear, if_neg]
    · exact List.Subset.refl _
    · rintro rfl
      obtain ⟨-, t, ht, h | h⟩ := hk hj
      · exact (hne t ht).1 h
      · exact (hne t ht).2 h
  · rw [bin_clear, if_neg]
    rintro rfl
    exact hroot (hk hj).1

theorem pick (h : Picks s k out s') (hk : W k →
    w.layout.functionRoot k.context = w.layout.functionRoot c ∧
      ∃ t ∈ ts, k = .block c t ∨ k = .closing c t) : Keeps w W c ts s s' :=
  (Keeps.clear hk).trans (of_bin h.still.bin)

theorem pick_block (h : Picks s (.block c b) out s') (hb : b ∈ ts) : Keeps w W c ts s s' :=
  pick h fun _ => ⟨rfl, b, hb, .inl rfl⟩

end Keeps

/-! ## The frames of a function -/

/-- The frames of a function, given the calls that came first: those of the function that called
it, and its own on top. The root has the frames `base` around it. -/
inductive FramesOf (w : Setting) (base : List ContextId) (calls : Table ContextId InstId) :
    ContextId → List ContextId → Prop
  | root : FramesOf w base calls w.program.root (w.program.root :: base)
  | callee {f g : ContextId} {inst : Instr} {cs : List ContextId} (hf : FramesOf w base calls f cs)
      (hinst : w.program.Contains w.layout f inst) (hcallee : inst.op.callee? = some g)
      (hcall : calls.get? g = some inst.id) : FramesOf w base calls g (g :: cs)

/-- Calls that came first stay so. -/
def Extends (calls calls' : Table ContextId InstId) : Prop :=
  ∀ g i, calls.get? g = some i → calls'.get? g = some i

section Frames

variable {base cs' : List ContextId} {calls calls' : Table ContextId InstId} {f g : ContextId}

theorem extends_of_eq (h : calls' = calls) : Extends calls calls' := fun _ _ hg => h ▸ hg

theorem Extends.trans {calls'' : Table ContextId InstId} (h : Extends calls calls')
    (h' : Extends calls' calls'') : Extends calls calls'' := fun g i hg => h' g i (h g i hg)

theorem FramesOf.extend (h : FramesOf w base calls f cs) (hext : Extends calls calls') :
    FramesOf w base calls' f cs := by
  induction h with
  | root => exact .root
  | callee _ hinst hcallee hcall ih => exact .callee ih hinst hcallee (hext _ _ hcall)

theorem FramesOf.reaches (h : FramesOf w base calls f cs) :
    w.program.Reaches w.layout w.program.root f := by
  induction h with
  | root => exact .refl
  | callee _ hinst hcallee _ ih => exact ih.tail ⟨_, hinst, hcallee⟩

theorem contains_unique (hl : w.program.Linked w.layout) {inst' : Instr}
    (h : w.program.Contains w.layout f inst) (h' : w.program.Contains w.layout g inst')
    (hid : inst.id = inst'.id) : f = g := by
  obtain ⟨k, c, b, block, hc, rfl, hb, hinst⟩ := h
  obtain ⟨k', c', b', block', hc', rfl, hb', hinst'⟩ := h'
  obtain ⟨i, hi⟩ := List.mem_iff_getElem?.1 hinst
  obtain ⟨i', hi'⟩ := List.mem_iff_getElem?.1 hinst'
  obtain ⟨rfl, -⟩ := Program.eq_place_of_id hl.names hc hc' hb hb' hi hi' hid
  rfl

/-- A function has one list of frames, where the root does not lead back to itself. -/
theorem FramesOf.unique (hl : w.program.Linked w.layout)
    (hroot : ¬ Relation.TransGen (w.program.Inlines w.layout) w.program.root w.program.root)
    (h : FramesOf w base calls f cs) (h' : FramesOf w base calls f cs') : cs = cs' := by
  have hback {f : ContextId} {cs : List ContextId} {inst : Instr}
      (hf : FramesOf w base calls f cs) (hinst : w.program.Contains w.layout f inst) :
      inst.op.callee? ≠ some w.program.root := fun hcallee =>
    hroot (Relation.TransGen.tail'_iff.2 ⟨f, hf.reaches, inst, hinst, hcallee⟩)
  induction h generalizing cs' with
  | root =>
    cases h' with
    | root => rfl
    | callee hf hinst hcallee => exact (hback hf hinst hcallee).elim
  | callee hf hinst hcallee hcall ih =>
    cases h' with
    | root => exact (hback hf hinst hcallee).elim
    | callee hf' hinst' _ hcall' =>
      obtain rfl := contains_unique hl hinst hinst' (Option.some.inj (hcall.symm.trans hcall'))
      rw [ih hf']

theorem FramesOf.eq_cons (h : FramesOf w base calls f cs) : ∃ cs', cs = f :: cs' := by
  cases h with
  | root => exact ⟨base, rfl⟩
  | callee => exact ⟨_, rfl⟩

theorem FramesOf.leave (h : FramesOf w base s.firstCalls f cs) (x : Snapshot) (k : Bin) :
    FramesOf w base (s.leave x k).firstCalls f cs := by
  rwa [firstCalls_leave]

/-- The call that comes first is noted. -/
theorem extends_insert {i : InstId} (hfirst : ∀ j, calls.get? g = some j → j = i) :
    Extends calls (calls.insert g i) := by
  intro g' j hg'
  rw [Table.get?_insert]
  split
  · next heq =>
    subst heq
    rw [hfirst j hg']
  · exact hg'

/-- A call that is walked has the frames of its function and one more. -/
theorem FramesOf.call (hcs : FramesOf w base calls f cs)
    (hinst : w.program.Contains w.layout f inst) (hcallee : inst.op.callee? = some g)
    (hfirst : ∀ i, calls.get? g = some i → i = inst.id) :
    FramesOf w base (calls.insert g inst.id) g (g :: cs) :=
  .callee (hcs.extend (extends_insert hfirst)) hinst hcallee (by rw [Table.get?_insert, if_pos rfl])

end Frames

/-- The functions `A` are being walked, with the frames that they were called with. -/
def Framed (w : Setting) (base : List ContextId) (A : ContextId → Prop) (F : Frames) (s : State) :
    Prop := ∀ f, A f → FramesOf w base s.firstCalls f (F f)

/-! ## Where a walk stands -/

/-- The walk stands in the context `c`. Of the functions `A` that are being walked its own has the
most frames. The open bins and the loops being walked belong to these functions and to contexts
around it, and every way out of the context leads to an open bin. -/
structure Stance (w : Setting) (A : ContextId → Prop) (F : Frames) (W : Bin → Prop) (scope : Scope)
    (c : Context) : Prop where
  found : w.program.contexts.get? scope.context = some c
  emitted : scope.suppressed = false
  walked : A (w.layout.functionRoot scope.context)
  deepest : ∀ {f}, A f → (F f).length ≤ (F (w.layout.functionRoot scope.context)).length
  busy : ∀ {j}, W j → A (w.layout.functionRoot j.context) ∧
    w.program.Around w.layout j.context scope.context
  active : ∀ a ∈ scope.loops, A (w.layout.functionRoot a.context) ∧
    w.program.Around w.layout a.context scope.context
  closing : ∀ a ∈ scope.loops, a.pass = .second → W (.closing a.context a.header)
  returns : W (.returns (w.layout.functionRoot scope.context))
  back : c.isFunction = false → W (.back scope.context)
  leaving : ∀ {child o d}, w.program.Within scope.context child → w.program.Encloses child o →
    w.program.contexts.get? o = some d → ∃ info body rs later around peel,
      Cut d (.loop info body :: rs) later around ∧ info.terminatedPeel? = some peel ∧
        child ∈ peel.iterations ∧ ∀ t ∈ rs.map start ++ later, W (.block o t)

/-- The walk is about to enter the function `c`, which is not being walked, with the frames `cs`. -/
structure Enters (w : Setting) (A : ContextId → Prop) (F : Frames) (W : Bin → Prop)
    (loops : List ActiveLoop) (cs : List ContextId) (g : ContextId) (c : Context) : Prop where
  found : w.program.contexts.get? g = some c
  function : c.isFunction = true
  fresh : ¬ A g
  deepest : ∀ {f}, A f → (F f).length ≤ cs.length
  busy : ∀ {j}, W j → A (w.layout.functionRoot j.context)
  active : ∀ a ∈ loops, A (w.layout.functionRoot a.context)
  closing : ∀ a ∈ loops, a.pass = .second → W (.closing a.context a.header)

section Stance

variable {A : ContextId → Prop} {F : Frames} {W : Bin → Prop} {c d : Context} {g it : ContextId}
  {loops : List ActiveLoop} {info : Loop} {body rs : List Region} {later : List BlockId}
  {around : List Loop} {peel : PeelAttempt}

theorem Stance.widen (h : Stance w A F W scope c) {V : Bin → Prop}
    (hV : ∀ j, V j → j.context = scope.context) : Stance w A F (fun j => W j ∨ V j) scope c where
  found := h.found
  emitted := h.emitted
  walked := h.walked
  deepest := h.deepest
  busy hj := hj.elim h.busy fun hj => by
    rw [hV _ hj]
    exact ⟨h.walked, .refl _⟩
  active := h.active
  closing a ha hpass := .inl (h.closing a ha hpass)
  returns := .inl h.returns
  back hc := .inl (h.back hc)
  leaving hchild ho hd := by
    obtain ⟨info, body, rs, later, around, peel, hcut, hpeel, hmem, hW⟩ := h.leaving hchild ho hd
    exact ⟨info, body, rs, later, around, peel, hcut, hpeel, hmem, fun t ht => .inl (hW t ht)⟩

theorem Stance.opens (h : Stance w A F W scope c) (ts : List BlockId) :
    Stance w A F (Opens W scope.context ts) scope c :=
  h.widen fun _ ⟨_, _, hj⟩ => hj ▸ rfl

theorem Stance.over (h : Stance w A F W scope c) {pass : Pass}
    (hclosing : pass = .second → W (.closing scope.context info.header)) :
    Stance w A F W (scope.over info body pass) c where
  found := h.found
  emitted := h.emitted
  walked := h.walked
  deepest := h.deepest
  busy := h.busy
  active := List.forall_mem_cons.2 ⟨⟨h.walked, .refl _⟩, h.active⟩
  closing := List.forall_mem_cons.2 ⟨hclosing, h.closing⟩
  returns := h.returns
  back := h.back
  leaving := h.leaving

theorem Enters.stance (hl : w.program.Linked w.layout) (h : Enters w A F W loops cs g c) :
    Stance w (fun f => A f ∨ f = g) (Function.update F g (g :: cs))
      (fun j => W j ∨ j = .returns g) ⟨g, loops, false⟩ c := by
  have hroot := hl.functionRoot_of_isFunction h.found h.function
  have hnone {o : ContextId} : ¬ w.program.Encloses g o :=
    Program.not_encloses_of_isFunction h.found h.function
  have haround {k : ContextId} (hk : A (w.layout.functionRoot k)) :
      w.program.Around w.layout k g := fun heq => (h.fresh (hroot ▸ heq ▸ hk)).elim
  refine ⟨h.found, rfl, .inr hroot, ?_, ?_,
    fun a ha => ⟨.inl (h.active a ha), haround (h.active a ha)⟩,
    fun a ha hpass => .inl (h.closing a ha hpass), .inr (by rw [hroot]), ?_, ?_⟩
  · rintro f (hf | rfl)
    · have hne : f ≠ g := fun heq => h.fresh (heq ▸ hf)
      rw [hroot, Function.update_of_ne hne, Function.update_self, List.length_cons]
      exact Nat.le_succ_of_le (h.deepest hf)
    · rw [hroot]
  · rintro j (hj | rfl)
    · exact ⟨.inl (h.busy hj), haround (h.busy hj)⟩
    · exact ⟨.inr hroot, .refl g⟩
  · intro hfun
    rw [h.function] at hfun
    cases hfun
  · intro child o d hchild ho hd
    rcases Relation.ReflTransGen.cases_head hchild with rfl | ⟨o', hstep, -⟩
    · exact (hnone ho).elim
    · exact (hnone hstep).elim

/-- Another function is entered. -/
theorem Framed.enter {base : List ContextId} (h : Framed w base A F s) (hfresh : ¬ A g)
    (hg : FramesOf w base s.firstCalls g (g :: cs)) :
    Framed w base (fun f => A f ∨ f = g) (Function.update F g (g :: cs)) s := by
  rintro f (hf | rfl)
  · have hne : f ≠ g := fun heq => hfresh (heq ▸ hf)
    rw [Function.update_of_ne hne]
    exact h f hf
  · rwa [Function.update_self]

/-- The call that came first to a function stands in one with fewer frames, so it does not come to
a function that is being walked. -/
theorem Stance.not_walked {base : List ContextId} (hl : w.program.Linked w.layout)
    (ho : w.program.Orderly w.layout) (h : Stance w A F W scope c) (hframed : Framed w base A F s)
    (hinst : w.program.Contains w.layout (w.layout.functionRoot scope.context) inst)
    (hcallee : inst.op.callee? = some g)
    (hfirst : ∀ i, s.firstCalls.get? g = some i → i = inst.id) : ¬ A g := by
  intro hg
  have hframes := ((hframed g hg).extend (extends_insert hfirst)).unique hl ho.rootApart
    ((hframed _ h.walked).call hinst hcallee hfirst)
  have hdeepest := h.deepest hg
  rw [hframes, List.length_cons] at hdeepest
  exact Nat.not_succ_le_self _ hdeepest

theorem Stance.enters {base : List ContextId} (hl : w.program.Linked w.layout)
    (ho : w.program.Orderly w.layout) (h : Stance w A F W scope c) (hframed : Framed w base A F s)
    (hinst : w.program.Contains w.layout (w.layout.functionRoot scope.context) inst)
    (hcallee : inst.op.callee? = some g)
    (hfirst : ∀ i, s.firstCalls.get? g = some i → i = inst.id)
    (hd : w.program.contexts.get? g = some d) (hfun : d.isFunction = true) :
    Enters w A F W scope.loops (F (w.layout.functionRoot scope.context)) g d where
  found := hd
  function := hfun
  fresh := h.not_walked hl ho hframed hinst hcallee hfirst
  deepest := h.deepest
  busy hj := (h.busy hj).1
  active a ha := (h.active a ha).1
  closing := h.closing

/-- An iteration of a loop in the present context. -/
theorem Stance.iteration (hl : w.program.Linked w.layout) (h : Stance w A F W scope c)
    (hcut : Cut c (.loop info body :: rs) later around) (hpeel : info.terminatedPeel? = some peel)
    (hmem : it ∈ peel.iterations) (hafter : ∀ t ∈ rs.map start ++ later, W (.block scope.context t))
    (hit : w.program.Encloses it scope.context) (hd : w.program.contexts.get? it = some d) :
    Stance w A F (fun j => W j ∨ j = .back it) ⟨it, scope.loops, false⟩ d := by
  have hroot := hl.functionRoot_of_encloses hit
  have hwalked : A (w.layout.functionRoot it) := hroot ▸ h.walked
  refine ⟨hd, rfl, hwalked, fun hf => hroot ▸ h.deepest hf, ?_,
    fun a ha => ⟨(h.active a ha).1, hl.around_iteration (h.active a ha).2 hit⟩,
    fun a ha hpass => .inl (h.closing a ha hpass), .inl (hroot ▸ h.returns), fun _ => .inr rfl, ?_⟩
  · rintro j (hj | rfl)
    · exact ⟨(h.busy hj).1, hl.around_iteration (h.busy hj).2 hit⟩
    · exact ⟨hwalked, .refl it⟩
  · intro child o e hchild ho he
    rcases Relation.ReflTransGen.cases_head hchild with rfl | ⟨k, hstep, hchild⟩
    · obtain rfl := ho.unique hit
      cases h.found.symm.trans he
      exact ⟨info, body, rs, later, around, peel, hcut, hpeel, hmem, fun t ht => .inl (hafter t ht)⟩
    · obtain rfl := hstep.unique hit
      obtain ⟨info, body, rs, later, around, peel, hcut, hpeel, hmem, hW⟩ := h.leaving hchild ho he
      exact ⟨info, body, rs, later, around, peel, hcut, hpeel, hmem, fun t ht => .inl (hW t ht)⟩

end Stance

/-! ## Which blocks are open -/

/-- The walk is about to take the places `ts` of a context. The open blocks of the context are
those that come after, and headers of loops around; a back edge of a loop around is dropped, or
leads to an open header, or is never taken. -/
structure Spot (W : Bin → Prop) (scope : Scope) (c : Context) (ts after : List BlockId)
    (around : List Loop) : Prop where
  later : ∀ t ∈ after, W (.block scope.context t)
  blocks : ∀ {t}, W (.block scope.context t) → t ∈ after ∨ ∃ info ∈ around, t = info.header
  closings : ∀ {t}, W (.closing scope.context t) → ∃ info ∈ around, t = info.header
  heads : ∀ info ∈ around,
    (∃ a ∈ scope.loops, a.context = scope.context ∧ a.pass = .second ∧ a.header = info.header ∧
      a.latch = info.latch) ∨
    W (.block scope.context info.header) ∨
    ∀ block, c.blocks.get? info.latch = some block → block.hasLiveEdgeTo info.header = false
  inside : ∀ a ∈ scope.loops, a.context = scope.context →
    (∃ info ∈ around, a.header = info.header) ∧ ∀ t ∈ ts, t ∈ a.members

namespace Spot

variable {W : Bin → Prop} {c : Context} {r : Region} {rs body : List Region} {info : Loop}
  {ts ts' after later : List BlockId} {around : List Loop}

/-- The start of a context that is not being walked. -/
theorem top (hW : ∀ j, W j → j.context = scope.context → j = .back scope.context ∨
    j = .returns scope.context) (hloops : ∀ a ∈ scope.loops, a.context ≠ scope.context) :
    Spot W scope c ts [] [] where
  later := by simp
  blocks hj := by rcases hW _ hj rfl with h | h <;> cases h
  closings hj := by rcases hW _ hj rfl with h | h <;> cases h
  heads := by simp
  inside a ha hctx := (hloops a ha hctx).elim

theorem sub (h : Spot W scope c ts after around) (hts : ts' ⊆ ts) :
    Spot W scope c ts' after around :=
  { h with inside := fun a ha hctx =>
      ⟨(h.inside a ha hctx).1, fun t ht => (h.inside a ha hctx).2 t (hts ht)⟩ }

/-- The first region of a list: the starts of the others are open. -/
theorem head (h : Spot W scope c (placesAll (r :: rs)) later around) :
    Spot (Opens W scope.context (rs.map start)) scope c r.places (rs.map start ++ later) around where
  later t ht := by
    rcases List.mem_append.1 ht with ht | ht
    · exact .inr ⟨t, ht, rfl⟩
    · exact .inl (h.later t ht)
  blocks hj := by
    rcases hj with hj | ⟨t, ht, heq⟩
    · exact (h.blocks hj).imp (List.mem_append_right _) id
    · cases heq
      exact .inl (List.mem_append_left _ ht)
  closings hj := by
    rcases hj with hj | ⟨t, ht, heq⟩
    · exact h.closings hj
    · cases heq
  heads info hinfo := (h.heads info hinfo).imp id (.imp .inl id)
  inside := (h.sub (List.subset_append_left _ _)).inside

theorem tail (h : Spot W scope c (placesAll (r :: rs)) later around) :
    Spot W scope c (placesAll rs) later around :=
  h.sub (List.subset_append_right _ _)

/-- The body of a loop whose back edge is never taken. -/
theorem once (h : Spot W scope c ts after around)
    (hdead : ∀ block, c.blocks.get? info.latch = some block →
      block.hasLiveEdgeTo info.header = false) : Spot W scope c ts after (info :: around) where
  later := h.later
  blocks hj := (h.blocks hj).imp id fun ⟨info', hinfo', heq⟩ =>
    ⟨info', List.mem_cons_of_mem _ hinfo', heq⟩
  closings hj := by
    obtain ⟨info', hinfo', heq⟩ := h.closings hj
    exact ⟨info', List.mem_cons_of_mem _ hinfo', heq⟩
  heads := List.forall_mem_cons.2 ⟨.inr (.inr hdead), h.heads⟩
  inside a ha hctx := by
    obtain ⟨⟨info', hinfo', heq⟩, hts⟩ := h.inside a ha hctx
    exact ⟨⟨info', List.mem_cons_of_mem _ hinfo', heq⟩, hts⟩

/-- The first pass over a loop. -/
theorem first (h : Spot W scope c ts after around)
    (hmembers : ∀ t ∈ ts, t ∈ info.blocks.union (.ofList (peelHeaders (loopsAll body)))) :
    Spot (Opens W scope.context [info.header]) (scope.over info body .first) c ts after
      (info :: around) where
  later t ht := .inl (h.later t ht)
  blocks hj := by
    rcases hj with hj | ⟨t, ht, heq⟩
    · exact (h.blocks hj).imp id fun ⟨info', hinfo', heq⟩ =>
        ⟨info', List.mem_cons_of_mem _ hinfo', heq⟩
    · cases heq
      exact .inr ⟨info, List.mem_cons_self, List.mem_singleton.1 ht⟩
  closings hj := by
    rcases hj with hj | ⟨t, ht, heq⟩
    · obtain ⟨info', hinfo', heq⟩ := h.closings hj
      exact ⟨info', List.mem_cons_of_mem _ hinfo', heq⟩
    · cases heq
  heads := by
    refine List.forall_mem_cons.2 ⟨.inr (.inl (.inr ⟨_, List.mem_singleton.2 rfl, rfl⟩)), ?_⟩
    intro info' hinfo'
    rcases h.heads info' hinfo' with ⟨a, ha, hact⟩ | hopen | hdead
    · exact .inl ⟨a, List.mem_cons_of_mem _ ha, hact⟩
    · exact .inr (.inl (.inl hopen))
    · exact .inr (.inr hdead)
  inside := by
    refine List.forall_mem_cons.2 ⟨fun _ => ⟨⟨info, List.mem_cons_self, rfl⟩, hmembers⟩, ?_⟩
    intro a ha hctx
    obtain ⟨⟨info', hinfo', heq⟩, hts⟩ := h.inside a ha hctx
    exact ⟨⟨info', List.mem_cons_of_mem _ hinfo', heq⟩, hts⟩

/-- The second pass over a loop. -/
theorem second (h : Spot W scope c ts after around)
    (hmembers : ∀ t ∈ ts, t ∈ info.blocks.union (.ofList (peelHeaders (loopsAll body)))) :
    Spot (fun j => W j ∨ j = .closing scope.context info.header) (scope.over info body .second) c ts
      after (info :: around) where
  later t ht := .inl (h.later t ht)
  blocks hj := by
    rcases hj with hj | heq
    · exact (h.blocks hj).imp id fun ⟨info', hinfo', heq⟩ =>
        ⟨info', List.mem_cons_of_mem _ hinfo', heq⟩
    · cases heq
  closings hj := by
    rcases hj with hj | heq
    · obtain ⟨info', hinfo', heq⟩ := h.closings hj
      exact ⟨info', List.mem_cons_of_mem _ hinfo', heq⟩
    · cases heq
      exact ⟨info, List.mem_cons_self, rfl⟩
  heads := by
    refine List.forall_mem_cons.2 ⟨.inl ⟨_, List.mem_cons_self, rfl, rfl, rfl, rfl⟩, ?_⟩
    intro info' hinfo'
    rcases h.heads info' hinfo' with ⟨a, ha, hact⟩ | hopen | hdead
    · exact .inl ⟨a, List.mem_cons_of_mem _ ha, hact⟩
    · exact .inr (.inl (.inl hopen))
    · exact .inr (.inr hdead)
  inside := by
    refine List.forall_mem_cons.2 ⟨fun _ => ⟨⟨info, List.mem_cons_self, rfl⟩, hmembers⟩, ?_⟩
    intro a ha hctx
    obtain ⟨⟨info', hinfo', heq⟩, hts⟩ := h.inside a ha hctx
    exact ⟨⟨info', List.mem_cons_of_mem _ hinfo', heq⟩, hts⟩

/-- No place of the later regions of a list is open before its turn. -/
theorem not_open_tail (h : Spot W scope c ts later around)
    (ha : Program.Linked.Apart (r :: rs) later around) {t : BlockId} (ht : t ∈ placesAll rs) :
    ¬ W (.block scope.context t) ∧ ¬ W (.closing scope.context t) := by
  have hheader : ¬ ∃ info ∈ around, t = info.header := by
    rintro ⟨info, hinfo, rfl⟩
    obtain ⟨rest, heq, hrest⟩ := ha.body info hinfo (List.mem_append_right _ ht)
    cases heq
    exact hrest ht
  refine ⟨fun hopen => ?_, fun hopen => hheader (h.closings hopen)⟩
  rcases h.blocks hopen with hlater | hinfo
  · exact (List.nodup_append.1 ha.nodup).2.2 t (List.mem_append_right _ ht) t hlater rfl
  · exact hheader hinfo

/-- No place of a loop is open before its turn. -/
theorem not_open_loop (h : Spot W scope c ts (rs.map start ++ later) around)
    (ha : Program.Linked.Apart (.loop info body :: rs) later around)
    (hstarts : (rs.map start).Sublist (placesAll rs)) {t : BlockId}
    (ht : t ∈ (Region.loop info body).places) :
    ¬ W (.block scope.context t) ∧ ¬ W (.closing scope.context t) := by
  have hheader : ¬ ∃ info' ∈ around, t = info'.header := by
    rintro ⟨info', hinfo', rfl⟩
    obtain ⟨_, heq, -⟩ := ha.body info' hinfo' (List.mem_append_left _ ht)
    cases heq
  refine ⟨fun hopen => ?_, fun hopen => hheader (h.closings hopen)⟩
  rcases h.blocks hopen with hafter | hinfo
  · have hnodup := ha.nodup
    rw [placesAll, List.append_assoc] at hnodup
    exact (List.nodup_append.1 hnodup).2.2 t ht t
      ((hstarts.append_right later).subset hafter) rfl
  · exact hheader hinfo

end Spot

end Walk

end ByteTrust
