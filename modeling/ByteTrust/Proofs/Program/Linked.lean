import Mathlib.Data.List.Nodup
import Mathlib.Data.List.Pairwise
import ByteTrust.Proofs.Program.Link

/-!
# Linked programs

What a successful link guarantees, when every context is filed under its own name: parents, entries
and callees exist, every edge stays within its function, and the loops are well formed.
-/

namespace ByteTrust

namespace Program

variable {p : Program} {l : Layout} {k f : ContextId} {c : Context} {b : BlockId} {block : Block}

/-- The instructions of all contexts. -/
def instrs (p : Program) : List Instr :=
  p.contexts.values.flatMap fun c => c.blocks.values.flatMap Block.insts

theorem mem_instrs (hown : p.OwnNames) {inst : Instr} :
    inst ∈ p.instrs ↔ ∃ k c b block, p.contexts.get? k = some c ∧
      c.blocks.get? b = some block ∧ inst ∈ block.insts := by
  simp only [instrs, List.mem_flatMap]
  constructor
  · rintro ⟨c, hc, block, hblock, hinst⟩
    obtain ⟨b, hb⟩ := Table.mem_values.1 hblock
    exact ⟨c.id, c, b, block, hown.mem_values.1 hc, hb, hinst⟩
  · rintro ⟨k, c, b, block, hc, hb, hinst⟩
    exact ⟨c, Table.mem_values_of_get? hc, block, Table.mem_values_of_get? hb, hinst⟩

/-- A linked program with its layout. -/
structure Linked (p : Program) (l : Layout) : Prop where
  own : p.OwnNames
  lists : l.Lists p p.contexts.values
  resolved : ∀ {k c}, p.contexts.get? k = some c → p.Resolved c
  root : ∃ c, p.contexts.get? p.root = some c ∧ c.isFunction = true
  parent : ∀ {k c parent}, p.contexts.get? k = some c → c.parent = some parent →
    ∃ d, p.contexts.get? parent = some d
  top : ∀ {k c}, p.contexts.get? k = some c → c.parent = none → c.isFunction = true
  entry : ∀ {k c}, p.contexts.get? k = some c → ∃ block, c.blocks.get? c.entry = some block
  block_id : ∀ {k c b block}, p.contexts.get? k = some c → c.blocks.get? b = some block →
    block.id = b
  callee : ∀ {k c b block i f}, p.contexts.get? k = some c → c.blocks.get? b = some block →
    i ∈ block.insts → i.op.callee? = some f → ∃ d, p.contexts.get? f = some d ∧ d.isFunction = true
  shape : ∀ {k c}, p.contexts.get? k = some c → p.checkShape l c = .ok ()
  names : (p.instrs.map Instr.id).Nodup

/-- An instruction stands in the function `f`, or in an iteration below it. -/
def Contains (p : Program) (l : Layout) (f : ContextId) (inst : Instr) : Prop :=
  ∃ k c b block, p.contexts.get? k = some c ∧ l.functionRoot k = f ∧
    c.blocks.get? b = some block ∧ inst ∈ block.insts

theorem Contains.mem_instrs {inst : Instr} (h : p.Contains l f inst) (hown : p.OwnNames) :
    inst ∈ p.instrs := by
  obtain ⟨k, c, b, block, hc, -, hb, hinst⟩ := h
  exact (Program.mem_instrs hown).2 ⟨k, c, b, block, hc, hb, hinst⟩

/-- The function `f` contains an inlined call of `g`. -/
def Inlines (p : Program) (l : Layout) (f g : ContextId) : Prop :=
  ∃ inst, p.Contains l f inst ∧ inst.op.callee? = some g

/-- The function `f` leads into `g`: by an inlined call, or by a loop of `f` that lists an iteration
of another function `g`. Linking puts only the iterations of terminated peels where they belong, and
of two loops with one name the layout keeps the later peel, terminated or not. -/
def Calls (p : Program) (l : Layout) (f g : ContextId) : Prop :=
  p.Inlines l f g ∨
    (f ≠ g ∧ ∃ k loop peel next, l.functionRoot k = f ∧ l.peel? k loop = some peel ∧
      next ∈ peel.iterations ∧ l.functionRoot next = g)

/-- The function `f` contains a call that `g` lists among its callers. -/
def ReturnsTo (p : Program) (l : Layout) (g f : ContextId) : Prop :=
  ∃ d inst, p.contexts.get? g = some d ∧ inst.id ∈ d.callers ∧ p.Contains l f inst

/-! ## Names -/

theorem checkFunction_eq_ok (h : p.checkFunction k = .ok ()) :
    ∃ c, p.contexts.get? k = some c ∧ c.isFunction = true := by
  rw [checkFunction, bind_eq_ok] at h
  obtain ⟨c, hc, h⟩ := h
  refine ⟨c, context_eq_ok.1 hc, ?_⟩
  by_contra hfun
  simp [hfun] at h

theorem discard_eq_ok {α : Type} {x : Except Fault α} (h : (discard x : Except Fault Unit) = .ok ()) :
    ∃ a, x = .ok a := by
  cases x with
  | error fault => cases h
  | ok a => exact ⟨a, rfl⟩

theorem checkOperation_callee {op : Operation} (h : p.checkOperation op = .ok ())
    (hf : op.callee? = some f) : ∃ d, p.contexts.get? f = some d ∧ d.isFunction = true := by
  cases op with
  | call site =>
    simp only [Operation.callee?] at hf
    simp only [checkOperation, hf] at h
    exact checkFunction_eq_ok h
  | _ => cases hf

/-- The names of a block are in order. -/
def NamesBlock (p : Program) (e : BlockId × Block) : Prop :=
  e.2.id = e.1 ∧ ∀ i ∈ e.2.insts, p.checkOperation i.op = .ok ()

theorem checkBlock_eq_ok {seen seen' : IdentSet .inst} {e : BlockId × Block}
    (h : p.checkBlock c seen e = .ok seen') : p.NamesBlock e := by
  rw [checkBlock] at h
  split at h
  · cases h
  · next hid =>
    refine ⟨(not_not.1 hid).symm, ?_⟩
    refine foldlM_induction h (fun done _ => ∀ i ∈ done, p.checkOperation i.op = .ok ())
      (by simp) ?_
    intro done seen i seen' _ hstep hdone j hj
    rw [checkInstr] at hstep
    split at hstep
    · cases hstep
    · rw [bind_eq_ok] at hstep
      obtain ⟨⟨⟩, hop, -⟩ := hstep
      rcases List.mem_append.1 hj with hj | hj
      · exact hdone j hj
      · exact List.mem_singleton.1 hj ▸ hop

/-- The names of a context are in order. -/
structure NamesContext (p : Program) (c : Context) : Prop where
  parent : ∀ {parent}, c.parent = some parent → ∃ d, p.contexts.get? parent = some d
  top : c.parent = none → c.isFunction = true
  entry : ∃ block, c.blocks.get? c.entry = some block
  blocks : ∀ e ∈ c.blocks.entries, p.NamesBlock e

theorem checkContext_blocks {seen seen' : IdentSet .inst} (h : p.checkContext seen c = .ok seen') :
    ((discard (c.block c.entry) : Except Fault Unit) >>= fun _ =>
      c.blocks.entries.foldlM (p.checkBlock c) seen) = .ok seen' := by
  rw [checkContext] at h
  split at h
  · rw [bind_eq_ok] at h
    exact h.choose_spec.2
  · split at h
    · exact h
    · cases h

theorem checkContext_eq_ok {seen seen' : IdentSet .inst}
    (h : p.checkContext seen c = .ok seen') : p.NamesContext c := by
  have hrest := checkContext_blocks h
  rw [checkContext] at h
  rw [bind_eq_ok] at hrest
  obtain ⟨⟨⟩, hentry, hblocks⟩ := hrest
  refine ⟨fun hparent => ?_, fun hparent => ?_, ?_, ?_⟩
  · simp only [hparent] at h
    rw [bind_eq_ok] at h
    obtain ⟨⟨⟩, h, -⟩ := h
    obtain ⟨d, hd⟩ := discard_eq_ok h
    exact ⟨d, context_eq_ok.1 hd⟩
  · by_contra hfun
    simp [hparent, hfun] at h
  · obtain ⟨block, hblock⟩ := discard_eq_ok hentry
    exact ⟨block, Context.block_eq_ok.1 hblock⟩
  · refine foldlM_induction hblocks (fun done _ => ∀ e ∈ done, p.NamesBlock e) (by simp) ?_
    intro done seen e seen' _ hstep hdone e' he'
    rcases List.mem_append.1 he' with he' | he'
    · exact hdone e' he'
    · exact List.mem_singleton.1 he' ▸ checkBlock_eq_ok hstep

theorem checkNames_eq_ok (h : p.checkNames = .ok ()) :
    (∃ c, p.contexts.get? p.root = some c ∧ c.isFunction = true) ∧
      ∀ c ∈ p.contexts.values, p.NamesContext c := by
  rw [checkNames, bind_eq_ok] at h
  obtain ⟨⟨⟩, hroot, h⟩ := h
  rw [bind_eq_ok] at h
  obtain ⟨⟨⟩, hcontexts, -⟩ := h
  obtain ⟨seen, hseen⟩ := discard_eq_ok hcontexts
  refine ⟨checkFunction_eq_ok hroot, ?_⟩
  refine foldlM_induction hseen (fun done _ => ∀ c ∈ done, p.NamesContext c) (by simp) ?_
  intro done seen c seen' _ hstep hdone d hd
  rcases List.mem_append.1 hd with hd | hd
  · exact hdone d hd
  · exact List.mem_singleton.1 hd ▸ checkContext_eq_ok hstep

/-- The names `xs` were seen for the first time. -/
structure Adds {κ : IdentKind} (seen : IdentSet κ) (xs : List (Ident κ)) (seen' : IdentSet κ) :
    Prop where
  nodup : xs.Nodup
  new : ∀ i ∈ xs, i ∉ seen
  mem : ∀ i, i ∈ seen' ↔ i ∈ seen ∨ i ∈ xs

theorem Adds.append {κ : IdentKind} {seen seen' seen'' : IdentSet κ} {xs ys : List (Ident κ)}
    (h : Adds seen xs seen') (h' : Adds seen' ys seen'') : Adds seen (xs ++ ys) seen'' where
  nodup := List.nodup_append.2 ⟨h.nodup, h'.nodup, fun i hi j hj hij =>
    h'.new j hj ((h.mem j).2 (.inr (hij ▸ hi)))⟩
  new i hi := by
    rcases List.mem_append.1 hi with hi | hi
    · exact h.new i hi
    · exact fun hseen => h'.new i hi ((h.mem i).2 (.inl hseen))
  mem i := by rw [h'.mem, h.mem, List.mem_append, or_assoc]

theorem adds_of_foldlM {γ : Type} (step : IdentSet .inst → γ → Except Fault (IdentSet .inst))
    {ids : γ → List InstId} (hstep : ∀ seen x seen', step seen x = .ok seen' →
      Adds seen (ids x) seen') {xs : List γ} {seen seen' : IdentSet .inst}
    (h : xs.foldlM step seen = .ok seen') : Adds seen (xs.flatMap ids) seen' := by
  refine foldlM_induction h (fun done seen' => Adds seen (done.flatMap ids) seen')
    ⟨List.nodup_nil, by simp, by simp⟩ ?_
  intro done now x now' _ hx hdone
  rw [List.flatMap_append, List.flatMap_singleton]
  exact hdone.append (hstep now x now' hx)

theorem checkInstr_adds {seen seen' : IdentSet .inst} {i : Instr}
    (h : p.checkInstr seen i = .ok seen') : Adds seen [i.id] seen' := by
  rw [checkInstr] at h
  split at h
  · cases h
  · next hnew =>
    rw [bind_eq_ok] at h
    obtain ⟨⟨⟩, -, h⟩ := h
    cases h
    refine ⟨by simp, fun j hj => ?_, fun j => ?_⟩
    · exact List.mem_singleton.1 hj ▸ hnew
    · rw [IdentSet.mem_insert, List.mem_singleton, or_comm]

theorem checkBlock_adds {seen seen' : IdentSet .inst} {e : BlockId × Block}
    (h : p.checkBlock c seen e = .ok seen') : Adds seen (e.2.insts.map Instr.id) seen' := by
  rw [List.map_eq_flatMap]
  rw [checkBlock] at h
  split at h
  · cases h
  · exact adds_of_foldlM p.checkInstr (fun _ _ _ hi => checkInstr_adds hi) h

theorem checkContext_adds {seen seen' : IdentSet .inst} (h : p.checkContext seen c = .ok seen') :
    Adds seen (c.blocks.entries.flatMap fun e => e.2.insts.map Instr.id) seen' := by
  have hrest := checkContext_blocks h
  rw [bind_eq_ok] at hrest
  obtain ⟨⟨⟩, -, hblocks⟩ := hrest
  exact adds_of_foldlM (p.checkBlock c) (fun _ _ _ hb => checkBlock_adds hb) hblocks

/-- No two instructions bear one name. -/
theorem checkNames_nodup (h : p.checkNames = .ok ()) : (p.instrs.map Instr.id).Nodup := by
  rw [checkNames, bind_eq_ok] at h
  obtain ⟨⟨⟩, -, h⟩ := h
  rw [bind_eq_ok] at h
  obtain ⟨⟨⟩, hcontexts, -⟩ := h
  obtain ⟨seen, hseen⟩ := discard_eq_ok hcontexts
  have hadds := (adds_of_foldlM p.checkContext (fun _ _ _ hc => checkContext_adds hc) hseen).nodup
  suffices p.instrs.map Instr.id = p.contexts.values.flatMap fun c =>
      c.blocks.entries.flatMap fun e => e.2.insts.map Instr.id by rwa [this]
  simp [instrs, List.map_flatMap, Table.values, List.flatMap_map]

theorem eq_of_nodup_flatMap {α β : Type} {f : α → List β} {as : List α} {a a' : α} {b : β}
    (h : (as.flatMap f).Nodup) (ha : a ∈ as) (ha' : a' ∈ as) (hb : b ∈ f a) (hb' : b ∈ f a') :
    a = a' := by
  by_contra hne
  have : Std.Symm (Function.onFun List.Disjoint f) := ⟨fun _ _ h _ ha hb => h hb ha⟩
  exact (List.nodup_flatMap.1 h).2.forall ha ha' hne hb hb'

/-- A name belongs to one place of the program. -/
theorem eq_place_of_id (h : (p.instrs.map Instr.id).Nodup) {k' : ContextId} {c' : Context}
    {b' : BlockId} {block' : Block} {i i' : Nat} {inst inst' : Instr}
    (hc : p.contexts.get? k = some c) (hc' : p.contexts.get? k' = some c')
    (hb : c.blocks.get? b = some block) (hb' : c'.blocks.get? b' = some block')
    (hi : block.insts[i]? = some inst) (hi' : block'.insts[i']? = some inst')
    (hid : inst.id = inst'.id) : k = k' ∧ b = b' ∧ i = i' := by
  have hnodup : (p.contexts.entries.flatMap fun e =>
      e.2.blocks.entries.flatMap fun e => e.2.insts.map Instr.id).Nodup := by
    simpa [instrs, List.map_flatMap, Table.values, List.flatMap_map] using h
  have hc := Table.mem_entries.2 hc
  have hb := Table.mem_entries.2 hb
  have hb' := Table.mem_entries.2 hb'
  have hmem : inst.id ∈ block.insts.map Instr.id :=
    List.mem_map_of_mem (List.mem_of_getElem? hi)
  have hmem' : inst.id ∈ block'.insts.map Instr.id :=
    hid ▸ List.mem_map_of_mem (List.mem_of_getElem? hi')
  cases eq_of_nodup_flatMap hnodup hc (Table.mem_entries.2 hc')
    (List.mem_flatMap.2 ⟨_, hb, hmem⟩) (List.mem_flatMap.2 ⟨_, hb', hmem'⟩)
  have hnodup := (List.nodup_flatMap.1 hnodup).1 _ hc
  cases eq_of_nodup_flatMap hnodup hb hb' hmem hmem'
  refine ⟨rfl, rfl, ?_⟩
  obtain ⟨hlt, -⟩ := List.getElem?_eq_some_iff.1 hi
  refine (List.getElem?_inj (by simpa using hlt) ((List.nodup_flatMap.1 hnodup).1 _ hb)).1 ?_
  simp [hi, hi', hid]

/-- Linking guarantees all of this. -/
theorem linked_of_link {p₀ : Program} (h : p₀.link = .ok p) (hl : Layout.ofProgram p = .ok l)
    (hown : p.OwnNames) : p.Linked l := by
  obtain ⟨hnames, l', hl', hshape, -⟩ := link_eq_ok h
  cases hl.symm.trans hl'
  obtain ⟨hroot, hcontexts⟩ := checkNames_eq_ok hnames
  refine ⟨hown, Layout.lists_of_ofProgram hl, fun hc => ?_, hroot,
    fun hc => (hcontexts _ (Table.mem_values_of_get? hc)).parent,
    fun hc => (hcontexts _ (Table.mem_values_of_get? hc)).top,
    fun hc => (hcontexts _ (Table.mem_values_of_get? hc)).entry, fun hc hb => ?_,
    fun hc hb hi hf => ?_,
    fun hc => hshape _ (Table.mem_values_of_get? hc), checkNames_nodup hnames⟩
  · rw [Layout.ofProgram, bind_eq_ok] at hl
    obtain ⟨_, -, hl⟩ := hl
    rw [bind_eq_ok] at hl
    obtain ⟨order, horder, -⟩ := hl
    exact hown.resolved_of_visitOrder horder hc
  · exact ((hcontexts _ (Table.mem_values_of_get? hc)).blocks _ (Table.mem_entries.2 hb)).1
  · exact checkOperation_callee
      (((hcontexts _ (Table.mem_values_of_get? hc)).blocks _ (Table.mem_entries.2 hb)).2 _ hi) hf

namespace Linked

variable (h : p.Linked l)

include h

/-! ## Functions -/

theorem functionRootFrom (hc : p.contexts.get? k = some c) :
    p.functionRootFrom p.climbBound k = .ok (l.functionRoot k) := by
  have := h.lists.root c (Table.mem_values_of_get? hc)
  rwa [h.own k c hc] at this

theorem functionRoot_of_enclosing {parent : ContextId} (hc : p.contexts.get? k = some c)
    (henc : c.enclosing? = some parent) : l.functionRoot k = l.functionRoot parent := by
  have hparent : c.parent = some parent := by
    cases hkind : c.kind <;> simp_all [Context.enclosing?]
  obtain ⟨d, hd⟩ := h.parent hc hparent
  have hroot := functionRootFrom_of_enclosing hc henc (h.functionRootFrom hc)
  exact Except.ok.inj (hroot.symm.trans (h.functionRootFrom hd))

theorem functionRoot_of_isFunction (hc : p.contexts.get? k = some c)
    (hfun : c.isFunction = true) : l.functionRoot k = k := by
  have henc : c.enclosing? = none := by
    cases hkind : c.kind <;> simp_all [Context.enclosing?, Context.isFunction]
  have hroot := functionRootFrom_self (n := p.contexts.size) hc henc
  exact Except.ok.inj ((h.functionRootFrom hc).symm.trans hroot)

theorem functionRoot_exists (hc : p.contexts.get? k = some c) :
    ∃ d, p.contexts.get? (l.functionRoot k) = some d ∧ d.isFunction = true := by
  obtain ⟨d, hd, henc⟩ := enclosing?_of_functionRootFrom (h.functionRootFrom hc)
  refine ⟨d, hd, ?_⟩
  cases hkind : d.kind with
  | function => simp [Context.isFunction, hkind]
  | iteration =>
    simp only [Context.enclosing?, hkind] at henc
    exact h.top hd henc

theorem functionRoot_of_callee {g : ContextId} {inst : Instr} (hinst : p.Contains l f inst)
    (hg : inst.op.callee? = some g) : l.functionRoot g = g := by
  obtain ⟨k, c, b, block, hc, -, hb, hinst⟩ := hinst
  obtain ⟨d, hd, hfun⟩ := h.callee hc hb hinst hg
  exact h.functionRoot_of_isFunction hd hfun

/-! ## Blocks -/

theorem owner_spec (hk : l.owner? f b = some k) :
    ∃ c, p.contexts.get? k = some c ∧ l.functionRoot k = f ∧
      ∃ block, c.blocks.get? b = some block := by
  obtain ⟨c, hc, rfl, hroot, hb⟩ := h.lists.owner_from hk
  have hget := h.own.mem_values.1 hc
  refine ⟨c, hget, ?_, Table.mem_keys.1 hb⟩
  exact Except.ok.inj ((h.functionRootFrom hget).symm.trans hroot)

theorem owner_exists (hc : p.contexts.get? k = some c) (hb : c.blocks.get? b = some block) :
    ∃ o, l.owner? (l.functionRoot k) b = some o := by
  have hroot := h.functionRootFrom hc
  rw [← h.own k c hc] at hroot
  have hsome := h.lists.owner_to c (Table.mem_values_of_get? hc) _ hroot b
    (Table.mem_keys.2 ⟨_, hb⟩)
  rw [h.own k c hc] at hsome
  exact Option.isSome_iff_exists.1 hsome

/-! ## Loops -/

omit h

mutual

theorem checkLoop_of_checkRegion {covered covered' : IdentSet .block} :
    ∀ {r : Region}, p.checkRegion c covered r = .ok covered' →
      ∀ info ∈ r.loops, ∃ body, p.checkLoop c info body = .ok ()
  | .block b, _ => by simp [Region.loops]
  | .loop info body, hr => by
    rw [checkRegion, bind_eq_ok] at hr
    obtain ⟨⟨⟩, hloop, hbody⟩ := hr
    rw [Region.loops, List.forall_mem_cons]
    exact ⟨⟨body, hloop⟩, checkLoop_of_checkRegions hbody⟩

theorem checkLoop_of_checkRegions {covered covered' : IdentSet .block} :
    ∀ {rs : List Region}, p.checkRegions c covered rs = .ok covered' →
      ∀ info ∈ Region.loopsAll rs, ∃ body, p.checkLoop c info body = .ok ()
  | [], _ => by simp [Region.loopsAll]
  | r :: rs, hrs => by
    rw [checkRegions, bind_eq_ok] at hrs
    obtain ⟨between, hr, hrs⟩ := hrs
    rw [Region.loopsAll, List.forall_mem_append]
    exact ⟨checkLoop_of_checkRegion hr, checkLoop_of_checkRegions hrs⟩

end

include h

theorem shape_spec (hc : p.contexts.get? k = some c) :
    p.checkEdges l c = .ok () ∧
      (∃ covered, p.checkRegions c ∅ c.regions = .ok covered ∧
        ∀ b ∈ c.blocks.keys, b ∈ covered) ∧ checkBounds c = .ok () := by
  have hshape := h.shape hc
  rw [checkShape, bind_eq_ok] at hshape
  obtain ⟨⟨⟩, hedges, hshape⟩ := hshape
  rw [bind_eq_ok] at hshape
  obtain ⟨covered, hcovered, hshape⟩ := hshape
  cases hfind : c.blocks.keys.find? fun b => !covered.contains b with
  | some missing => simp [hfind] at hshape
  | none =>
    simp only [hfind] at hshape
    refine ⟨hedges, ⟨covered, hcovered, fun b hb => ?_⟩, hshape⟩
    have := List.find?_eq_none.1 hfind b hb
    simpa [IdentSet.contains_iff] using this

theorem checkLoop {info : Loop} (hc : p.contexts.get? k = some c) (hinfo : info ∈ c.loops) :
    ∃ body, p.checkLoop c info body = .ok () := by
  obtain ⟨-, ⟨covered, hcovered, -⟩, -⟩ := h.shape_spec hc
  exact checkLoop_of_checkRegions hcovered info hinfo

/-- An iteration of a terminated peel starts at its header, which for the first one is the header
of the loop. -/
theorem iteration_spec {info : Loop} {peel : PeelAttempt} {i : Nat} {next : ContextId}
    (hc : p.contexts.get? k = some c) (hinfo : info ∈ c.loops)
    (hpeel : info.terminatedPeel? = some peel) (hi : peel.iterations[i]? = some next) :
    ∃ d latch, p.contexts.get? next = some d ∧ d.kind = .iteration info.id i d.entry latch ∧
      d.parent = some k ∧ (i = 0 → d.entry = info.header) := by
  obtain ⟨body, hloop⟩ := h.checkLoop hc hinfo
  simp only [Program.checkLoop, bind_eq_ok, hpeel, throw_eq_error, error_bind, ite_error_eq_ok,
    checkPeel, ite_else_error_eq_ok] at hloop
  obtain ⟨preheader, -, -, -, -, ⟨⟩, hiterations, -⟩ := hloop
  have hit := forM_eq_ok.1 hiterations (next, i) (List.mem_zipIdx_iff_getElem?.2 hi)
  rw [checkIteration, bind_eq_ok] at hit
  obtain ⟨d, hd, hit⟩ := hit
  rw [context_eq_ok] at hd
  obtain ⟨-, -, hbounds⟩ := h.shape_spec hd
  cases hkind : d.kind with
  | function => simp [hkind] at hit
  | iteration loop index header latch =>
    simp only [hkind, throw_eq_error, ite_else_error_eq_ok, ite_error_eq_ok] at hit
    obtain ⟨⟨rfl, rfl, hparent⟩, hfirst, -⟩ := hit
    simp only [checkBounds, hkind, throw_eq_error, error_bind, ite_error_eq_ok, not_not] at hbounds
    obtain ⟨hentry, -⟩ := hbounds
    refine ⟨d, latch, hd, by rw [hkind, hentry], by rw [hparent, h.own k c hc], fun h0 => ?_⟩
    rw [hentry]
    by_contra hne
    exact hfirst ⟨h0, hne⟩

/-- The first iteration of a terminated peel. -/
theorem first_iteration {info : Loop} {peel : PeelAttempt} (hc : p.contexts.get? k = some c)
    (hinfo : info ∈ c.loops) (hpeel : info.terminatedPeel? = some peel) :
    ∃ next, peel.iterations[0]? = some next := by
  obtain ⟨body, hloop⟩ := h.checkLoop hc hinfo
  simp only [Program.checkLoop, bind_eq_ok, hpeel, throw_eq_error, error_bind, ite_error_eq_ok,
    checkPeel, ite_else_error_eq_ok] at hloop
  obtain ⟨preheader, -, -, -, hne, -⟩ := hloop
  cases hits : peel.iterations with
  | nil => simp [hits] at hne
  | cons next rest => exact ⟨next, rfl⟩

/-! ## Edges -/

theorem edgeOwnerFrom_spec {n : Nat} {target : BlockId} {o : ContextId}
    (hc : p.contexts.get? k = some c) (ho : l.edgeOwnerFrom p target n k = some o) :
    l.functionRoot o = l.functionRoot k ∧ (∃ d, p.contexts.get? o = some d) ∧
      l.owns o target = true := by
  induction n generalizing k c with
  | zero => cases ho
  | succ n ih =>
    rw [Layout.edgeOwnerFrom] at ho
    split at ho
    · next howns =>
      cases ho
      exact ⟨rfl, ⟨c, hc⟩, howns⟩
    · rw [hc] at ho
      cases henc : c.enclosing? with
      | none => simp [henc] at ho
      | some parent =>
        simp only [henc] at ho
        have hparent : c.parent = some parent := by
          cases hkind : c.kind <;> simp_all [Context.enclosing?]
        obtain ⟨d, hd⟩ := h.parent hc hparent
        rw [h.functionRoot_of_enclosing hc henc]
        exact ih hd ho

/-- The owner of a block at the start of a peel is found in the first iteration. -/
theorem owner_of_owns {target : BlockId} (hc : p.contexts.get? k = some c)
    (howns : l.owns k target = true) : ∃ o, l.owner? (l.functionRoot k) target = some o := by
  rw [Layout.owns, Bool.or_eq_true, decide_eq_true_eq] at howns
  rcases howns with howner | hheader
  · exact ⟨k, howner⟩
  · obtain ⟨loop, hloop⟩ := Option.isSome_iff_exists.1 hheader
    obtain ⟨d, hd, rfl, info, hinfo, peel, hpeel, rfl, -⟩ := h.lists.header_from hloop
    have hd := h.own.mem_values.1 hd
    obtain ⟨next, hnext⟩ := h.first_iteration hd hinfo hpeel
    obtain ⟨e, latch, he, hkind, hparent, hentry⟩ := h.iteration_spec hd hinfo hpeel hnext
    have henc : e.enclosing? = some d.id := by
      simp only [Context.enclosing?, hkind, hparent]
    obtain ⟨block, hblock⟩ := h.entry he
    rw [hentry rfl] at hblock
    rw [← h.functionRoot_of_enclosing he henc]
    exact h.owner_exists he hblock

/-- Every edge leads into a context. -/
theorem edgeOwner_exists {s : Successor} (hc : p.contexts.get? k = some c)
    (hb : c.blocks.get? b = some block) (hs : s ∈ block.succs) :
    ∃ o, l.edgeOwner? p k s.target = some o := by
  obtain ⟨hedges, -⟩ := h.shape_spec hc
  have hedge := forM_eq_ok.1 (forM_eq_ok.1 hedges block (Table.mem_values_of_get? hb)) s hs
  rw [ite_else_error_eq_ok, h.own k c hc] at hedge
  exact Option.isSome_iff_exists.1 hedge.1

/-- Every edge leads to a block of the same function. -/
theorem edge_owner {s : Successor} (hc : p.contexts.get? k = some c)
    (hb : c.blocks.get? b = some block) (hs : s ∈ block.succs) :
    ∃ o, l.owner? (l.functionRoot k) s.target = some o := by
  obtain ⟨o, ho⟩ := h.edgeOwner_exists hc hb hs
  obtain ⟨hroot, ⟨d, hd⟩, howns⟩ := h.edgeOwnerFrom_spec hc ho
  rw [← hroot]
  exact h.owner_of_owns hd howns

/-! ## Iterations and instructions -/

omit h

mutual

theorem mem_entered {info : Loop} {peel : PeelAttempt} {next : ContextId}
    (hpeel : info.peel = some peel) (hnext : next ∈ peel.iterations) :
    ∀ {r : Region}, info ∈ r.loops → .ok next ∈ entered c r
  | .block b, hinfo => by simp [Region.loops] at hinfo
  | .loop info' body, hinfo => by
    rw [entered, List.mem_append]
    rw [Region.loops, List.mem_cons] at hinfo
    rcases hinfo with rfl | hinfo
    · exact .inl (List.mem_map.2 ⟨next, by simpa [hpeel] using hnext, rfl⟩)
    · exact .inr (mem_enteredAll hpeel hnext hinfo)

theorem mem_enteredAll {info : Loop} {peel : PeelAttempt} {next : ContextId}
    (hpeel : info.peel = some peel) (hnext : next ∈ peel.iterations) :
    ∀ {rs : List Region}, info ∈ Region.loopsAll rs → .ok next ∈ enteredAll c rs
  | [], hinfo => by simp [Region.loopsAll] at hinfo
  | r :: rs, hinfo => by
    rw [enteredAll, List.mem_append]
    rw [Region.loopsAll, List.mem_append] at hinfo
    exact hinfo.imp (mem_entered hpeel hnext) (mem_enteredAll hpeel hnext)

end

include h

theorem iteration_exists {loop : LoopId} {peel : PeelAttempt} {next : ContextId}
    (hpeel : l.peel? k loop = some peel) (hnext : next ∈ peel.iterations) :
    ∃ d, p.contexts.get? next = some d := by
  obtain ⟨c, hc, -, info, hinfo, -, hpeel⟩ := h.lists.peel_from hpeel
  obtain ⟨next', d, heq, hd⟩ := h.resolved (h.own.mem_values.1 hc) _
    (mem_enteredAll hpeel hnext hinfo)
  cases heq
  exact ⟨d, hd⟩

omit h in
theorem mem_instructions {e : BlockId × Nat × Instr} :
    e ∈ c.instructions ↔ ∃ b block, c.blocks.get? b = some block ∧ block.id = e.1 ∧
      block.insts[e.2.1]? = some e.2.2 := by
  obtain ⟨b, i, inst⟩ := e
  rw [Context.instructions, List.mem_flatMap]
  constructor
  · rintro ⟨block, hblock, he⟩
    obtain ⟨b', hb'⟩ := Table.mem_values.1 hblock
    obtain ⟨i', hi', heq⟩ := List.mem_mapIdx.1 he
    cases heq
    exact ⟨b', block, hb', rfl, List.getElem?_eq_getElem hi'⟩
  · rintro ⟨b', block, hb', rfl, hi⟩
    obtain ⟨hi', hinst⟩ := List.getElem?_eq_some_iff.1 hi
    exact ⟨block, Table.mem_values_of_get? hb', List.mem_mapIdx.2 ⟨i, hi', by rw [hinst]⟩⟩

/-- The instruction found where the layout says it stands. -/
theorem place_spec {i : InstId} {place : Place} (hplace : l.places.get? i = some place) :
    ∃ c block inst, p.contexts.get? place.context = some c ∧
      c.blocks.get? place.block = some block ∧ block.insts[place.index]? = some inst ∧
        inst.id = i := by
  obtain ⟨c, hc, e, he, rfl, rfl⟩ := h.lists.place_from hplace
  obtain ⟨b, block, hb, hid, hi⟩ := mem_instructions.1 he
  have hget := h.own.mem_values.1 hc
  rw [h.block_id hget hb] at hid
  exact ⟨c, block, e.2.2, hget, hid ▸ hb, hi, rfl⟩

/-- The layout says where an instruction stands. -/
theorem place_exists {inst : Instr} (hc : p.contexts.get? k = some c)
    (hb : c.blocks.get? b = some block) (hinst : inst ∈ block.insts) :
    ∃ place, l.places.get? inst.id = some place := by
  obtain ⟨i, hi⟩ := List.mem_iff_getElem?.1 hinst
  have := h.lists.place_to c (Table.mem_values_of_get? hc) (block.id, i, inst)
    (mem_instructions.2 ⟨b, block, hb, rfl, hi⟩)
  exact Option.isSome_iff_exists.1 this

end Linked

end Program
end ByteTrust
