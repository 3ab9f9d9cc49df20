import ByteTrust.Proofs.Program.Shape

/-!
# Programs that are filed well

A program is `Filed` when every object, context and block stands under its own name, no two
instructions share one, the regions of each context name each of its blocks once, and each loop
lists the blocks of its body. Linking such a program may fail, but not for one of these reasons
(`Filed.raises_link`): no instruction is found twice, no loop is found to list other blocks than its
body has, and where a block is not found there is none (`Fault.Elsewhere`).

The argument goes through the checks of a link one by one. `Raises` says what the faults of a check
are like, and there is one rule for each way to build a check from others.
-/

namespace ByteTrust

/-! ## Faults of computations -/

/-- Every fault of the computation has the property. -/
def Raises {α : Type} (P : Fault → Prop) (x : Except Fault α) : Prop := ∀ f, x = .error f → P f

section Raises

variable {α β γ : Type} {P : Fault → Prop} {x : Except Fault α}

theorem raises_ok (a : α) : Raises P (.ok a : Except Fault α) := fun _ h => by cases h

theorem raises_error {f : Fault} (h : P f) : Raises P (.error f : Except Fault α) := by
  rintro _ ⟨⟩
  exact h

theorem Raises.bind {g : α → Except Fault β} (hx : Raises P x)
    (hg : ∀ a, x = .ok a → Raises P (g a)) : Raises P (x >>= g) := by
  intro f hf
  cases x with
  | error e => exact hx f (by cases hf; rfl)
  | ok a => exact hg a rfl f hf

theorem Raises.discard (hx : Raises P x) : Raises P (discard x : Except Fault Unit) := by
  intro f hf
  cases x with
  | error e => exact hx f (by cases hf; rfl)
  | ok a => cases hf

/-- A guard, and what comes after it. -/
theorem Raises.guard {Q : Prop} [Decidable Q] {f : Fault} (hf : Q → P f) (hx : ¬ Q → Raises P x) :
    Raises P (if Q then .error f else x) := by
  split
  · next hq => exact raises_error (hf hq)
  · next hq => exact hx hq

theorem Raises.guardElse {Q : Prop} [Decidable Q] {f : Fault} (hf : ¬ Q → P f)
    (hx : Q → Raises P x) : Raises P (if Q then x else .error f) := by
  split
  · next hq => exact hx hq
  · next hq => exact raises_error (hf hq)

theorem raises_forM {xs : List γ} {check : γ → Except Fault PUnit}
    (h : ∀ a ∈ xs, Raises P (check a)) : Raises P (xs.forM check) := by
  induction xs with
  | nil => exact raises_ok _
  | cons a xs ih =>
    obtain ⟨ha, hxs⟩ := List.forall_mem_cons.1 h
    exact ha.bind fun _ _ => ih hxs

/-- A fold raises what its steps raise, as long as what they need of the accumulator is kept. -/
theorem raises_foldlM_of {xs : List γ} {step : α → γ → Except Fault α} {I : α → Prop}
    (h : ∀ a, ∀ x ∈ xs, I a → Raises P (step a x))
    (hkeeps : ∀ a, ∀ x ∈ xs, ∀ a', I a → step a x = .ok a' → I a') {a : α} (ha : I a) :
    Raises P (xs.foldlM step a) := by
  induction xs generalizing a with
  | nil => exact raises_ok a
  | cons x xs ih =>
    rw [List.foldlM_cons]
    refine (h a x List.mem_cons_self ha).bind fun a' ha' => ?_
    exact ih (fun a y hy => h a y (List.mem_cons_of_mem x hy))
      (fun a y hy => hkeeps a y (List.mem_cons_of_mem x hy))
      (hkeeps a x List.mem_cons_self a' ha ha')

theorem raises_foldlM {xs : List γ} {step : α → γ → Except Fault α}
    (h : ∀ a, ∀ x ∈ xs, Raises P (step a x)) (a : α) : Raises P (xs.foldlM step a) :=
  raises_foldlM_of (I := fun _ => True) (fun a x hx _ => h a x hx) (fun _ _ _ _ _ _ => trivial)
    trivial

/-- A fold that collects names raises what its steps raise on names that are new. -/
theorem raises_foldlM_adds {xs : List γ} {step : IdentSet .inst → γ → Except Fault (IdentSet .inst)}
    {ids : γ → List InstId}
    (hadds : ∀ seen x seen', step seen x = .ok seen' → Program.Adds seen (ids x) seen')
    (hstep : ∀ seen, ∀ x ∈ xs, (ids x).Nodup → (∀ i ∈ ids x, i ∉ seen) → Raises P (step seen x))
    {seen : IdentSet .inst} (hnodup : (xs.flatMap ids).Nodup)
    (hnew : ∀ i ∈ xs.flatMap ids, i ∉ seen) : Raises P (xs.foldlM step seen) := by
  induction xs generalizing seen with
  | nil => exact raises_ok seen
  | cons x xs ih =>
    rw [List.flatMap_cons] at hnodup hnew
    obtain ⟨hx, hxs, hdisjoint⟩ := List.nodup_append.1 hnodup
    rw [List.forall_mem_append] at hnew
    rw [List.foldlM_cons]
    refine (hstep seen x List.mem_cons_self hx hnew.1).bind fun seen' hseen' => ?_
    refine ih (fun seen y hy => hstep seen y (List.mem_cons_of_mem x hy)) hxs fun i hi hmem => ?_
    rcases ((hadds seen x seen' hseen').mem i).1 hmem with hmem | hmem
    · exact hnew.2 i hi hmem
    · exact hdisjoint i hmem i hi rfl

end Raises

open Region

/-- The fault is not about how the program is filed: no instruction is there twice, a block that is
not found is not there, and no loop lists other blocks than its body has. -/
def Fault.Elsewhere (p : Program) : Fault → Prop
  | .unknownInstr _ => False
  | .unknownBlock k b => ∃ c, p.contexts.get? k = some c ∧ c.blocks.get? b = none
  | .malformedLoop _ _ .blocksDisagree => False
  | _ => True

namespace Program

/-- Everything stands under its own name, no two instructions share one, the regions name each block
once, and the loops list the blocks of their bodies. -/
structure Filed (p : Program) : Prop where
  objects : ∀ o object, p.objects.get? o = some object → object.id = o
  contexts : p.OwnNames
  blocks : p.OwnBlocks
  insts : (p.instrs.map Instr.id).Nodup
  regions : ∀ k c, p.contexts.get? k = some c → (blocksAll c.regions).Perm c.blocks.keys
  loops : ∀ k c, p.contexts.get? k = some c → ∀ e ∈ bodiesAll c.regions,
    IdentSet.ofList (blocksAll e.2) = e.1.blocks

variable {p : Program} {l : Layout} {k : ContextId} {c : Context} {b : BlockId}

/-! ## Names -/

theorem raises_context {P : Fault → Prop} (hP : ∀ o, P (.unknownContext o)) (k : ContextId) :
    Raises P (p.context k) := by
  unfold context
  split
  · exact raises_ok _
  · exact raises_error (hP k)

theorem raises_object (o : ObjectId) : Raises (Fault.Elsewhere p) (p.object o) := by
  unfold object
  split
  · exact raises_ok _
  · exact raises_error trivial

theorem raises_block_of {P : Fault → Prop} (hP : c.blocks.get? b = none → P (.unknownBlock c.id b)) :
    Raises P (c.block b) := by
  unfold Context.block
  split
  · exact raises_ok _
  · next hb => exact raises_error (hP hb)

theorem raises_block (hc : p.contexts.get? c.id = some c) (b : BlockId) :
    Raises (Fault.Elsewhere p) (c.block b) := raises_block_of fun hb => ⟨c, hc, hb⟩

theorem raises_checkFunction (k : ContextId) : Raises (Fault.Elsewhere p) (p.checkFunction k) := by
  rw [checkFunction]
  refine (raises_context (fun _ => trivial) k).bind fun c _ => ?_
  split
  · exact raises_ok _
  · exact raises_error trivial

theorem raises_checkOperation (op : Operation) :
    Raises (Fault.Elsewhere p) (p.checkOperation op) := by
  unfold checkOperation
  split
  · exact (raises_object _).discard
  · exact (raises_object _).discard
  · split
    · exact raises_checkFunction _
    · exact raises_ok _
  · exact raises_ok _

theorem raises_checkInstr {seen : IdentSet .inst} {i : Instr} (h : i.id ∉ seen) :
    Raises (Fault.Elsewhere p) (p.checkInstr seen i) := by
  rw [checkInstr]
  refine Raises.guard (fun hseen => absurd hseen h) fun _ => ?_
  exact (raises_checkOperation i.op).bind fun _ _ => raises_ok _

theorem raises_checkBlock {e : BlockId × Block} (hid : e.2.id = e.1) {seen : IdentSet .inst}
    (hnodup : (e.2.insts.map Instr.id).Nodup) (hnew : ∀ i ∈ e.2.insts.map Instr.id, i ∉ seen) :
    Raises (Fault.Elsewhere p) (p.checkBlock c seen e) := by
  rw [checkBlock]
  refine Raises.guard (fun hne => absurd hid.symm hne) fun _ => ?_
  rw [List.map_eq_flatMap] at hnodup hnew
  refine raises_foldlM_adds (fun _ _ _ hi => checkInstr_adds hi) ?_ hnodup hnew
  exact fun seen i _ _ hi => raises_checkInstr (hi i.id (List.mem_singleton_self _))

theorem raises_checkContext (hc : p.contexts.get? c.id = some c)
    (hids : ∀ e ∈ c.blocks.entries, e.2.id = e.1) {seen : IdentSet .inst}
    (hnodup : (c.blocks.entries.flatMap fun e => e.2.insts.map Instr.id).Nodup)
    (hnew : ∀ i ∈ c.blocks.entries.flatMap fun e => e.2.insts.map Instr.id, i ∉ seen) :
    Raises (Fault.Elsewhere p) (p.checkContext seen c) := by
  have hblocks : Raises (Fault.Elsewhere p) (c.blocks.entries.foldlM (p.checkBlock c) seen) :=
    raises_foldlM_adds (fun _ _ _ hb => checkBlock_adds hb)
      (fun seen e he hnodup hnew => raises_checkBlock (hids e he) hnodup hnew) hnodup hnew
  have hrest := (raises_block hc c.entry).discard.bind fun _ _ => hblocks
  rw [checkContext]
  split
  · exact (raises_context (fun _ => trivial) _).discard.bind fun _ _ => hrest
  · split
    · exact hrest
    · exact raises_error trivial

theorem Filed.raises_checkNames (h : p.Filed) : Raises (Fault.Elsewhere p) p.checkNames := by
  have hnodup := h.insts
  rw [show p.instrs.map Instr.id = p.contexts.values.flatMap fun c =>
      c.blocks.entries.flatMap fun e => e.2.insts.map Instr.id by
    simp [instrs, List.map_flatMap, Table.values, List.flatMap_map]] at hnodup
  rw [checkNames]
  refine (raises_checkFunction p.root).bind fun _ _ => Raises.bind ?_ fun _ _ => ?_
  · refine (raises_foldlM_adds (fun _ _ _ hc => checkContext_adds hc) ?_ hnodup
      fun i _ => IdentSet.not_mem_empty i).discard
    intro seen c hc hnodup hnew
    have hget := h.contexts.mem_values.1 hc
    exact raises_checkContext hget
      (fun e he => h.blocks _ c e.1 e.2 hget (Table.mem_entries.1 he)) hnodup hnew
  · refine raises_forM fun cond _ => ?_
    split
    · exact raises_checkFunction _
    · exact raises_ok _

/-! ## Layouts -/

section Layout

variable {P : Fault → Prop} (hP : ∀ o, P (.unknownContext o))

include hP

theorem raises_functionRootFrom (n : Nat) (k : ContextId) :
    Raises P (p.functionRootFrom n k) := by
  induction n generalizing k with
  | zero => exact raises_error (hP k)
  | succ n ih =>
    rw [functionRootFrom]
    refine (raises_context hP k).bind fun c _ => ?_
    split
    · exact ih _
    · exact raises_ok _

theorem raises_callDepthFrom (n : Nat) (k : ContextId) (depth : Nat) :
    Raises P (p.callDepthFrom n k depth) := by
  induction n generalizing k depth with
  | zero => exact raises_error (hP k)
  | succ n ih =>
    rw [callDepthFrom]
    refine (raises_context hP k).bind fun c _ => ?_
    split
    · exact raises_ok _
    · exact ih _ _

/-- Tables that cannot be drawn up miss a context. -/
theorem raises_addContext (l : Layout) (c : Context) : Raises P (Layout.addContext p l c) := by
  rw [Layout.addContext]
  refine (raises_functionRootFrom hP _ _).bind fun _ _ => ?_
  exact (raises_callDepthFrom hP _ _ _).bind fun _ _ => raises_ok _

end Layout

mutual

theorem raises_entered {P : Fault → Prop} (hblock : ∀ b, Raises P (c.block b)) :
    ∀ r : Region, ∀ child ∈ entered c r, Raises P child
  | .block b => by
    rw [entered]
    split
    · exact List.forall_mem_map.2 fun _ _ => raises_ok _
    · next fault hfault =>
      exact List.forall_mem_singleton.2 (raises_error (hblock b fault hfault))
  | .loop info body => by
    rw [entered, List.forall_mem_append]
    exact ⟨List.forall_mem_map.2 fun _ _ => raises_ok _, raises_enteredAll hblock body⟩

theorem raises_enteredAll {P : Fault → Prop} (hblock : ∀ b, Raises P (c.block b)) :
    ∀ rs : List Region, ∀ child ∈ enteredAll c rs, Raises P child
  | [] => by simp [enteredAll]
  | r :: rs => by
    rw [enteredAll, List.forall_mem_append]
    exact ⟨raises_entered hblock r, raises_enteredAll hblock rs⟩

end

theorem OwnNames.raises_visit (hown : p.OwnNames) (n : Nat) (visited : List ContextId)
    (hc : p.contexts.get? c.id = some c) : Raises (Fault.Elsewhere p) (p.visit n visited c) := by
  induction n generalizing visited c with
  | zero => exact raises_error trivial
  | succ n ih =>
    rw [visit]
    split
    · exact raises_ok _
    · refine raises_foldlM (fun visited child hchild => ?_) _
      refine (raises_enteredAll (raises_block hc) c.regions child hchild).bind fun k _ => ?_
      refine (raises_context (fun _ => trivial) k).bind fun d hd => ih visited ?_
      rw [context_eq_ok] at hd
      rwa [hown k d hd]

theorem OwnNames.raises_visitOrder (hown : p.OwnNames) :
    Raises (Fault.Elsewhere p) p.visitOrder := by
  have hfound (visited : List ContextId) (k : ContextId) : Raises (Fault.Elsewhere p)
      (p.context k >>= fun c => p.visit p.climbBound visited c) := by
    refine (raises_context (fun _ => trivial) k).bind fun c hc => hown.raises_visit _ visited ?_
    rw [context_eq_ok] at hc
    rwa [hown k c hc]
  rw [visitOrder]
  refine (raises_context (fun _ => trivial) p.root).bind fun c hc => ?_
  rw [context_eq_ok] at hc
  refine (hown.raises_visit _ [] (by rwa [hown p.root c hc])).bind fun visited _ => ?_
  refine Raises.bind (raises_foldlM (fun visited cond _ => ?_) visited) fun visited _ => ?_
  · split
    · exact hfound visited _
    · exact raises_ok _
  · refine Raises.bind (raises_foldlM (fun visited c hc => ?_) visited) fun _ _ => raises_ok _
    exact hown.raises_visit _ visited (hown.mem_values.1 hc)

theorem OwnNames.raises_ofProgram (hown : p.OwnNames) :
    Raises (Fault.Elsewhere p) (Layout.ofProgram p) := by
  rw [Layout.ofProgram]
  exact Raises.bind (raises_foldlM (fun l c _ => raises_addContext (fun _ => trivial) l c) _)
    fun l _ => hown.raises_visitOrder.bind fun _ _ => raises_ok _

/-! ## Regions -/

theorem raises_checkEdges (l : Layout) (c : Context) :
    Raises (Fault.Elsewhere p) (p.checkEdges l c) := by
  refine raises_forM fun b _ => raises_forM fun s _ => ?_
  split
  · exact raises_ok _
  · exact raises_error trivial

theorem raises_checkIteration (c : Context) (info : Loop) (i : Nat) (iteration : ContextId) :
    Raises (Fault.Elsewhere p) (p.checkIteration c info i iteration) := by
  rw [checkIteration]
  refine (raises_context (fun _ => trivial) iteration).bind fun d _ => ?_
  split
  · split
    · exact Raises.guard (fun _ => trivial) fun _ => raises_ok _
    · exact raises_error trivial
  · exact raises_error trivial

theorem raises_checkPeel (c : Context) (info : Loop) (body : List Region) (preheader : Block)
    (peel : PeelAttempt) : Raises (Fault.Elsewhere p) (p.checkPeel c info body preheader peel) := by
  rw [checkPeel]
  split
  · refine Raises.guard (fun _ => trivial) fun _ => ?_
    refine Raises.bind (raises_forM fun e _ => raises_checkIteration c info e.2 e.1) fun _ _ => ?_
    split
    · exact raises_ok _
    · exact raises_error trivial
  · exact raises_error trivial

theorem raises_checkBody (hc : p.contexts.get? c.id = some c) {info : Loop} {body : List Region}
    (hblocks : IdentSet.ofList (blocksAll body) = info.blocks) :
    Raises (Fault.Elsewhere p) (checkBody c info body) := by
  simp only [checkBody, throw_eq_error, error_bind]
  refine Raises.guard (fun hne => absurd hblocks hne) fun _ => ?_
  refine Raises.guardElse (fun _ => trivial) fun _ => ?_
  refine Raises.guardElse (fun _ => trivial) fun _ => ?_
  refine (raises_block hc _).bind fun header _ => ?_
  refine Raises.guard (fun _ => trivial) fun _ => Raises.guard (fun _ => trivial) fun _ => ?_
  refine (raises_block hc _).bind fun latch _ => ?_
  exact Raises.guardElse (fun _ => trivial) fun _ => raises_ok _

theorem raises_checkLoop (hc : p.contexts.get? c.id = some c) {info : Loop} {body : List Region}
    (hblocks : IdentSet.ofList (blocksAll body) = info.blocks) :
    Raises (Fault.Elsewhere p) (p.checkLoop c info body) := by
  rw [checkLoop]
  refine (raises_block hc _).bind fun preheader _ => Raises.guard (fun _ => trivial) fun _ => ?_
  split
  · exact raises_checkPeel c info body preheader _
  · exact raises_checkBody hc hblocks

mutual

theorem raises_checkRegion (hc : p.contexts.get? c.id = some c) {covered : IdentSet .block} :
    ∀ {r : Region}, r.blocks.Nodup → (∀ b ∈ r.blocks, b ∉ covered) →
      (∀ e ∈ r.bodies, IdentSet.ofList (blocksAll e.2) = e.1.blocks) →
      Raises (Fault.Elsewhere p) (p.checkRegion c covered r)
  | .block b, _, hnew, _ => by
    rw [checkRegion]
    refine (raises_block hc b).discard.bind fun _ _ => ?_
    refine Raises.guard (fun hseen => ?_) fun _ => raises_ok _
    exact absurd hseen (hnew b (List.mem_singleton_self b))
  | .loop info body, hnodup, hnew, hloops => by
    obtain ⟨hblocks, hloops⟩ := List.forall_mem_cons.1 hloops
    rw [checkRegion]
    exact (raises_checkLoop hc hblocks).bind fun _ _ => raises_checkRegions hc hnodup hnew hloops

theorem raises_checkRegions (hc : p.contexts.get? c.id = some c) {covered : IdentSet .block} :
    ∀ {rs : List Region}, (blocksAll rs).Nodup → (∀ b ∈ blocksAll rs, b ∉ covered) →
      (∀ e ∈ bodiesAll rs, IdentSet.ofList (blocksAll e.2) = e.1.blocks) →
      Raises (Fault.Elsewhere p) (p.checkRegions c covered rs)
  | [], _, _, _ => raises_ok covered
  | r :: rs, hnodup, hnew, hloops => by
    rw [blocksAll] at hnodup hnew
    rw [List.forall_mem_append] at hnew
    rw [bodiesAll, List.forall_mem_append] at hloops
    obtain ⟨hr, hrs, hdisjoint⟩ := List.nodup_append.1 hnodup
    rw [checkRegions]
    refine (raises_checkRegion hc hr hnew.1 hloops.1).bind fun covered' hcovered' => ?_
    refine raises_checkRegions hc hrs (fun b hb hmem => ?_) hloops.2
    rcases ((Linked.adds_of_checkRegion hcovered').mem b).1 hmem with hmem | hmem
    · exact hnew.2 b hb hmem
    · exact hdisjoint b hmem b hb rfl

end

theorem raises_checkBounds (hc : p.contexts.get? c.id = some c) :
    Raises (Fault.Elsewhere p) (checkBounds c) := by
  unfold checkBounds
  split
  · exact raises_ok _
  · refine Raises.guard (fun _ => trivial) fun _ => (raises_block hc _).bind fun latch _ => ?_
    exact Raises.guardElse (fun _ => trivial) fun _ => raises_ok _

theorem Filed.raises_checkShape (h : p.Filed) (hc : p.contexts.get? k = some c) (l : Layout) :
    Raises (Fault.Elsewhere p) (p.checkShape l c) := by
  have hperm := h.regions k c hc
  have hself : p.contexts.get? c.id = some c := by rwa [h.contexts k c hc]
  rw [checkShape]
  refine (raises_checkEdges l c).bind fun _ _ => Raises.bind ?_ fun covered hcovered => ?_
  · exact raises_checkRegions hself (hperm.nodup_iff.2 c.blocks.distinct)
      (fun b _ => IdentSet.not_mem_empty b) (h.loops k c hc)
  · split
    · next missing hmissing =>
      -- all blocks are covered, so none is missing
      have hmem := List.mem_of_find?_eq_some hmissing
      have hnot : missing ∉ covered := by
        simpa [← IdentSet.contains_iff] using List.find?_some hmissing
      exact absurd (((Linked.adds_of_checkRegions hcovered).mem missing).2
        (.inr (hperm.mem_iff.2 hmem))) hnot
    · exact raises_checkBounds hself

/-! ## Linking -/

variable {flag : ContextId → Context → Bool}
  {edges : ContextId → Context → Block → List Successor × List BlockId}

theorem elsewhere_dress {f : Fault} (h : f.Elsewhere (p.dress flag edges)) : f.Elsewhere p := by
  unfold Fault.Elsewhere at h ⊢
  split at h
  · exact h
  · obtain ⟨c, hc, hb⟩ := h
    rw [get?_dress, Option.map_eq_some_iff] at hc
    obtain ⟨c₁, hc₁, rfl⟩ := hc
    rw [Context.dress, Table.get?_mapValues, Option.map_eq_none_iff] at hb
    exact ⟨c₁, hc₁, hb⟩
  · exact h
  · exact h

theorem instrs_dress : (p.dress flag edges).instrs = p.instrs := by
  simp only [instrs, dress, Context.dress, Block.dress, Table.values, Table.mapValues,
    List.map_map, List.flatMap_map, Function.comp_def]

theorem Filed.dress (h : p.Filed) : (p.dress flag edges).Filed where
  objects := h.objects
  contexts := ownNames_dress.2 h.contexts
  blocks := ownBlocks_dress.2 h.blocks
  insts := by rw [instrs_dress]; exact h.insts
  regions k c hc := by
    rw [get?_dress, Option.map_eq_some_iff] at hc
    obtain ⟨c₁, hc₁, rfl⟩ := hc
    rw [Context.dress, Table.keys_mapValues]
    exact h.regions k c₁ hc₁
  loops k c hc := by
    rw [get?_dress, Option.map_eq_some_iff] at hc
    obtain ⟨c₁, hc₁, rfl⟩ := hc
    exact h.loops k c₁ hc₁

/-- A program that is filed well is not rejected for how it is filed. -/
theorem Filed.raises_link (h : p.Filed) : Raises (Fault.Elsewhere p) p.link := by
  rw [link]
  refine h.raises_checkNames.bind fun _ _ => ?_
  have hflags : p.inheritFlags.Filed := inheritFlags_eq_dress ▸ h.dress
  refine Raises.bind (fun f hf => ?_) fun l _ => Raises.bind (fun f hf => ?_) fun _ _ => raises_ok _
  · have := hflags.contexts.raises_ofProgram f hf
    rw [inheritFlags_eq_dress] at this
    exact elsewhere_dress this
  · have hpreds : (p.inheritFlags.withPreds l).Filed := withPreds_eq_dress l ▸ hflags.dress
    have := raises_forM (fun c hc => hpreds.raises_checkShape (hpreds.contexts.mem_values.1 hc) l)
      f hf
    rw [withPreds_eq_dress, inheritFlags_eq_dress] at this
    exact elsewhere_dress (elsewhere_dress this)

end Program

end ByteTrust
