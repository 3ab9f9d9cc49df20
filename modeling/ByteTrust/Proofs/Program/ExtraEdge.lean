import Mathlib.Data.List.Perm.Basic
import ByteTrust.Proofs.Program.Shape

/-!
# One more edge

Which edges does linking refuse? A linked program with one more edge can be linked again exactly
when the edge leads into a context around it and, if it leads to the header of a loop, comes from
the latch (`link_addEdge_iff`). So a loop is entered from outside at its header once, and elsewhere
as often as one likes: an edge past the header into the loop is never looked at.

Acceptance is carried over context by context. A context `Widens` into another one that differs in
edges only and has all the edges of the first.
-/

namespace ByteTrust

open Region

/-- What `x` adds to its part of a list of lists it adds to the whole. -/
theorem flatMap_perm_append {α β : Type} {f g : α → List β} {xs : List α} {x : α} {ys : List β}
    (hnodup : xs.Nodup) (hx : x ∈ xs) (hadds : (f x).Perm (ys ++ g x))
    (hother : ∀ z ∈ xs, z ≠ x → f z = g z) : (xs.flatMap f).Perm (ys ++ xs.flatMap g) := by
  obtain ⟨before, after, rfl⟩ := List.append_of_mem hx
  rw [List.nodup_append, List.nodup_cons] at hnodup
  obtain ⟨-, ⟨hafter, -⟩, hbefore⟩ := hnodup
  have hbefore : before.flatMap f = before.flatMap g :=
    List.flatMap_congr fun z hz => hother z (List.mem_append_left _ hz) fun heq =>
      hbefore z hz x List.mem_cons_self heq
  have hafter : after.flatMap f = after.flatMap g :=
    List.flatMap_congr fun z hz =>
      hother z (List.mem_append_right _ (List.mem_cons_of_mem _ hz)) fun heq => hafter (heq ▸ hz)
  rw [List.flatMap_append, List.flatMap_append, List.flatMap_cons, List.flatMap_cons, hbefore,
    hafter]
  have hmiddle := (hadds.append_right (after.flatMap g)).append_left (before.flatMap g)
  rw [List.append_assoc] at hmiddle
  exact hmiddle.trans (List.perm_append_comm_assoc _ _ _)

namespace Program

variable {p q : Program} {l : Layout} {k o f : ContextId} {c d : Context} {a b t : BlockId}
  {block : Block} {info : Loop} {body : List Region} {s : Successor}

/-- The program with one more edge out of the block `a` of the context `k`. -/
def addEdge (p : Program) (k : ContextId) (a : BlockId) (s : Successor) : Program :=
  p.dress (fun _ c => c.materialized) fun j _ b =>
    (if j = k ∧ b.id = a then b.succs ++ [s] else b.succs, b.preds)

theorem inheritFlags_addEdge :
    (p.addEdge k a s).inheritFlags = p.inheritFlags.addEdge k a s :=
  inheritFlags_dress

/-- The new edge is listed with the others, under the block that it leads to. -/
theorem edges_addEdge (hown : p.OwnNames) (hids : p.OwnBlocks) (hc : p.contexts.get? k = some c)
    (hb : c.blocks.get? a = some block) :
    ((p.addEdge k a s).edges l).Perm
      ((l.owner? (l.functionRoot k) s.target).toList.map (fun o => ((o, s.target), a)) ++
        p.edges l) := by
  have hnodup {α β : Type} (t : Table α β) : t.entries.Nodup := t.distinct.of_map
  have hid := hids k c a block hc hb
  simp only [edges, addEdge, dress, Context.dress, Block.dress, Table.values, Table.mapValues,
    List.map_map, List.flatMap_map, Function.comp_apply]
  refine flatMap_perm_append (hnodup _) (Table.mem_entries.2 hc) ?_ fun e he hne => ?_
  · refine flatMap_perm_append (hnodup _) (Table.mem_entries.2 hb) ?_ fun e he hne => ?_
    · rw [if_pos ⟨rfl, hid⟩, List.filterMap_append, hown k c hc, hid]
      refine List.perm_append_comm.trans (.of_eq ?_)
      congr 1
      cases howner : l.owner? (l.functionRoot k) s.target <;> simp [howner]
    · rw [if_neg]
      rintro ⟨-, rfl⟩
      have hget := Table.mem_entries.1 he
      have hkey := hids k c e.1 e.2 hc hget
      rw [hkey] at hb hne
      cases hb.symm.trans hget
      exact hne rfl
  · have hj : e.1 ≠ k := by
      rintro rfl
      cases hc.symm.trans (Table.mem_entries.1 he)
      exact hne rfl
    simp [hj]

/-! ## Wider contexts -/

end Program

/-- The context `c'` is `c` with other flags and predecessors and with more edges. -/
structure Context.Widens (c c' : Context) : Prop where
  id : c'.id = c.id
  kind : c'.kind = c.kind
  parent : c'.parent = c.parent
  regions : c'.regions = c.regions
  entry : c'.entry = c.entry
  keys : c'.blocks.keys = c.blocks.keys
  block : ∀ {b block}, c.blocks.get? b = some block → ∃ block', c'.blocks.get? b = some block' ∧
    ∀ t, block.hasEdgeTo t = true → block'.hasEdgeTo t = true

theorem Context.widens_dress {c : Context} {flag flag' : Bool}
    {edges edges' : Block → List Successor × List BlockId}
    (h : ∀ block : Block, (edges block).1 ⊆ (edges' block).1) :
    (c.dress flag edges).Widens (c.dress flag' edges') where
  id := rfl
  kind := rfl
  parent := rfl
  regions := rfl
  entry := rfl
  keys := by simp [Context.dress]
  block hb := by
    simp only [Context.dress, Table.get?_mapValues, Option.map_eq_some_iff] at hb ⊢
    obtain ⟨block, hblock, rfl⟩ := hb
    refine ⟨_, ⟨block, hblock, rfl⟩, fun t ht => ?_⟩
    simp only [Block.hasEdgeTo, Block.dress, List.any_eq_true] at ht ⊢
    obtain ⟨s, hs, ht⟩ := ht
    exact ⟨s, h block hs, ht⟩

namespace Program

variable {p p' : Program} {l : Layout} {k : ContextId} {c c' : Context} {a : BlockId}
  {info : Loop} {body : List Region} {sources sources' : List BlockId}

/-- Every context of `p` widens into one of `p'`. -/
def Widens (p p' : Program) : Prop :=
  ∀ {k c}, p.contexts.get? k = some c → ∃ c', p'.contexts.get? k = some c' ∧ c.Widens c'

theorem checkIteration_widen (hp : p.Widens p') (hc : c.Widens c') {i : Nat} {it : ContextId}
    (h : p.checkIteration c info i it = .ok ()) : p'.checkIteration c' info i it = .ok () := by
  rw [checkIteration, bind_eq_ok] at h ⊢
  obtain ⟨d, hd, h⟩ := h
  obtain ⟨d', hd', hwide⟩ := hp (context_eq_ok.1 hd)
  refine ⟨d', context_eq_ok.2 hd', ?_⟩
  rwa [hwide.kind, hwide.parent, hc.id]

/-- A loop passes the check in a wider context too, if its header is entered well. -/
theorem checkLoop_widen (hp : p.Widens p') (hc : c.Widens c')
    (henters : info.terminatedPeel? = none → ∀ header, c'.blocks.get? info.header = some header →
      EntersWell info header.preds)
    (h : p.checkLoop c info body = .ok ()) : p'.checkLoop c' info body = .ok () := by
  cases hpeel : info.terminatedPeel? with
  | none =>
    obtain ⟨⟨preheader, hpreheader⟩, hout, hbody⟩ := (checkLoop_iff hpeel).1 h
    obtain ⟨hblocks, hstart, hmem, header, hheader, -, latch, hlatch, hedge⟩ :=
      checkBody_iff.1 hbody
    obtain ⟨preheader', hpreheader', -⟩ := hc.block hpreheader
    obtain ⟨header', hheader', -⟩ := hc.block hheader
    obtain ⟨latch', hlatch', hmore⟩ := hc.block hlatch
    exact (checkLoop_iff hpeel).2 ⟨⟨preheader', hpreheader'⟩, hout, checkBody_iff.2
      ⟨hblocks, hstart, hmem, header', hheader', henters hpeel header' hheader', latch', hlatch',
        hmore _ hedge⟩⟩
  | some peel =>
    simp only [checkLoop, hpeel, checkPeel, bind_eq_ok, throw_eq_error, error_bind,
      ite_error_eq_ok, ite_else_error_eq_ok, Context.block_eq_ok] at h ⊢
    obtain ⟨preheader, hpreheader, hout, hbody, hne, ⟨⟩, hiterations, hedge, -⟩ := h
    obtain ⟨preheader', hpreheader', hmore⟩ := hc.block hpreheader
    refine ⟨preheader', hpreheader', hout, hbody, hne, ⟨⟩, ?_, hmore _ hedge, rfl⟩
    rw [forM_eq_ok] at hiterations ⊢
    exact fun e he => checkIteration_widen hp hc (hiterations e he)

mutual

theorem checkRegion_widen (hp : p.Widens p') (hc : c.Widens c')
    {covered covered' : IdentSet .block} :
    ∀ {r : Region}, (∀ info ∈ r.loops, info.terminatedPeel? = none → ∀ header,
        c'.blocks.get? info.header = some header → EntersWell info header.preds) →
      p.checkRegion c covered r = .ok covered' → p'.checkRegion c' covered r = .ok covered'
  | .block b, _, h => by
    rw [checkRegion, bind_eq_ok] at h ⊢
    obtain ⟨⟨⟩, hblock, h⟩ := h
    obtain ⟨block, hblock⟩ := discard_eq_ok hblock
    obtain ⟨block', hblock', -⟩ := hc.block (Context.block_eq_ok.1 hblock)
    refine ⟨⟨⟩, ?_, hc.id ▸ h⟩
    rw [Context.block_eq_ok.2 hblock']
    rfl
  | .loop info body, henters, h => by
    rw [checkRegion, bind_eq_ok] at h ⊢
    obtain ⟨⟨⟩, hloop, hbody⟩ := h
    rw [loops, List.forall_mem_cons] at henters
    exact ⟨⟨⟩, checkLoop_widen hp hc henters.1 hloop, checkRegions_widen hp hc henters.2 hbody⟩

theorem checkRegions_widen (hp : p.Widens p') (hc : c.Widens c')
    {covered covered' : IdentSet .block} :
    ∀ {rs : List Region}, (∀ info ∈ loopsAll rs, info.terminatedPeel? = none → ∀ header,
        c'.blocks.get? info.header = some header → EntersWell info header.preds) →
      p.checkRegions c covered rs = .ok covered' → p'.checkRegions c' covered rs = .ok covered'
  | [], _, h => h
  | r :: rs, henters, h => by
    rw [checkRegions, bind_eq_ok] at h ⊢
    obtain ⟨between, hr, hrs⟩ := h
    rw [loopsAll, List.forall_mem_append] at henters
    exact ⟨between, checkRegion_widen hp hc henters.1 hr, checkRegions_widen hp hc henters.2 hrs⟩

end

theorem checkBounds_widen (hc : c.Widens c') (h : checkBounds c = .ok ()) :
    checkBounds c' = .ok () := by
  rw [checkBounds] at h ⊢
  rw [hc.kind]
  cases hkind : c.kind with
  | function => rfl
  | iteration loop i header latch =>
    simp only [hkind, throw_eq_error, error_bind, ite_error_eq_ok, bind_eq_ok,
      ite_else_error_eq_ok, Context.block_eq_ok] at h ⊢
    obtain ⟨hentry, block, hblock, hedge, -⟩ := h
    obtain ⟨block', hblock', hmore⟩ := hc.block hblock
    exact ⟨hc.entry.symm ▸ hentry, block', hblock', hmore _ hedge, rfl⟩

/-- A wider context passes the check, if its edges lead somewhere and its headers are entered
well. -/
theorem checkShape_widen (hp : p.Widens p') (hc : c.Widens c')
    (hedges : p'.checkEdges l c' = .ok ())
    (henters : ∀ info ∈ c.loops, info.terminatedPeel? = none → ∀ header,
      c'.blocks.get? info.header = some header → EntersWell info header.preds)
    (h : p.checkShape l c = .ok ()) : p'.checkShape l c' = .ok () := by
  rw [checkShape, bind_eq_ok] at h
  obtain ⟨⟨⟩, -, h⟩ := h
  rw [bind_eq_ok] at h
  obtain ⟨covered, hcovered, h⟩ := h
  have hcovered' := checkRegions_widen hp hc henters hcovered
  rw [checkShape, hedges, ok_bind, hc.regions, hcovered', ok_bind, hc.keys]
  split at h
  · cases h
  · exact checkBounds_widen hc h

/-! ## Headers -/

theorem EntersWell.perm (h : EntersWell info sources) (hperm : sources'.Perm sources) :
    EntersWell info sources' where
  outside := List.perm_singleton.1 (h.outside ▸ hperm.filter _)
  inside hnil := h.inside (List.perm_nil.1 (hnil ▸ (hperm.filter _).symm))
  onlyLatch b hb := h.onlyLatch b (hperm.mem_iff.1 hb)

/-- To a header that is entered well, another edge may lead from the latch only. -/
theorem entersWell_cons (h : EntersWell info sources) (hlatch : info.latch ∈ info.blocks) :
    EntersWell info (a :: sources) ↔ a = info.latch := by
  constructor
  · intro hcons
    by_cases ha : a ∈ info.blocks
    · exact hcons.onlyLatch a List.mem_cons_self ha
    · have houtside := hcons.outside
      rw [List.filter_cons_of_pos (by simpa [← IdentSet.contains_iff] using ha), h.outside]
        at houtside
      cases houtside
  · rintro rfl
    have hcontains := IdentSet.contains_iff.2 hlatch
    refine ⟨?_, ?_, List.forall_mem_cons.2 ⟨fun _ => rfl, h.onlyLatch⟩⟩
    · rw [List.filter_cons_of_neg (by simp [hcontains]), h.outside]
    · rw [List.filter_cons_of_pos hcontains]
      exact List.cons_ne_nil _ _

/-! ## Linking again -/

variable {p₀ q : Program} {j : ContextId} {b : BlockId} {s s' : Successor} {block block' : Block}

/-- The block `b` of the context `j` has the edge `s` among its successors. -/
def HasEdge (p : Program) (j : ContextId) (b : BlockId) (s : Successor) : Prop :=
  ∃ c block, p.contexts.get? j = some c ∧ c.blocks.get? b = some block ∧ s ∈ block.succs

theorem hasEdge_withPreds : (q.withPreds l).HasEdge j b s ↔ q.HasEdge j b s := by
  simp only [HasEdge, withPreds, Table.get?_mapValues, Option.map_eq_some_iff]
  constructor
  · rintro ⟨_, _, ⟨c, hc, rfl⟩, hb, hs⟩
    simp only [Table.get?_mapValues, Option.map_eq_some_iff] at hb
    obtain ⟨block, hb, rfl⟩ := hb
    exact ⟨c, block, hc, hb, hs⟩
  · rintro ⟨c, block, hc, hb, hs⟩
    refine ⟨_, _, ⟨c, hc, rfl⟩, by rw [Table.get?_mapValues, hb, Option.map_some], ?_⟩
    exact hs

theorem hasEdge_addEdge (hids : q.OwnBlocks) (hc : q.contexts.get? k = some c)
    (hb : c.blocks.get? a = some block) : (q.addEdge k a s).HasEdge j b s' ↔
      q.HasEdge j b s' ∨ j = k ∧ b = a ∧ s' = s := by
  simp only [HasEdge, addEdge, get?_dress, Context.dress, Option.map_eq_some_iff]
  constructor
  · rintro ⟨_, _, ⟨d, hd, rfl⟩, hb', hs⟩
    simp only [Table.get?_mapValues, Option.map_eq_some_iff] at hb'
    obtain ⟨block', hb', rfl⟩ := hb'
    simp only [Block.dress] at hs
    split at hs
    · next hat =>
      rw [List.mem_append, List.mem_singleton] at hs
      refine hs.imp (fun hs => ⟨d, block', hd, hb', hs⟩) fun hs => ⟨hat.1, ?_, hs⟩
      exact (hids j d b block' hd hb').symm.trans hat.2
    · exact .inl ⟨d, block', hd, hb', hs⟩
  · rintro (⟨d, block', hd, hb', hs⟩ | ⟨rfl, rfl, rfl⟩)
    · refine ⟨_, _, ⟨d, hd, rfl⟩, by rw [Table.get?_mapValues, hb', Option.map_some], ?_⟩
      simp only [Block.dress]
      split
      · exact List.mem_append_left _ hs
      · exact hs
    · refine ⟨_, _, ⟨c, hc, rfl⟩, by rw [Table.get?_mapValues, hb, Option.map_some], ?_⟩
      simp [Block.dress, hids j c b block hc hb]

theorem widens_addEdge : (q.withPreds l).Widens ((q.addEdge k a s).withPreds l) := by
  intro j c hc
  rw [withPreds_eq_dress, get?_dress, Option.map_eq_some_iff] at hc
  obtain ⟨c₀, hc₀, rfl⟩ := hc
  rw [withPreds_eq_dress, get?_dress, addEdge, get?_dress, hc₀, Option.map_some, Option.map_some]
  refine ⟨_, rfl, ?_⟩
  rw [Context.dress_dress]
  refine Context.widens_dress fun block s' hs' => ?_
  simp only [Block.dress]
  split
  · exact List.mem_append_left _ hs'
  · exact hs'

theorem ownBlocks_withPreds : (q.withPreds l).OwnBlocks ↔ q.OwnBlocks := by
  rw [withPreds_eq_dress, ownBlocks_dress]

theorem ownNames_withPreds : (q.withPreds l).OwnNames ↔ q.OwnNames := by
  rw [withPreds_eq_dress, ownNames_dress]

/-- The predecessors of a block, after one more edge. -/
theorem preds_addEdge (hown : q.OwnNames) (hids : q.OwnBlocks) (hc : q.contexts.get? k = some c)
    {block₀ : Block} (ha : c.blocks.get? a = some block₀) {d d' : Context}
    (hd : (q.withPreds l).contexts.get? j = some d) (hb : d.blocks.get? b = some block)
    (hd' : ((q.addEdge k a s).withPreds l).contexts.get? j = some d')
    (hb' : d'.blocks.get? b = some block') : block'.preds.Perm
      ((if l.owner? (l.functionRoot k) s.target = some j ∧ s.target = b then [a] else []) ++
        block.preds) := by
  have hid := ownBlocks_withPreds.2 hids j d b block hd hb
  have hid' := ownBlocks_withPreds.2 (ownBlocks_dress.2 hids) j d' b block' hd' hb'
  rw [preds_withPreds hown hd hb hid, preds_withPreds (ownNames_dress.2 hown) hd' hb' hid']
  have hperm := ((edges_addEdge (l := l) (s := s) hown hids hc ha).filter
    fun e => e.1 = (j, b)).map Prod.snd
  rw [List.filter_append, List.map_append] at hperm
  refine hperm.trans (.of_eq ?_)
  congr 1
  cases l.owner? (l.functionRoot k) s.target with
  | none => simp
  | some o => by_cases ho : o = j <;> by_cases ht : s.target = b <;> simp [ho, ht]

/-- Linking with one more edge comes down to the check of shapes. -/
theorem exists_link_addEdge (hlink : p₀.link = .ok p) (hl : Layout.ofProgram p = .ok l) :
    p = p₀.inheritFlags.withPreds l ∧ ∀ p', (p₀.addEdge k a s).link = .ok p' ↔
      p' = (p₀.inheritFlags.addEdge k a s).withPreds l ∧
        ∀ c ∈ p'.contexts.values, p'.checkShape l c = .ok () := by
  obtain ⟨hnames, l', hl', rfl, -⟩ := link_iff.1 hlink
  rw [withPreds_eq_dress, Layout.ofProgram_dress] at hl
  cases hl.symm.trans hl'
  refine ⟨rfl, fun p' => ?_⟩
  have hnames' : (p₀.addEdge k a s).checkNames = .ok () := by rw [addEdge, checkNames_dress, hnames]
  have hl'' : Layout.ofProgram (p₀.inheritFlags.addEdge k a s) = .ok l := by
    rw [addEdge, Layout.ofProgram_dress, hl]
  rw [link_iff, inheritFlags_addEdge, hl'']
  simp [hnames']

/-- The program `p'` is `p` with one more edge from the block `a` of the context `k`. -/
structure Grows (p p' : Program) (l : Layout) (k : ContextId) (a : BlockId) (s : Successor) :
    Prop where
  own : p'.OwnNames
  wide : p.Widens p'
  owner : ∀ j t, l.edgeOwner? p' j t = l.edgeOwner? p j t
  hasEdge : ∀ {j b s'}, p'.HasEdge j b s' ↔ p.HasEdge j b s' ∨ j = k ∧ b = a ∧ s' = s
  back : ∀ {j c'}, p'.contexts.get? j = some c' → ∃ c, p.contexts.get? j = some c
  preds : ∀ {j c c' b block block'}, p.contexts.get? j = some c → c.blocks.get? b = some block →
    p'.contexts.get? j = some c' → c'.blocks.get? b = some block' → block'.preds.Perm
      ((if l.owner? (l.functionRoot k) s.target = some j ∧ s.target = b then [a] else []) ++
        block.preds)

theorem grows_addEdge (hown : q.OwnNames) (hids : q.OwnBlocks) (hc : q.contexts.get? k = some c)
    (ha : c.blocks.get? a = some block) :
    (q.withPreds l).Grows ((q.addEdge k a s).withPreds l) l k a s where
  own := ownNames_withPreds.2 (ownNames_dress.2 hown)
  wide := widens_addEdge
  owner j t := by
    rw [withPreds_eq_dress, withPreds_eq_dress, Layout.edgeOwner?_dress, Layout.edgeOwner?_dress,
      addEdge, Layout.edgeOwner?_dress]
  hasEdge := by
    intro j b s'
    rw [hasEdge_withPreds, hasEdge_withPreds, hasEdge_addEdge hids hc ha]
  back := by
    intro j c' hc'
    rw [withPreds_eq_dress, get?_dress, addEdge, get?_dress] at hc'
    rw [withPreds_eq_dress, get?_dress]
    cases hget : q.contexts.get? j with
    | none => simp [hget] at hc'
    | some c₀ => exact ⟨_, rfl⟩
  preds := preds_addEdge hown hids hc ha

/-- Where the program without the edge passes the check, so does the program with it. -/
theorem Grows.checkShape (hg : p.Grows p' l k a s) (h : p.Linked l)
    (howner : ∃ o, l.edgeOwner? p k s.target = some o)
    (hlatch : ∀ o d, l.owner? (l.functionRoot k) s.target = some o → p.contexts.get? o = some d →
      ∀ info ∈ d.loops, info.terminatedPeel? = none → info.header = s.target → a = info.latch)
    (hc' : c' ∈ p'.contexts.values) : p'.checkShape l c' = .ok () := by
  have hget' := hg.own.mem_values.1 hc'
  obtain ⟨c, hc⟩ := hg.back hget'
  obtain ⟨c'', hget'', hwide⟩ := hg.wide hc
  cases hget'.symm.trans hget''
  refine checkShape_widen hg.wide hwide ?_ (fun info hinfo hpeel header' hheader' => ?_)
    (h.shape hc)
  · refine forM_eq_ok.2 fun block hblock => forM_eq_ok.2 fun s' hs' => ?_
    obtain ⟨b, hb⟩ := Table.mem_values.1 hblock
    rw [ite_else_error_eq_ok, hg.owner, Option.isSome_iff_exists]
    refine ⟨?_, rfl⟩
    rcases hg.hasEdge.1 ⟨c', block, hget', hb, hs'⟩ with ⟨d, block₀, hd, hb₀, hs₀⟩ | ⟨hk, -, rfl⟩
    · exact h.edgeOwner_exists hd hb₀ hs₀
    · exact hk ▸ howner
  · obtain ⟨body, hloop⟩ := h.checkLoop hc hinfo
    obtain ⟨-, -, hbody⟩ := (checkLoop_iff hpeel).1 hloop
    obtain ⟨-, -, hmem, header, hheader, henters, -⟩ := checkBody_iff.1 hbody
    refine EntersWell.perm ?_ (hg.preds hc hheader hget' hheader')
    split
    · next hat =>
      exact (entersWell_cons henters hmem).2 (hlatch _ c hat.1 hc info hinfo hpeel hat.2.symm)
    · exact henters

/-- An edge to the header of a loop is refused, unless it comes from the latch. -/
theorem Grows.eq_latch (hg : p.Grows p' l k a s) (h : p.Linked l) (h' : p'.Linked l)
    {o : ContextId} {d : Context} (howner : l.owner? (l.functionRoot k) s.target = some o)
    (hd : p.contexts.get? o = some d) (hinfo : info ∈ d.loops)
    (hpeel : info.terminatedPeel? = none) (hheader : info.header = s.target) :
    a = info.latch := by
  obtain ⟨d', hd', hwide⟩ := hg.wide hd
  have hinfo' : info ∈ d'.loops := by rwa [Context.loops, hwide.regions]
  obtain ⟨body, hloop⟩ := h.checkLoop hd hinfo
  obtain ⟨body', hloop'⟩ := h'.checkLoop hd' hinfo'
  obtain ⟨-, -, hbody⟩ := (checkLoop_iff hpeel).1 hloop
  obtain ⟨-, -, hbody'⟩ := (checkLoop_iff hpeel).1 hloop'
  obtain ⟨-, -, hmem, header, hget, henters, -⟩ := checkBody_iff.1 hbody
  obtain ⟨-, -, -, header', hget', henters', -⟩ := checkBody_iff.1 hbody'
  have hperm := hg.preds hd hget hd' hget'
  rw [if_pos ⟨howner, hheader.symm⟩] at hperm
  exact (entersWell_cons henters hmem).1 (henters'.perm hperm.symm)

/-- A linked program with one more edge can be linked exactly when the edge leads into a context
and, where it leads to the header of a loop, comes from the latch. -/
theorem link_addEdge_iff (hlink : p₀.link = .ok p) (hl : Layout.ofProgram p = .ok l)
    (hown : p.OwnNames) (hc : p.contexts.get? k = some c) (ha : c.blocks.get? a = some block) :
    (∃ p', (p₀.addEdge k a s).link = .ok p') ↔
      (∃ o, l.edgeOwner? p k s.target = some o) ∧
        ∀ o d, l.owner? (l.functionRoot k) s.target = some o → p.contexts.get? o = some d →
          ∀ info ∈ d.loops, info.terminatedPeel? = none → info.header = s.target →
            a = info.latch := by
  have h := linked_of_link hlink hl hown
  obtain ⟨rfl, hagain⟩ := exists_link_addEdge (k := k) (a := a) (s := s) hlink hl
  simp only [withPreds, Table.get?_mapValues, Option.map_eq_some_iff] at hc
  obtain ⟨c₀, hc₀, rfl⟩ := hc
  simp only [Table.get?_mapValues, Option.map_eq_some_iff] at ha
  obtain ⟨block₀, ha₀, -⟩ := ha
  have hids : p₀.inheritFlags.OwnBlocks :=
    ownBlocks_withPreds.1 fun _ _ _ _ hc hb => h.block_id hc hb
  have hg := grows_addEdge (l := l) (s := s) (ownNames_withPreds.1 hown) hids hc₀ ha₀
  constructor
  · rintro ⟨p', hp'⟩
    obtain ⟨rfl, -⟩ := (hagain p').1 hp'
    have hl' : Layout.ofProgram ((p₀.inheritFlags.addEdge k a s).withPreds l) = .ok l := by
      rw [withPreds_eq_dress, Layout.ofProgram_dress] at hl ⊢
      rwa [addEdge, Layout.ofProgram_dress]
    have h' := linked_of_link hp' hl' hg.own
    refine ⟨?_, fun o d howner hd info hinfo => hg.eq_latch h h' howner hd hinfo⟩
    obtain ⟨c', block', hc', hb', hs⟩ := hg.hasEdge.2 (.inr ⟨rfl, rfl, rfl⟩)
    rw [← hg.owner]
    exact h'.edgeOwner_exists hc' hb' hs
  · rintro ⟨howner, hlatch⟩
    exact ⟨_, (hagain _).2 ⟨rfl, fun c' => hg.checkShape h howner hlatch⟩⟩

/-- Linking checks loops at the header: of all edges of the function to the header of a loop, one
comes from outside, from the preheader. It looks at no other edge into a loop: one more edge is
accepted wherever it leads, but to the header of a loop from elsewhere than the latch. -/
theorem loops_checked_at_header (hlink : p₀.link = .ok p) (hl : Layout.ofProgram p = .ok l)
    (hown : p.OwnNames) :
    (∀ k c info body, p.contexts.get? k = some c → (info, body) ∈ bodiesAll c.regions →
      info.terminatedPeel? = none →
        ((p.entries l (l.functionRoot k) info.header).map Prod.snd).filter
          (fun a => !info.blocks.contains a) = [info.preheader]) ∧
    ∀ k c a block s, p.contexts.get? k = some c → c.blocks.get? a = some block →
      ((∃ p', (p₀.addEdge k a s).link = .ok p') ↔
        (∃ o, l.edgeOwner? p k s.target = some o) ∧
          ∀ o d, l.owner? (l.functionRoot k) s.target = some o → p.contexts.get? o = some d →
            ∀ info ∈ d.loops, info.terminatedPeel? = none → info.header = s.target →
              a = info.latch) :=
  ⟨fun _ _ _ _ hc hbody hpeel => (loopShape_of_link hlink hl hown hc hbody hpeel).enters.outside,
    fun _ _ _ _ _ hc ha => link_addEdge_iff hlink hl hown hc ha⟩

/-- A loop of two blocks. -/
def plainLoop : Program where
  objects := .ofList []
  contexts := .ofList [
    (⟨0⟩,
      { id := ⟨0⟩
        kind := .function ⟨0⟩ "main" []
        blocks := .ofList [
          (⟨0⟩, { id := ⟨0⟩, succs := [⟨⟨1⟩, true⟩] }),
          (⟨1⟩, { id := ⟨1⟩, succs := [⟨⟨2⟩, true⟩] }),
          (⟨2⟩, { id := ⟨2⟩, succs := [⟨⟨1⟩, true⟩, ⟨⟨3⟩, true⟩] }),
          (⟨3⟩, { id := ⟨3⟩, terminator := .ret })]
        regions := [.block ⟨0⟩,
          .loop { id := ⟨0⟩, preheader := ⟨0⟩, header := ⟨1⟩, latch := ⟨2⟩,
                  blocks := .ofList [⟨1⟩, ⟨2⟩] } [.block ⟨1⟩, .block ⟨2⟩],
          .block ⟨3⟩]
        entry := ⟨0⟩ })]
  root := ⟨0⟩

/-- The preheader may branch to the latch as well, but not twice to the header. -/
theorem loops_checked_at_header_plainLoop :
    (∃ p, (plainLoop.addEdge ⟨0⟩ ⟨0⟩ ⟨⟨2⟩, true⟩).link = .ok p) ∧
      ¬ ∃ p, (plainLoop.addEdge ⟨0⟩ ⟨0⟩ ⟨⟨1⟩, true⟩).link = .ok p := by
  have hyields : Yields plainLoop.link fun p => p.OwnNames ∧
      Yields (Layout.ofProgram p) fun l => Yields (p.context ⟨0⟩) fun c => Yields (c.block ⟨0⟩)
        fun _ => l.edgeOwner? p ⟨0⟩ ⟨2⟩ = some ⟨0⟩ ∧
          l.owner? (l.functionRoot ⟨0⟩) ⟨1⟩ = some ⟨0⟩ ∧
          l.owner? (l.functionRoot ⟨0⟩) ⟨2⟩ = some ⟨0⟩ ∧
          (∀ info ∈ c.loops, info.header ≠ ⟨2⟩) ∧
          ∃ info ∈ c.loops, info.terminatedPeel? = none ∧ info.header = ⟨1⟩ ∧ info.latch = ⟨2⟩ := by
    decide +kernel
  obtain ⟨p, hlink, hown, l, hl, c, hc, block, ha, hedge, howner, howner', hother, info, hinfo,
    hpeel, hheader, hlatch⟩ := hyields
  rw [context_eq_ok] at hc
  rw [Context.block_eq_ok] at ha
  obtain ⟨-, hiff⟩ := loops_checked_at_header hlink hl hown
  rw [hiff _ c _ block _ hc ha, hiff _ c _ block _ hc ha]
  refine ⟨⟨⟨_, hedge⟩, fun o d ho hd info hinfo _ hheader => ?_⟩, fun hrefused => ?_⟩
  · cases howner'.symm.trans ho
    cases hc.symm.trans hd
    exact (hother info hinfo hheader).elim
  · have := hrefused.2 ⟨0⟩ c howner hc info hinfo hpeel hheader
    rw [hlatch] at this
    cases this

/-- A linked program with an edge from outside into a loop, past the header. -/
theorem side_entry_accepted :
    Yields (plainLoop.addEdge ⟨0⟩ ⟨0⟩ ⟨⟨2⟩, true⟩).link fun p => p.OwnNames ∧
      ∃ c ∈ p.contexts.values, ∃ e ∈ bodiesAll c.regions, e.1.terminatedPeel? = none ∧
        ∃ block ∈ c.blocks.values, ∃ s ∈ block.succs, e.1.blocks.contains block.id = false ∧
          e.1.blocks.contains s.target = true ∧ s.target ≠ e.1.header := by
  decide +kernel

end Program

end ByteTrust
