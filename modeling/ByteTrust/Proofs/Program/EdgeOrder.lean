import ByteTrust.Interference.Findings
import ByteTrust.Proofs.Program.ExtraEdge

/-!
# The order of edges in a program

Two programs may differ in nothing but the order in which blocks list their edges
(`Program.Reordered`). Linking either of them finds the same tables, and the same predecessors in
the same order, for a block lists itself there once for each edge and not by the edge. So the linked
programs differ in the order of edges only, too (`Reordered.link`), and a look at contexts,
instructions and tentative contexts does not tell them apart.
-/

namespace ByteTrust

/-- The tables have the same keys in the same order, with values related by `R`. -/
def Table.Rel {α β : Type} (R : β → β → Prop) (t t' : Table α β) : Prop :=
  List.Forall₂ (fun e e' => e.1 = e'.1 ∧ R e.2 e'.2) t.entries t'.entries

/-- The same block with its edges in another order. -/
structure Block.Reordered (b b' : Block) : Prop where
  succs : b'.succs.Perm b.succs
  rest : b' = { b with succs := b'.succs }

/-- The same context with the edges of its blocks in another order. -/
structure Context.Reordered (c c' : Context) : Prop where
  blocks : Table.Rel Block.Reordered c.blocks c'.blocks
  rest : c' = { c with blocks := c'.blocks }

/-- The same program with the edges of its blocks in another order. -/
structure Program.Reordered (p p' : Program) : Prop where
  contexts : Table.Rel Context.Reordered p.contexts p'.contexts
  rest : p' = { p with contexts := p'.contexts }

/-! ## Reordering by a function -/

/-- A reordering of the edges out of each block of each context. -/
structure EdgeOrder where
  order : ContextId → BlockId → List Successor → List Successor
  perm : ∀ k b succs, (order k b succs).Perm succs

/-- The program with its edges in this order. -/
def Program.reorder (σ : EdgeOrder) (p : Program) : Program :=
  p.dress (fun _ c => c.materialized) fun k _ b => (σ.order k b.id b.succs, b.preds)

/-- A context with the edges in the order for the context `k`. -/
def Context.reorder (σ : EdgeOrder) (k : ContextId) (c : Context) : Context :=
  c.dress c.materialized fun b => (σ.order k b.id b.succs, b.preds)

/-- A block with the edges in the order for the context `k`. -/
def Block.reorder (σ : EdgeOrder) (k : ContextId) (b : Block) : Block :=
  { b with succs := σ.order k b.id b.succs }

/-- The edges in the order that they have in `p`. -/
def Program.edgeOrder (p : Program) : EdgeOrder where
  order k b succs :=
    match (p.contexts.get? k).bind fun c => c.blocks.get? b with
    | some block => if block.succs.Perm succs then block.succs else succs
    | none => succs
  perm k b succs := by
    split
    · split
      · assumption
      · exact .refl succs
    · exact .refl succs

theorem Table.Rel.eq_mapValues {α β : Type} [DecidableEq α] {R : β → β → Prop} {t t' : Table α β}
    (h : Rel R t t') {f : α → β → β}
    (hf : ∀ k v v', t.get? k = some v → t'.get? k = some v' → R v v' → v' = f k v) :
    t' = t.mapValues f := by
  have hentries : ∀ {es es' : List (α × β)},
      List.Forall₂ (fun e e' => e.1 = e'.1 ∧ R e.2 e'.2) es es' → es ⊆ t.entries →
      es' ⊆ t'.entries → es' = es.map fun e => (e.1, f e.1 e.2) := by
    intro es es' hes hsub hsub'
    induction hes with
    | nil => rfl
    | @cons e e' es es' he _ ih =>
      obtain ⟨k, v⟩ := e
      obtain ⟨k', v'⟩ := e'
      obtain ⟨rfl, hR⟩ := he
      obtain ⟨hmem, hsub⟩ := List.cons_subset.1 hsub
      obtain ⟨hmem', hsub'⟩ := List.cons_subset.1 hsub'
      rw [List.map_cons, ih hsub hsub',
        hf k v v' (Table.mem_entries.1 hmem) (Table.mem_entries.1 hmem') hR]
  obtain ⟨es', hdistinct⟩ := t'
  simp only [Table.mapValues, Table.mk.injEq]
  exact hentries h (List.Subset.refl _) (List.Subset.refl _)

namespace Program

variable {p p' q q' : Program} {σ : EdgeOrder} {l : Layout} {k : ContextId}

theorem ownBlocks_of_checkNames (h : p.checkNames = .ok ()) : p.OwnBlocks :=
  fun k c b block hc hb => (((checkNames_eq_ok h).2 c (Table.mem_values.2 ⟨k, hc⟩)).blocks (b, block)
    (Table.mem_entries.2 hb)).1

/-- Where blocks bear their own names, another order is a function of the edges. -/
theorem Reordered.eq_reorder (h : p.Reordered p') (hids : p.OwnBlocks) :
    p' = p.reorder p'.edgeOrder := by
  have hcontexts : p'.contexts = p.contexts.mapValues fun k c => c.reorder p'.edgeOrder k := by
    refine h.contexts.eq_mapValues fun k c c' hc hc' hcc' => ?_
    have hblocks : c'.blocks = c.blocks.mapValues fun _ b => b.reorder p'.edgeOrder k := by
      refine hcc'.blocks.eq_mapValues fun b block block' hb hb' hbb' => ?_
      have hid : block.id = b := hids k c b block hc hb
      have horder : p'.edgeOrder.order k block.id block.succs = block'.succs := by
        simp only [edgeOrder, hc', Option.bind_some, hid, hb', if_pos hbb'.succs]
      rw [hbb'.rest, Block.reorder, horder]
    rw [hcc'.rest, hblocks]
    rfl
  refine h.rest.trans ?_
  rw [hcontexts]
  rfl

/-! ## Linking -/

theorem inheritFlags_reorder : (p.reorder σ).inheritFlags = p.inheritFlags.reorder σ :=
  inheritFlags_dress

theorem isTaken_reorder (c : ContextId) (b : BlockId) :
    (p.reorder σ).isTaken k c b = p.isTaken k c b :=
  isTaken_dress k c b

/-- Of the edges to one block, the sources do not tell in which order they leave their block. -/
theorem sources_perm {f : Successor → Option (ContextId × BlockId)} {succs succs' : List Successor}
    (h : succs'.Perm succs) (a : BlockId) (target : ContextId × BlockId) :
    ((succs'.filterMap fun s => (f s).map fun t => (t, a)).filter fun e => e.1 = target).map
        Prod.snd =
      ((succs.filterMap fun s => (f s).map fun t => (t, a)).filter fun e => e.1 = target).map
        Prod.snd := by
  have hsource (succs : List Successor) :
      ∀ b ∈ ((succs.filterMap fun s => (f s).map fun t => (t, a)).filter fun e =>
        e.1 = target).map Prod.snd, b = a := by
    intro b hb
    obtain ⟨e, he, rfl⟩ := List.mem_map.1 hb
    obtain ⟨s, -, hs⟩ := List.mem_filterMap.1 (List.mem_filter.1 he).1
    obtain ⟨t, -, rfl⟩ := Option.map_eq_some_iff.1 hs
    rfl
  have hperm := ((h.filterMap fun s => (f s).map fun t => (t, a)).filter fun e =>
    decide (e.1 = target)).map Prod.snd
  rw [List.eq_replicate_of_mem (hsource succs), List.eq_replicate_of_mem (hsource succs'),
    hperm.length_eq]

theorem sources_reorder (target : ContextId × BlockId) :
    (((p.reorder σ).edges l).filter fun e => e.1 = target).map Prod.snd =
      ((p.edges l).filter fun e => e.1 = target).map Prod.snd := by
  simp only [edges, reorder, dress, Context.dress, Block.dress, Table.values, Table.mapValues,
    List.map_map, List.flatMap_map, Function.comp_def, List.filter_flatMap, List.map_flatMap]
  refine List.flatMap_congr fun e _ => List.flatMap_congr fun b _ => ?_
  have hsources := sources_perm (f := fun s => (l.owner? (l.functionRoot e.2.id) s.target).map
    fun owner => (owner, s.target)) (σ.perm e.1 b.2.id b.2.succs) b.2.id target
  simpa only [Option.map_map, Function.comp_def] using hsources

theorem withPreds_reorder : (p.reorder σ).withPreds l = (p.withPreds l).reorder σ := by
  simp only [withPreds, isTaken_reorder, sources_reorder]
  simp only [reorder, dress, Context.dress, Table.mapValues_mapValues]
  rfl

/-- Linked programs differ in the order of edges only, if they did before. -/
theorem Reordered.link (h : p.Reordered p') (hq : p.link = .ok q) (hq' : p'.link = .ok q') :
    ∃ σ, q' = q.reorder σ := by
  obtain ⟨hnames, l, hl, rfl, -⟩ := link_iff.1 hq
  obtain ⟨-, l', hl', rfl, -⟩ := link_iff.1 hq'
  refine ⟨p'.edgeOrder, ?_⟩
  have heq := h.eq_reorder (ownBlocks_of_checkNames hnames)
  generalize p'.edgeOrder = σ at heq ⊢
  subst heq
  rw [inheritFlags_reorder] at hl' ⊢
  rw [reorder, Layout.ofProgram_dress, hl] at hl'
  cases hl'
  exact withPreds_reorder

/-! ## What does not depend on edges -/

section

variable {flag : ContextId → Context → Bool}
  {edges : ContextId → Context → Block → List Successor × List BlockId}

mutual

theorem childrenOf_dress (flag : Bool) (edges : Block → List Successor × List BlockId)
    (c : Context) : ∀ r : Region, childrenOf (c.dress flag edges) r = childrenOf c r
  | .block b => by
    rw [childrenOf, childrenOf, Context.block_dress]
    cases c.block b <;> rfl
  | .loop info body => by rw [childrenOf, childrenOf, childrenOfAll_dress flag edges c body]

theorem childrenOfAll_dress (flag : Bool) (edges : Block → List Successor × List BlockId)
    (c : Context) : ∀ rs : List Region, childrenOfAll (c.dress flag edges) rs = childrenOfAll c rs
  | [] => rfl
  | r :: rs => by
    rw [childrenOfAll, childrenOfAll, childrenOf_dress flag edges c r,
      childrenOfAll_dress flag edges c rs]

end

theorem children_dress : (p.dress flag edges).children = p.children := by
  funext k
  rw [children, children, context_dress]
  cases p.context k with
  | error fault => rfl
  | ok c => exact childrenOfAll_dress _ _ c c.regions

theorem reaches_dress (goal : IdentSet .context) (n : Nat) (seen : IdentSet .context)
    (stack : List ContextId) :
    (p.dress flag edges).reaches goal n seen stack = p.reaches goal n seen stack := by
  induction n generalizing seen stack with
  | zero => cases stack <;> rfl
  | succ n ih =>
    cases stack with
    | nil => rfl
    | cons c stack => simp only [reaches, children_dress, ih]

theorem isTentative_dress (f : Findings) :
    (p.dress flag edges).isTentative f = p.isTentative f := by
  have hkeys : (p.dress flag edges).contexts.keys = p.contexts.keys := Table.keys_mapValues _ _
  funext c
  rw [isTentative, isTentative, reaches_dress, searchBound, searchBound, children_dress, hkeys]

theorem anyTentative_dress (f : Findings) (cs : List ContextId) :
    (p.dress flag edges).anyTentative f cs = p.anyTentative f cs := by
  induction cs with
  | nil => rfl
  | cons c cs ih => rw [anyTentative, anyTentative, isTentative_dress, ih]

theorem instruction_dress (place : Place) :
    (p.dress flag edges).instruction place = p.instruction place := by
  rw [instruction, instruction, block, block, context_dress]
  cases p.context place.context with
  | error fault => rfl
  | ok c =>
    simp only [Except.map, ok_bind, Context.block_dress]
    cases c.block place.block <;> rfl

end

theorem context_reorder : (p.reorder σ).context k = (p.context k).map (Context.reorder σ k) :=
  context_dress k

theorem block_reorder (b : BlockId) :
    (p.reorder σ).block k b = (p.block k b).map (Block.reorder σ k) := by
  rw [block, block, context_reorder]
  cases p.context k with
  | error fault => rfl
  | ok c => exact Context.block_dress _ _ c b

theorem liveSuccs_reorder (b : Block) : (b.reorder σ k).liveSuccs.Perm b.liveSuccs :=
  ((σ.perm k b.id b.succs).filter _).map _

theorem hasLiveEdgeTo_reorder (b : Block) (target : BlockId) :
    (b.reorder σ k).hasLiveEdgeTo target = b.hasLiveEdgeTo target :=
  (σ.perm k b.id b.succs).any_eq

end Program

end ByteTrust
