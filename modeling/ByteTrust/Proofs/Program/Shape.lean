import Mathlib.Data.List.TakeWhile
import ByteTrust.Proofs.Interference.Structured

/-!
# The shape of linked programs

Linking computes the predecessors of a block through the table of owners. When every context is
filed under its own name, they are the sources of all the edges of the function that lead to the
block (`preds_eq_entries`), and what linking checks of them is a property of these edges. A linked
program is `Shapely`: names are distinct, regions cover the blocks, edges stay in their function,
loops are entered at the header from the preheader and from the latch, and the iterations of a peel
are where they belong.
-/

namespace ByteTrust

open Region

namespace Program

variable {p : Program} {l : Layout} {k o f : ContextId} {c d : Context} {b t : BlockId}
  {block : Block} {info : Loop} {body : List Region}

/-! ## Predecessors -/

/-- The edges of the function `f` and its iterations that lead to a block named `t`: the context and
the block that each comes from. -/
def entries (p : Program) (l : Layout) (f : ContextId) (t : BlockId) :
    List (ContextId × BlockId) :=
  p.contexts.values.flatMap fun c => c.blocks.values.flatMap fun b => b.succs.filterMap fun s =>
    if l.functionRoot c.id = f ∧ s.target = t then some (c.id, b.id) else none

theorem mem_entries (hl : p.Linked l) : (k, b) ∈ p.entries l f t ↔
    ∃ c block, p.contexts.get? k = some c ∧ l.functionRoot k = f ∧
      c.blocks.get? b = some block ∧ ∃ s ∈ block.succs, s.target = t := by
  simp only [entries, List.mem_flatMap, List.mem_filterMap]
  constructor
  · rintro ⟨c, hc, block, hblock, s, hs, h⟩
    split at h
    · next hroot =>
      cases h
      have hget := hl.own.mem_values.1 hc
      obtain ⟨b, hb⟩ := Table.mem_values.1 hblock
      exact ⟨c, block, hget, hroot.1, (hl.block_id hget hb).symm ▸ hb, s, hs, hroot.2⟩
    · cases h
  · rintro ⟨c, block, hc, hroot, hb, s, hs, ht⟩
    refine ⟨c, Table.mem_values_of_get? hc, block, Table.mem_values_of_get? hb, s, hs, ?_⟩
    rw [hl.own k c hc, hl.block_id hc hb, if_pos ⟨hroot, ht⟩]

theorem edges_withPreds (l l' : Layout) : (p.withPreds l).edges l' = p.edges l' := by
  simp [edges, withPreds, Table.values, Table.mapValues, List.flatMap_map]

/-- Where every context has its own name, no predecessors are taken by another one. -/
theorem OwnNames.isTaken (hown : p.OwnNames) : p.isTaken k k b = false := by
  rw [Program.isTaken, List.any_eq_false]
  intro e he htaken
  have hne := List.mem_takeWhile_imp he
  have hid := hown e.1 e.2 (Table.mem_entries.1 ((List.takeWhile_sublist _).subset he))
  simp_all

/-- The predecessors of a block are the sources of the edges that lead to it. -/
theorem preds_withPreds (hown : p.OwnNames) (hc : (p.withPreds l).contexts.get? k = some c)
    (hb : c.blocks.get? b = some block) (hid : block.id = b) :
    block.preds = ((p.edges l).filter fun e => e.1 = (k, b)).map Prod.snd := by
  simp only [withPreds, Table.get?_mapValues, Option.map_eq_some_iff] at hc
  obtain ⟨c₁, hc₁, rfl⟩ := hc
  simp only [Table.get?_mapValues, Option.map_eq_some_iff] at hb
  obtain ⟨b₁, -, rfl⟩ := hb
  simp only at hid
  simp [hown k c₁ hc₁, hown.isTaken, hid]

theorem preds_of_link {p₀ : Program} (hlink : p₀.link = .ok p) (hl : Layout.ofProgram p = .ok l)
    (hown : p.OwnNames) (hc : p.contexts.get? k = some c) (hb : c.blocks.get? b = some block) :
    block.preds = ((p.edges l).filter fun e => e.1 = (k, b)).map Prod.snd := by
  have hid := (linked_of_link hlink hl hown).block_id hc hb
  obtain ⟨-, l', hl', -, p₁, -, rfl⟩ := link_eq_ok hlink
  cases hl.symm.trans hl'
  have hown₁ : p₁.OwnNames := ownNames_dress.1 (withPreds_eq_dress l ▸ hown)
  rw [edges_withPreds]
  exact preds_withPreds hown₁ hc hb hid

namespace Linked

variable (h : p.Linked l)

include h

/-- All edges of a function to a block of this name lead into the context that owns it. -/
theorem edges_eq_entries (howner : l.owner? f t = some k) :
    ((p.edges l).filter fun e => e.1 = (k, t)).map Prod.snd = (p.entries l f t).map Prod.snd := by
  obtain ⟨-, -, hroot, -⟩ := h.owner_spec howner
  simp only [edges, entries, List.filter_flatMap, List.map_flatMap, List.filter_filterMap,
    List.map_filterMap]
  congr 1
  funext c
  congr 1
  funext block
  congr 1
  funext s
  by_cases ht : s.target = t
  · subst ht
    by_cases hf : l.functionRoot c.id = f
    · simp [hf, howner]
    · cases ho : l.owner? (l.functionRoot c.id) s.target with
      | none => simp [hf]
      | some o =>
        have hne : o ≠ k := by
          rintro rfl
          obtain ⟨-, -, hroot', -⟩ := h.owner_spec ho
          exact hf (hroot'.symm.trans hroot)
        simp [hf, hne]
  · cases l.owner? (l.functionRoot c.id) s.target <;> simp [ht]

/-- A block with predecessors is the one that its function owns under its name. -/
theorem owner_of_edge {a : BlockId} (he : ((k, t), a) ∈ p.edges l) :
    l.owner? (l.functionRoot k) t = some k := by
  simp only [edges, List.mem_flatMap, List.mem_filterMap, Option.map_eq_some_iff] at he
  obtain ⟨c, -, block, -, s, -, o, howner, heq⟩ := he
  cases heq
  obtain ⟨-, -, hroot, -⟩ := h.owner_spec howner
  rwa [hroot]

end Linked

/-- The predecessors of a block, if there are any, are the sources of all edges of its function to a
block of this name. -/
theorem preds_eq_entries {p₀ : Program} (hlink : p₀.link = .ok p)
    (hl : Layout.ofProgram p = .ok l) (hown : p.OwnNames) (hc : p.contexts.get? k = some c)
    (hb : c.blocks.get? b = some block) (hne : block.preds ≠ []) :
    block.preds = (p.entries l (l.functionRoot k) b).map Prod.snd := by
  have h := linked_of_link hlink hl hown
  have hpreds := preds_of_link hlink hl hown hc hb
  obtain ⟨a, ha⟩ := List.exists_mem_of_ne_nil _ hne
  rw [hpreds, List.mem_map] at ha
  obtain ⟨⟨key, a⟩, he, -⟩ := ha
  obtain ⟨he, hkey⟩ := List.mem_filter.1 he
  obtain rfl : key = (k, b) := by simpa using hkey
  rw [hpreds, h.edges_eq_entries (h.owner_of_edge he)]

/-! ## Loops -/

mutual

theorem checkLoop_of_bodies {covered covered' : IdentSet .block} :
    ∀ {r : Region}, p.checkRegion c covered r = .ok covered' →
      ∀ e ∈ r.bodies, p.checkLoop c e.1 e.2 = .ok ()
  | .block b, _ => by simp [bodies]
  | .loop info body, hr => by
    rw [checkRegion, bind_eq_ok] at hr
    obtain ⟨⟨⟩, hloop, hbody⟩ := hr
    rw [bodies, List.forall_mem_cons]
    exact ⟨hloop, checkLoop_of_bodiesAll hbody⟩

/-- Every loop of the regions is checked with its body. -/
theorem checkLoop_of_bodiesAll {covered covered' : IdentSet .block} :
    ∀ {rs : List Region}, p.checkRegions c covered rs = .ok covered' →
      ∀ e ∈ bodiesAll rs, p.checkLoop c e.1 e.2 = .ok ()
  | [], _ => by simp [bodiesAll]
  | r :: rs, hrs => by
    rw [checkRegions, bind_eq_ok] at hrs
    obtain ⟨between, hr, hrs⟩ := hrs
    rw [bodiesAll, List.forall_mem_append]
    exact ⟨checkLoop_of_bodies hr, checkLoop_of_bodiesAll hrs⟩

end

/-- The edges to the header of a loop, given by the blocks they come from: one comes from outside,
from the preheader, and the others come from the latch. -/
@[mk_iff]
structure EntersWell (info : Loop) (sources : List BlockId) : Prop where
  outside : sources.filter (fun a => !info.blocks.contains a) = [info.preheader]
  inside : sources.filter info.blocks.contains ≠ []
  onlyLatch : ∀ a ∈ sources, a ∈ info.blocks → a = info.latch

theorem checkBody_iff : checkBody c info body = .ok () ↔
    IdentSet.ofList (blocksAll body) = info.blocks ∧ startsAt info.header body = true ∧
      info.latch ∈ info.blocks ∧ ∃ header, c.blocks.get? info.header = some header ∧
        EntersWell info header.preds ∧ ∃ latch, c.blocks.get? info.latch = some latch ∧
          latch.hasEdgeTo info.header = true := by
  simp only [bind_eq_ok, throw_eq_error, error_bind, ite_error_eq_ok, checkBody,
    ite_else_error_eq_ok, List.partition_eq_filter_filter, Context.block_eq_ok, pure_eq_ok,
    Bool.or_eq_true, not_or, List.isEmpty_iff, List.any_eq_true, not_exists, not_and,
    List.mem_filter, decide_eq_true_eq, not_not, IdentSet.contains_iff, and_true,
    and_assoc, Function.comp_def, entersWell_iff, ne_eq]

theorem checkLoop_iff (hpeel : info.terminatedPeel? = none) : p.checkLoop c info body = .ok () ↔
    (∃ preheader, c.blocks.get? info.preheader = some preheader) ∧
      info.preheader ∉ info.blocks ∧ checkBody c info body = .ok () := by
  simp only [checkLoop, hpeel, bind_eq_ok, throw_eq_error, error_bind, ite_error_eq_ok,
    Context.block_eq_ok, IdentSet.contains_iff]
  exact exists_and_right

/-- No two contexts of one function have a block of the same name. -/
def BlocksApart (p : Program) (l : Layout) : Prop :=
  ∀ {k k' c c' b block block'}, p.contexts.get? k = some c → p.contexts.get? k' = some c' →
    l.functionRoot k = l.functionRoot k' → c.blocks.get? b = some block →
    c'.blocks.get? b = some block' → k = k'

/-- A loop of the context `k` that is walked as one. It lists the blocks of its body, which starts
with the header, and of all edges of the function to the header one comes from outside. Where the
function has one block of each name, these edges come from blocks of `k`. -/
structure LoopShape (p : Program) (l : Layout) (k : ContextId) (info : Loop) (body : List Region) :
    Prop where
  blocks : ∀ b, b ∈ info.blocks ↔ b ∈ blocksAll body
  start : ∃ rest, body = .block info.header :: rest
  enters : EntersWell info ((p.entries l (l.functionRoot k) info.header).map Prod.snd)
  located : p.BlocksApart l → ∀ e ∈ p.entries l (l.functionRoot k) info.header, e.1 = k

theorem loopShape_of_link {p₀ : Program} (hlink : p₀.link = .ok p)
    (hl : Layout.ofProgram p = .ok l) (hown : p.OwnNames) (hc : p.contexts.get? k = some c)
    (hbody : (info, body) ∈ bodiesAll c.regions) (hpeel : info.terminatedPeel? = none) :
    p.LoopShape l k info body := by
  have h := linked_of_link hlink hl hown
  obtain ⟨-, ⟨covered, hcovered, -⟩, -⟩ := h.shape_spec hc
  have hloop : p.checkLoop c info body = .ok () := checkLoop_of_bodiesAll hcovered _ hbody
  obtain ⟨hstart, hblocks⟩ := Linked.body_spec hloop hpeel
  obtain ⟨⟨preheader, hpreheader⟩, -, hchecked⟩ := (checkLoop_iff hpeel).1 hloop
  obtain ⟨-, -, -, header, hheader, henters, latch, hlatch, -⟩ := checkBody_iff.1 hchecked
  have hne : header.preds ≠ [] := fun hnil => henters.inside (by rw [hnil, List.filter_nil])
  have hpreds := preds_eq_entries hlink hl hown hc hheader hne
  rw [hpreds] at henters
  refine ⟨fun b => (hblocks b).symm, hstart, henters, fun hapart e he => ?_⟩
  obtain ⟨d, block, hd, hroot, hb, -⟩ := (mem_entries h).1 he
  have hsource := List.mem_map_of_mem (f := Prod.snd) he
  -- the source is the latch or the preheader
  by_cases hmem : e.2 ∈ info.blocks
  · exact hapart hd hc hroot (henters.onlyLatch _ hsource hmem ▸ hb) hlatch
  · have hpre : e.2 ∈ [info.preheader] := by
      rw [← henters.outside, List.mem_filter]
      exact ⟨hsource, by simpa [← IdentSet.contains_iff] using hmem⟩
    exact hapart hd hc hroot (List.mem_singleton.1 hpre ▸ hb) hpreheader

/-! ## Blocks, edges and iterations -/

namespace Linked

variable (h : p.Linked l) (hc : p.contexts.get? k = some c)

include h hc

/-- The regions of a context name each of its blocks once, and no other block. -/
theorem blocksAll_perm : (blocksAll c.regions).Perm c.blocks.keys := by
  obtain ⟨-, ⟨covered, hcovered, -⟩, -⟩ := h.shape_spec hc
  refine (List.perm_ext_iff_of_nodup (adds_of_checkRegions hcovered).nodup c.blocks.distinct).2
    fun b => ?_
  exact (h.mem_blocksAll hc).trans Table.mem_keys.symm

/-- An edge leads into a context around it that holds the target or starts a peel there. -/
theorem edge_spec {s : Successor} (hb : c.blocks.get? b = some block) (hs : s ∈ block.succs) :
    ∃ o d, l.edgeOwner? p k s.target = some o ∧ p.contexts.get? o = some d ∧ p.Within k o ∧
      l.functionRoot o = l.functionRoot k ∧ ((∃ block, d.blocks.get? s.target = some block) ∨
        ∃ info ∈ d.loops, info.terminatedPeel?.isSome = true ∧ info.header = s.target) := by
  obtain ⟨o, ho⟩ := h.edgeOwner_exists hc hb hs
  obtain ⟨hroot, ⟨d, hd⟩, howns⟩ := h.edgeOwnerFrom_spec hc ho
  have hwithin : p.Within k o := by
    rcases edgeOwnerFrom_within ho with rfl | ⟨child, hchild, hlast⟩
    · exact .refl
    · exact hchild.tail hlast
  refine ⟨o, d, ho, hd, hwithin, hroot, ?_⟩
  rw [Layout.owns, Bool.or_eq_true, decide_eq_true_eq] at howns
  rcases howns with howner | hpeeled
  · obtain ⟨d', hd', -, hblock⟩ := h.owner_spec howner
    cases hd.symm.trans hd'
    exact .inl hblock
  · obtain ⟨loop, hloop⟩ := Option.isSome_iff_exists.1 hpeeled
    obtain ⟨d', hd', rfl, info, hinfo, peel, hpeel, hheader, -⟩ := h.lists.header_from hloop
    cases hd.symm.trans (h.own.mem_values.1 hd')
    exact .inr ⟨info, hinfo, by rw [hpeel, Option.isSome_some], hheader⟩

/-- The latch of an iteration branches back to the header. -/
theorem latch_of_kind {loop : LoopId} {i : Nat} {header latch : BlockId}
    (hkind : c.kind = .iteration loop i header latch) :
    ∃ block, c.blocks.get? latch = some block ∧ block.hasEdgeTo header = true := by
  obtain ⟨-, -, hbounds⟩ := h.shape_spec hc
  simp only [checkBounds, hkind, throw_eq_error, error_bind, ite_error_eq_ok, bind_eq_ok,
    ite_else_error_eq_ok, Context.block_eq_ok] at hbounds
  obtain ⟨-, block, hblock, hedge, -⟩ := hbounds
  exact ⟨block, hblock, hedge⟩

end Linked

/-- The program has the shape that linking checks for. -/
structure Shapely (p : Program) (l : Layout) : Prop where
  names : (p.instrs.map Instr.id).Nodup
  covered : ∀ {k c}, p.contexts.get? k = some c → (blocksAll c.regions).Perm c.blocks.keys
  edges : ∀ {k c b block}, p.contexts.get? k = some c → c.blocks.get? b = some block →
    ∀ s ∈ block.succs, ∃ o d, l.edgeOwner? p k s.target = some o ∧ p.contexts.get? o = some d ∧
      p.Within k o ∧ l.functionRoot o = l.functionRoot k ∧
      ((∃ block, d.blocks.get? s.target = some block) ∨
        ∃ info ∈ d.loops, info.terminatedPeel?.isSome = true ∧ info.header = s.target)
  loops : ∀ {k c info body}, p.contexts.get? k = some c → (info, body) ∈ bodiesAll c.regions →
    info.terminatedPeel? = none → p.LoopShape l k info body
  /-- The iterations of a terminated peel are contexts of its loop, in order. Each starts at its
  header, and its latch branches back there. -/
  iterations : ∀ {k c info peel i next}, p.contexts.get? k = some c → info ∈ c.loops →
    info.terminatedPeel? = some peel → peel.iterations[i]? = some next →
    ∃ d latch block, p.contexts.get? next = some d ∧ d.parent = some k ∧
      d.kind = .iteration info.id i d.entry latch ∧ d.blocks.get? latch = some block ∧
      block.hasEdgeTo d.entry = true

/-- A linked program has a layout and is in shape, when every context has its own name. -/
theorem shapely_of_link {p₀ : Program} (hlink : p₀.link = .ok p) (hown : p.OwnNames) :
    ∃ l, Layout.ofProgram p = .ok l ∧ p.Shapely l := by
  obtain ⟨hnames, l, hl, -⟩ := link_eq_ok hlink
  have h := linked_of_link hlink hl hown
  refine ⟨l, hl, checkNames_nodup hnames, h.blocksAll_perm, fun hc hb s => h.edge_spec hc hb,
    loopShape_of_link hlink hl hown, fun hc hinfo hpeel hi => ?_⟩
  obtain ⟨d, latch, hd, hkind, hparent, -⟩ := h.iteration_spec hc hinfo hpeel hi
  obtain ⟨block, hblock, hedge⟩ := h.latch_of_kind hd hkind
  exact ⟨d, latch, block, hd, hparent, hkind, hblock, hedge⟩

/-- A loop with a smaller loop in it, and another one that was unrolled into two iterations. -/
def nestedLoops : Program where
  objects := .ofList []
  contexts := .ofList [
    (⟨0⟩,
      { id := ⟨0⟩
        kind := .function ⟨0⟩ "main" []
        blocks := .ofList [
          (⟨0⟩, { id := ⟨0⟩, succs := [⟨⟨1⟩, true⟩] }),
          (⟨1⟩, { id := ⟨1⟩, succs := [⟨⟨2⟩, true⟩] }),
          (⟨2⟩, { id := ⟨2⟩, succs := [⟨⟨2⟩, true⟩, ⟨⟨3⟩, true⟩] }),
          (⟨3⟩, { id := ⟨3⟩, succs := [⟨⟨6⟩, true⟩] }),
          (⟨4⟩, { id := ⟨4⟩, succs := [⟨⟨1⟩, true⟩, ⟨⟨5⟩, true⟩] }),
          (⟨5⟩, { id := ⟨5⟩, terminator := .ret })]
        regions := [.block ⟨0⟩,
          .loop { id := ⟨0⟩, preheader := ⟨0⟩, header := ⟨1⟩, latch := ⟨4⟩,
                  blocks := .ofList [⟨1⟩, ⟨2⟩, ⟨3⟩, ⟨4⟩] } [.block ⟨1⟩,
            .loop { id := ⟨1⟩, preheader := ⟨1⟩, header := ⟨2⟩, latch := ⟨2⟩,
                    blocks := .ofList [⟨2⟩] } [.block ⟨2⟩],
            .block ⟨3⟩,
            .loop { id := ⟨2⟩, preheader := ⟨3⟩, header := ⟨6⟩, latch := ⟨6⟩,
                    peel := some ⟨[⟨1⟩, ⟨2⟩], true, true⟩ } [],
            .block ⟨4⟩],
          .block ⟨5⟩]
        entry := ⟨0⟩ }),
    (⟨1⟩,
      { id := ⟨1⟩
        kind := .iteration ⟨2⟩ 0 ⟨6⟩ ⟨6⟩
        parent := some ⟨0⟩
        blocks := .ofList [(⟨6⟩, { id := ⟨6⟩, succs := [⟨⟨6⟩, true⟩, ⟨⟨4⟩, true⟩] })]
        regions := [.block ⟨6⟩]
        entry := ⟨6⟩ }),
    (⟨2⟩,
      { id := ⟨2⟩
        kind := .iteration ⟨2⟩ 1 ⟨7⟩ ⟨7⟩
        parent := some ⟨0⟩
        blocks := .ofList [(⟨7⟩, { id := ⟨7⟩, succs := [⟨⟨7⟩, false⟩, ⟨⟨4⟩, true⟩] })]
        regions := [.block ⟨7⟩]
        entry := ⟨7⟩ })]
  root := ⟨0⟩

theorem shapely_of_link_nestedLoops : Yields nestedLoops.link fun p =>
    p.OwnNames ∧ p.contexts.size = 3 ∧ ∃ l, Layout.ofProgram p = .ok l ∧ p.Shapely l := by
  have hyields : Yields nestedLoops.link fun p => p.OwnNames ∧ p.contexts.size = 3 := by
    decide +kernel
  obtain ⟨p, hlink, hown, hsize⟩ := hyields
  exact ⟨p, hlink, hown, hsize, shapely_of_link hlink hown⟩

end Program

end ByteTrust
