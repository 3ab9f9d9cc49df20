import Mathlib.Data.List.Induction
import ByteTrust.Proofs.Program.Shape

/-!
# Which entries of a layout are overwritten

The tables of a layout are filled one entry after the other (`Layout.eq_replay`), and an entry with
a key that is there already takes the place of the earlier one. `Clean` entries never do. The
places of instructions are never overwritten in a linked program. All entries are clean exactly
when the blocks of each function are apart, and the peeled loops of each context, which linking does
not check; the headers of peels are apart then.
-/

namespace ByteTrust

/-- The loops of a context that were unrolled, with their peel attempts. -/
def Context.peeled (c : Context) : List (Loop × PeelAttempt) :=
  c.loops.filterMap fun info => info.peel.map fun peel => (info, peel)

namespace Layout

/-- A key of one of the tables. -/
inductive Key
  | root (c : ContextId)
  | depth (c : ContextId)
  | place (i : InstId)
  | owner (f : ContextId) (b : BlockId)
  | peel (c : ContextId) (loop : LoopId)
  | header (c : ContextId) (b : BlockId)
deriving DecidableEq

/-- An entry of one of the tables. -/
inductive Entry
  | root (c f : ContextId)
  | depth (c : ContextId) (n : Nat)
  | place (i : InstId) (place : Place)
  | owner (f : ContextId) (b : BlockId) (c : ContextId)
  | peel (c : ContextId) (loop : LoopId) (peel : PeelAttempt)
  | header (c : ContextId) (b : BlockId) (loop : LoopId)

/-- The key of an entry. -/
def Entry.key : Entry → Key
  | .root c _ => .root c
  | .depth c _ => .depth c
  | .place i _ => .place i
  | .owner f b _ => .owner f b
  | .peel c loop _ => .peel c loop
  | .header c b _ => .header c b

/-- Put one entry into its table. -/
def enter (l : Layout) : Entry → Layout
  | .root c f => { l with roots := l.roots.insert c f }
  | .depth c n => { l with depths := l.depths.insert c n }
  | .place i place => { l with places := l.places.insert i place }
  | .owner f b c => { l with owners := l.owners.insert (f, b) c }
  | .peel c loop peel => { l with peels := l.peels.insert (c, loop) peel }
  | .header c b loop => { l with peeledHeaders := l.peeledHeaders.insert (c, b) loop }

/-- The key is there. -/
def holds (l : Layout) : Key → Bool
  | .root c => (l.roots.get? c).isSome
  | .depth c => (l.depths.get? c).isSome
  | .place i => (l.places.get? i).isSome
  | .owner f b => (l.owners.get? (f, b)).isSome
  | .peel c loop => (l.peels.get? (c, loop)).isSome
  | .header c b => (l.peeledHeaders.get? (c, b)).isSome

/-- The entries of a context, given its function and its depth in `l`. -/
def entriesOf (l : Layout) (c : Context) : List Entry :=
  [.root c.id (l.functionRoot c.id), .depth c.id (l.callDepth c.id)] ++
    c.instructions.map (fun i => .place i.2.2.id ⟨c.id, i.1, i.2.1⟩) ++
    c.blocks.keys.map (fun b => .owner (l.functionRoot c.id) b c.id) ++
    c.peeled.map (fun e => .peel c.id e.1.id e.2) ++
    (c.peeled.filter fun e => e.2.terminated).map fun e => .header c.id e.1.header e.1.id

/-- The entries of all contexts, in the order in which they are made. -/
def log (l : Layout) (p : Program) : List Entry := p.contexts.values.flatMap l.entriesOf

variable {p : Program} {l l' : Layout} {c : Context} {e : Entry} {es : List Entry} {k : Key}

/-! ## Filling the tables -/

section Fill

variable {α τ : Type} (xs : List α)

/-- Entries of one table fill this table. -/
theorem foldl_enter (set : τ → Layout) (make : α → Entry) (put : τ → α → τ)
    (h : ∀ t x, (set t).enter (make x) = set (put t x)) (t : τ) :
    (xs.map make).foldl enter (set t) = set (xs.foldl put t) := by
  induction xs generalizing t with
  | nil => rfl
  | cons x xs ih => rw [List.map_cons, List.foldl_cons, h, ih, List.foldl_cons]

theorem foldl_place (f : α → InstId) (g : α → Place) :
    (xs.map fun x => Entry.place (f x) (g x)).foldl enter l =
      { l with places := xs.foldl (fun t x => t.insert (f x) (g x)) l.places } :=
  foldl_enter xs (fun t => { l with places := t }) _ _ (fun _ _ => rfl) l.places

theorem foldl_owner (f : α → ContextId) (g : α → BlockId) (h : α → ContextId) :
    (xs.map fun x => Entry.owner (f x) (g x) (h x)).foldl enter l =
      { l with owners := xs.foldl (fun t x => t.insert (f x, g x) (h x)) l.owners } :=
  foldl_enter xs (fun t => { l with owners := t }) _ _ (fun _ _ => rfl) l.owners

theorem foldl_peel (f : α → ContextId) (g : α → LoopId) (h : α → PeelAttempt) :
    (xs.map fun x => Entry.peel (f x) (g x) (h x)).foldl enter l =
      { l with peels := xs.foldl (fun t x => t.insert (f x, g x) (h x)) l.peels } :=
  foldl_enter xs (fun t => { l with peels := t }) _ _ (fun _ _ => rfl) l.peels

theorem foldl_header (f : α → ContextId) (g : α → BlockId) (h : α → LoopId) :
    (xs.map fun x => Entry.header (f x) (g x) (h x)).foldl enter l =
      { l with peeledHeaders :=
        xs.foldl (fun t x => t.insert (f x, g x) (h x)) l.peeledHeaders } :=
  foldl_enter xs (fun t => { l with peeledHeaders := t }) _ _ (fun _ _ => rfl) l.peeledHeaders

end Fill

/-- A context is entered by its entries, one after the other. -/
theorem addContext_eq_foldl {m : Layout} (h : addContext p l c = .ok l')
    (hroot : p.functionRootFrom p.climbBound c.id = .ok (m.functionRoot c.id))
    (hdepth : p.callDepthFrom p.climbBound c.id 0 = .ok (m.callDepth c.id)) :
    l' = (m.entriesOf c).foldl enter l := by
  rw [addContext, hroot, hdepth] at h
  cases h
  simp only [entriesOf, List.foldl_append, foldl_place, foldl_owner, foldl_peel, foldl_header]
  rfl

/-- A layout is what its entries make, one after the other. -/
theorem eq_replay (h : ofProgram p = .ok l) :
    l = { (l.log p).foldl enter {} with order := l.order } := by
  have hlists := lists_of_ofProgram h
  rw [ofProgram, bind_eq_ok] at h
  obtain ⟨m, hm, h⟩ := h
  rw [bind_eq_ok] at h
  obtain ⟨order, -, h⟩ := h
  have hreplay : m = (l.log p).foldl enter {} := by
    refine foldlM_induction hm (fun done m => m = (done.flatMap l.entriesOf).foldl enter {}) rfl ?_
    rintro done m c m' hc hadd rfl
    rw [List.flatMap_append, List.flatMap_singleton, List.foldl_append]
    exact addContext_eq_foldl hadd (hlists.root c hc) (hlists.depth c hc)
  rw [← hreplay]
  cases h
  rfl

/-! ## Entries that overwrite nothing -/

/-- Wherever the entry is made, its key is not there before. -/
def Fresh (es : List Entry) (e : Entry) : Prop :=
  ∀ before after, es = before ++ e :: after → (before.foldl enter {}).holds e.key = false

/-- No entry is overwritten. -/
def Clean (es : List Entry) : Prop := ∀ e, Fresh es e

theorem holds_enter : (l.enter e).holds k = true ↔ k = e.key ∨ l.holds k = true := by
  cases e <;> cases k <;>
    simp [enter, holds, Entry.key, IdentMap.get?_insert, Table.get?_insert] <;> split <;> simp_all

theorem holds_foldl : (es.foldl enter l).holds k = true ↔
    k ∈ es.map Entry.key ∨ l.holds k = true := by
  induction es generalizing l with
  | nil => simp
  | cons e es ih =>
    rw [List.foldl_cons, ih, holds_enter, List.map_cons, List.mem_cons]
    tauto

theorem holds_empty : ({} : Layout).holds k = false := by cases k <;> rfl

theorem fresh_iff : Fresh es e ↔
    ∀ before after, es = before ++ e :: after → e.key ∉ before.map Entry.key := by
  simp only [Fresh, ← Bool.not_eq_true, holds_foldl, holds_empty, Bool.false_eq_true, or_false]

/-- Entries are clean when their keys are distinct. -/
theorem clean_iff : Clean es ↔ (es.map Entry.key).Nodup := by
  simp only [Clean, fresh_iff]
  constructor
  · intro h
    induction es using List.reverseRecOn with
    | nil => exact List.nodup_nil
    | append_singleton es e ih =>
      have hes : (es.map Entry.key).Nodup := ih fun e' before after heq =>
        h e' before (after ++ [e]) (by rw [heq, List.append_assoc, List.cons_append])
      rw [List.map_append, List.map_singleton, ← List.concat_eq_append]
      exact hes.concat (h e es [] rfl)
  · rintro h e before after rfl hmem
    rw [List.map_append, List.map_cons] at h
    exact (List.nodup_append.1 h).2.2 e.key hmem e.key List.mem_cons_self rfl

instance (es : List Entry) : Decidable (Clean es) := decidable_of_iff' _ clean_iff

/-! ## Keys of a context -/

/-- The keys of the entries of a context. -/
def keysOf (l : Layout) (c : Context) : List Key :=
  .root c.id :: .depth c.id :: (c.instructions.map (fun e => e.2.2.id)).map .place ++
    c.blocks.keys.map (.owner (l.functionRoot c.id)) ++
    (c.peeled.map fun e => e.1.id).map (.peel c.id) ++
    ((c.peeled.filter fun e => e.2.terminated).map fun e => e.1.header).map (.header c.id)

theorem keys_log : (l.log p).map Entry.key = p.contexts.values.flatMap l.keysOf := by
  rw [log, List.map_flatMap]
  congr 1
  funext c
  simp only [entriesOf, keysOf, List.map_append, List.map_map, List.map_cons, List.map_nil]
  rfl

/-- What a key tells of a context that makes an entry under it. -/
def Key.Of (l : Layout) (c : Context) : Key → Prop
  | .root k | .depth k | .peel k _ | .header k _ => k = c.id
  | .place i => i ∈ c.instructions.map fun e => e.2.2.id
  | .owner f b => f = l.functionRoot c.id ∧ b ∈ c.blocks.keys

theorem of_mem_keysOf (hk : k ∈ l.keysOf c) : k.Of l c := by
  cases k <;> simp [keysOf, Key.Of] at hk ⊢ <;> grind

theorem owner_mem_keysOf {b : BlockId} (hb : b ∈ c.blocks.keys) :
    .owner (l.functionRoot c.id) b ∈ l.keysOf c := by
  simp [keysOf, hb]

/-- The keys of a context are distinct, if its instructions, its peeled loops and their headers
are. -/
theorem nodup_keysOf (hinsts : (c.instructions.map fun e => e.2.2.id).Nodup)
    (hloops : (c.peeled.map fun e => e.1.id).Nodup)
    (hheaders : ((c.peeled.filter fun e => e.2.terminated).map fun e => e.1.header).Nodup) :
    (l.keysOf c).Nodup := by
  have hplaces : ((c.instructions.map fun e => e.2.2.id).map Key.place).Nodup :=
    hinsts.map fun _ _ h => Key.place.inj h
  have howners : (c.blocks.keys.map (Key.owner (l.functionRoot c.id))).Nodup :=
    c.blocks.distinct.map fun _ _ h => (Key.owner.inj h).2
  have hpeels : ((c.peeled.map fun e => e.1.id).map (Key.peel c.id)).Nodup :=
    hloops.map fun _ _ h => (Key.peel.inj h).2
  have hheads := hheaders.map (f := Key.header c.id) fun _ _ h => (Key.header.inj h).2
  simp only [keysOf, List.cons_append, List.nodup_cons, List.nodup_append, hplaces, howners,
    hpeels, hheads]
  grind

/-- The instruction whose place is entered under the key. -/
def Key.inst? : Key → Option InstId
  | .place i => some i
  | _ => none

theorem map_instructions (c : Context) : c.instructions.map (fun e => e.2.2.id) =
    (c.blocks.values.flatMap Block.insts).map Instr.id := by
  rw [Context.instructions, List.map_flatMap, List.map_flatMap]
  congr 1
  funext block
  refine List.ext_getElem? fun i => ?_
  simp [Function.comp_def]

theorem insts_log : ((l.log p).map Entry.key).filterMap Key.inst? = p.instrs.map Instr.id := by
  rw [keys_log, List.filterMap_flatMap, Program.instrs, List.map_flatMap]
  congr 1
  funext c
  simp only [keysOf, map_instructions, List.filterMap_append, List.filterMap_map,
    List.filterMap_cons, Function.comp_def, Key.inst?, List.filterMap_none, List.append_nil]
  exact congrFun List.filterMap_eq_map' _

/-- The places of instructions are not overwritten, if their names are distinct. -/
theorem fresh_place (h : (p.instrs.map Instr.id).Nodup) (i : InstId) (place : Place) :
    Fresh (l.log p) (.place i place) := by
  rw [fresh_iff]
  intro before after heq hmem
  rw [← insts_log (l := l), heq, List.map_append, List.filterMap_append] at h
  have hbefore : i ∈ (before.map Entry.key).filterMap Key.inst? :=
    List.mem_filterMap.2 ⟨_, hmem, rfl⟩
  refine (List.nodup_append.1 h).2.2 i hbefore i ?_ rfl
  exact List.mem_filterMap.2 ⟨_, List.mem_map_of_mem List.mem_cons_self, rfl⟩

/-- Contexts with clean entries have different names. -/
theorem Clean.nodup_ids (h : Clean (l.log p)) : (p.contexts.values.map Context.id).Nodup := by
  rw [clean_iff, keys_log, List.nodup_flatMap] at h
  rw [List.nodup_iff_pairwise_ne, List.pairwise_map]
  refine h.2.imp fun hdisjoint hid => ?_
  exact hdisjoint List.mem_cons_self (hid ▸ List.mem_cons_self)

end Layout

/-! ## Linked programs -/

namespace Program

variable {p : Program} {l : Layout} {k : ContextId} {c : Context}

/-- No two loops of a context that were unrolled have the same name. -/
def LoopsApart (p : Program) : Prop :=
  ∀ {k c}, p.contexts.get? k = some c → (c.peeled.map fun e => e.1.id).Nodup

theorem OwnNames.nodup_ids (h : p.OwnNames) : (p.contexts.values.map Context.id).Nodup := by
  have hids : p.contexts.values.map Context.id = p.contexts.keys := by
    rw [Table.values, List.map_map, Table.keys]
    exact List.map_congr_left (ownNames_iff.1 h)
  rw [hids]
  exact p.contexts.distinct

theorem instrs_eq : p.instrs.map Instr.id =
    p.contexts.values.flatMap fun c => c.instructions.map fun e => e.2.2.id := by
  simp only [instrs, List.map_flatMap, Layout.map_instructions]

namespace Linked

variable (h : p.Linked l)

include h

/-- Peels that start at one place are peels of one loop. -/
theorem loop_of_header (hapart : p.BlocksApart l) (hc : p.contexts.get? k = some c)
    {info info' : Loop} {peel peel' : PeelAttempt} (hinfo : info ∈ c.loops)
    (hinfo' : info' ∈ c.loops) (hpeel : info.terminatedPeel? = some peel)
    (hpeel' : info'.terminatedPeel? = some peel') (hheader : info.header = info'.header) :
    info.id = info'.id := by
  obtain ⟨next, hnext⟩ := h.first_iteration hc hinfo hpeel
  obtain ⟨next', hnext'⟩ := h.first_iteration hc hinfo' hpeel'
  obtain ⟨d, latch, hd, hkind, -, hentry⟩ := h.iteration_spec hc hinfo hpeel hnext
  obtain ⟨d', latch', hd', hkind', -, hentry'⟩ := h.iteration_spec hc hinfo' hpeel' hnext'
  obtain ⟨block, hblock⟩ := h.entry hd
  obtain ⟨block', hblock'⟩ := h.entry hd'
  have hroot : l.functionRoot next = l.functionRoot next' :=
    (h.functionRoot_of_encloses (h.iteration_encloses hc hinfo hpeel hnext)).trans
      (h.functionRoot_of_encloses (h.iteration_encloses hc hinfo' hpeel' hnext')).symm
  rw [hentry rfl, hheader] at hblock
  rw [hentry' rfl] at hblock'
  -- both iterations hold the block
  obtain rfl := hapart hd hd' hroot hblock hblock'
  cases hd.symm.trans hd'
  exact (ContextKind.iteration.inj (hkind.symm.trans hkind')).1

theorem nodup_headers (hapart : p.BlocksApart l) (hc : p.contexts.get? k = some c)
    (hloops : (c.peeled.map fun e => e.1.id).Nodup) :
    ((c.peeled.filter fun e => e.2.terminated).map fun e => e.1.header).Nodup := by
  refine (hloops.of_map.filter _).map_on fun e he e' he' hheader => ?_
  obtain ⟨hmem, hterm⟩ := List.mem_filter.1 he
  obtain ⟨hmem', hterm'⟩ := List.mem_filter.1 he'
  obtain ⟨hinfo, hpeel⟩ := Layout.mem_peeled.1 hmem
  obtain ⟨hinfo', hpeel'⟩ := Layout.mem_peeled.1 hmem'
  refine List.inj_on_of_nodup_map hloops hmem hmem' (h.loop_of_header hapart hc hinfo hinfo'
    (Layout.terminatedPeel?_eq_some.2 ⟨hpeel, hterm⟩)
    (Layout.terminatedPeel?_eq_some.2 ⟨hpeel', hterm'⟩) hheader)

/-- Contexts of different names have no key in common. -/
theorem disjoint_keysOf (hapart : p.BlocksApart l) {c c' : Context} (hc : c ∈ p.contexts.values)
    (hc' : c' ∈ p.contexts.values) (hne : c.id ≠ c'.id) :
    List.Disjoint (l.keysOf c) (l.keysOf c') := by
  intro key hkey hkey'
  have hof := Layout.of_mem_keysOf hkey
  have hof' := Layout.of_mem_keysOf hkey'
  cases key with
  | place i =>
    have hnames := h.names
    rw [instrs_eq] at hnames
    exact hne (congrArg Context.id (eq_of_nodup_flatMap hnames hc hc' hof hof'))
  | owner f b =>
    obtain ⟨rfl, hb⟩ := hof
    obtain ⟨hroot, hb'⟩ := hof'
    obtain ⟨block, hb⟩ := Table.mem_keys.1 hb
    obtain ⟨block', hb'⟩ := Table.mem_keys.1 hb'
    exact hne (hapart (h.own.mem_values.1 hc) (h.own.mem_values.1 hc') hroot hb hb')
  | root | depth | peel | header => exact hne (hof.symm.trans hof')

/-- The layout of a linked program is made without overwriting exactly when the blocks of each
function are apart, and the unrolled loops of each context. -/
theorem clean_iff : Layout.Clean (l.log p) ↔ p.BlocksApart l ∧ p.LoopsApart := by
  rw [Layout.clean_iff, Layout.keys_log]
  constructor
  · intro hnodup
    refine ⟨fun {k k' c c' b block block'} hc hc' hroot hb hb' => ?_, fun {k c} hc => ?_⟩
    · have hid := h.own k c hc
      have hid' := h.own k' c' hc'
      have hmem := Layout.owner_mem_keysOf (l := l) (Table.mem_keys.2 ⟨block, hb⟩)
      have hmem' := Layout.owner_mem_keysOf (l := l) (Table.mem_keys.2 ⟨block', hb'⟩)
      rw [hid, hroot] at hmem
      rw [hid'] at hmem'
      rw [← hid, ← hid', eq_of_nodup_flatMap hnodup (Table.mem_values_of_get? hc)
        (Table.mem_values_of_get? hc') hmem hmem']
    · have hkeys := (List.nodup_flatMap.1 hnodup).1 c (Table.mem_values_of_get? hc)
      simp only [Layout.keysOf, List.nodup_append] at hkeys
      exact hkeys.1.2.1.of_map
  · rintro ⟨hapart, hloops⟩
    refine List.nodup_flatMap.2 ⟨fun c hc => ?_, ?_⟩
    · have hget := h.own.mem_values.1 hc
      have hnames := h.names
      rw [instrs_eq] at hnames
      exact Layout.nodup_keysOf ((List.nodup_flatMap.1 hnames).1 c hc) (hloops hget)
        (h.nodup_headers hapart hget (hloops hget))
    · have hids := List.pairwise_map.1 h.own.nodup_ids
      exact hids.imp_of_mem fun hc hc' hne => h.disjoint_keysOf hapart hc hc' hne

end Linked

/-- The layout of a linked program is made one entry after the other. The places of instructions are
never overwritten. If no entry is, no two contexts have the same name; and where every context has
its own, no entry is overwritten exactly when no two blocks of a function have the same name, and
no two unrolled loops of a context. -/
theorem layout_overwrites {p₀ : Program} (hlink : p₀.link = .ok p)
    (hl : Layout.ofProgram p = .ok l) :
    l = { (l.log p).foldl Layout.enter {} with order := l.order } ∧
      (∀ i place, Layout.Fresh (l.log p) (.place i place)) ∧
      (Layout.Clean (l.log p) → (p.contexts.values.map Context.id).Nodup) ∧
      (p.OwnNames → (Layout.Clean (l.log p) ↔ p.BlocksApart l ∧ p.LoopsApart)) :=
  ⟨Layout.eq_replay hl, Layout.fresh_place (checkNames_nodup (link_eq_ok hlink).1),
    Layout.Clean.nodup_ids, fun hown => (linked_of_link hlink hl hown).clean_iff⟩

/-- All blocks of the nested loops are apart. -/
theorem layout_overwrites_nestedLoops : Yields nestedLoops.link fun p =>
    Yields (Layout.ofProgram p) fun l =>
      (l.log p).length = 16 ∧ p.BlocksApart l ∧ p.LoopsApart := by
  have hyields : Yields nestedLoops.link fun p => p.OwnNames ∧
      Yields (Layout.ofProgram p) fun l => (l.log p).length = 16 ∧ Layout.Clean (l.log p) := by
    decide +kernel
  obtain ⟨p, hlink, hown, l, hl, hlength, hclean⟩ := hyields
  obtain ⟨-, -, -, hiff⟩ := layout_overwrites hlink hl
  exact ⟨p, hlink, l, hl, hlength, (hiff hown).1 hclean⟩

/-- The block 2 stands in the function and in an iteration of its loop. -/
def sharedBlock : Program where
  objects := .ofList []
  contexts := .ofList [
    (⟨0⟩,
      { id := ⟨0⟩
        kind := .function ⟨0⟩ "main" []
        blocks := .ofList [
          (⟨0⟩, { id := ⟨0⟩, succs := [⟨⟨1⟩, true⟩] }), (⟨2⟩, { id := ⟨2⟩, terminator := .ret })]
        regions := [.block ⟨0⟩,
          .loop { id := ⟨0⟩, preheader := ⟨0⟩, header := ⟨1⟩, latch := ⟨1⟩,
                  peel := some ⟨[⟨1⟩], true, true⟩ } [],
          .block ⟨2⟩]
        entry := ⟨0⟩ }),
    (⟨1⟩,
      { id := ⟨1⟩
        kind := .iteration ⟨0⟩ 0 ⟨1⟩ ⟨1⟩
        parent := some ⟨0⟩
        blocks := .ofList [
          (⟨1⟩, { id := ⟨1⟩, succs := [⟨⟨1⟩, false⟩, ⟨⟨2⟩, true⟩] }),
          (⟨2⟩, { id := ⟨2⟩, terminator := .ret })]
        regions := [.block ⟨1⟩, .block ⟨2⟩]
        entry := ⟨1⟩ })]
  root := ⟨0⟩

/-- Two loops of one name, each with a peel attempt. -/
def twinLoops : Program where
  objects := .ofList []
  contexts := .ofList [
    (⟨0⟩,
      { id := ⟨0⟩
        kind := .function ⟨0⟩ "main" []
        blocks := .ofList [
          (⟨0⟩, { id := ⟨0⟩, succs := [⟨⟨1⟩, true⟩] }),
          (⟨1⟩, { id := ⟨1⟩, succs := [⟨⟨1⟩, true⟩, ⟨⟨2⟩, true⟩] }),
          (⟨2⟩, { id := ⟨2⟩, succs := [⟨⟨2⟩, true⟩, ⟨⟨3⟩, true⟩] }),
          (⟨3⟩, { id := ⟨3⟩, terminator := .ret })]
        regions := [.block ⟨0⟩,
          .loop { id := ⟨0⟩, preheader := ⟨0⟩, header := ⟨1⟩, latch := ⟨1⟩,
                  blocks := .ofList [⟨1⟩], peel := some ⟨[], false, true⟩ } [.block ⟨1⟩],
          .loop { id := ⟨0⟩, preheader := ⟨1⟩, header := ⟨2⟩, latch := ⟨2⟩,
                  blocks := .ofList [⟨2⟩], peel := some ⟨[], false, true⟩ } [.block ⟨2⟩],
          .block ⟨3⟩]
        entry := ⟨0⟩ })]
  root := ⟨0⟩

/-- Two functions of one name. -/
def twinContexts : Program where
  objects := .ofList []
  contexts := .ofList [
    (⟨0⟩,
      { id := ⟨0⟩
        kind := .function ⟨0⟩ "main" []
        blocks := .ofList [(⟨0⟩, { id := ⟨0⟩, terminator := .ret })]
        regions := [.block ⟨0⟩]
        entry := ⟨0⟩ }),
    (⟨1⟩,
      { id := ⟨0⟩
        kind := .function ⟨0⟩ "main" []
        blocks := .ofList [(⟨1⟩, { id := ⟨1⟩, terminator := .ret })]
        regions := [.block ⟨1⟩]
        entry := ⟨1⟩ })]
  root := ⟨0⟩

/-- Linked programs whose layout loses an entry: the owner of a block, the peel attempt of a loop,
and the function of a context. -/
theorem layout_entry_lost :
    (Yields sharedBlock.link fun p => p.OwnNames ∧ Yields (Layout.ofProgram p) fun l =>
      ¬ Layout.Clean (l.log p) ∧ l.functionRoot ⟨1⟩ = ⟨0⟩ ∧
        ∀ c ∈ p.contexts.values, ⟨2⟩ ∈ c.blocks.keys) ∧
    (Yields twinLoops.link fun p => p.OwnNames ∧ Yields (Layout.ofProgram p) fun l =>
      ¬ Layout.Clean (l.log p) ∧ ∃ c ∈ p.contexts.values,
        ¬ (c.peeled.map fun e => e.1.id).Nodup) ∧
    Yields twinContexts.link fun p => Yields (Layout.ofProgram p) fun l =>
      ¬ Layout.Clean (l.log p) ∧ ¬ (p.contexts.values.map Context.id).Nodup := by
  decide +kernel

end Program

end ByteTrust
