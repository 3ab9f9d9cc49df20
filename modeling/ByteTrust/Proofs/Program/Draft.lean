import ByteTrust.Program.Draft
import ByteTrust.Proofs.Program.Filed

/-!
# Drafts are filed well

Whatever actions made a draft, in any order and over any contexts: if none of them was a misuse and
every loop was closed, the program that is linked is filed well (`finish_filed`).

While loops are open the blocks of a context are in several places: in its regions, and in the
bodies of its open loops. A loop lists a block as soon as the block is added, but the block comes
into the bodies of the loops around it only when the loops between are closed. `Filed` says this of
a draft, with the blocks that an action holds *in hand* while it moves them: a new block before it
is put into a region, and the body of a loop that is being closed. Each action keeps it, as long as
it is not a misuse (`Sound.perform`).
-/

namespace ByteTrust

open Region

theorem Table.get?_modify {α β : Type*} [DecidableEq α] (t : Table α β) (k j : α) (f : β → β) :
    (t.modify k f).get? j = (t.get? j).map fun v => if j = k then f v else v :=
  get?_mapValues _ _ j

/-! ## Regions -/

namespace Region

theorem blocksAll_append (rs rs' : List Region) :
    blocksAll (rs ++ rs') = blocksAll rs ++ blocksAll rs' := by
  induction rs with
  | nil => rfl
  | cons r rs ih => rw [List.cons_append, blocksAll, blocksAll, ih, List.append_assoc]

theorem blocksAll_concat (rs : List Region) (r : Region) :
    blocksAll (rs ++ [r]) = blocksAll rs ++ r.blocks := by
  rw [blocksAll_append, blocksAll, blocksAll, List.append_nil]

theorem bodiesAll_concat (rs : List Region) (r : Region) :
    bodiesAll (rs ++ [r]) = bodiesAll rs ++ r.bodies := by
  induction rs with
  | nil => exact List.append_nil _
  | cons r' rs ih => rw [List.cons_append, bodiesAll, bodiesAll, ih, List.append_assoc]

mutual

theorem blocks_mapLoops (f : Loop → Loop) : ∀ r : Region, (r.mapLoops f).blocks = r.blocks
  | .block _ => rfl
  | .loop _ body => blocksAll_mapLoopsAll f body

theorem blocksAll_mapLoopsAll (f : Loop → Loop) :
    ∀ rs : List Region, blocksAll (mapLoopsAll f rs) = blocksAll rs
  | [] => rfl
  | r :: rs => by
    rw [mapLoopsAll, blocksAll, blocksAll, blocks_mapLoops f r, blocksAll_mapLoopsAll f rs]

end

/-- A loop lists the blocks of its body. -/
def BodyListed (e : Loop × List Region) : Prop := ∀ b, b ∈ e.1.blocks ↔ b ∈ blocksAll e.2

/-- Every loop in the regions lists the blocks of its body. -/
def Agrees (rs : List Region) : Prop := ∀ e ∈ bodiesAll rs, BodyListed e

theorem agrees_nil : Agrees [] := fun _ he => (List.not_mem_nil he).elim

theorem Agrees.concat {rs : List Region} {r : Region} (h : Agrees rs)
    (hr : ∀ e ∈ r.bodies, BodyListed e) : Agrees (rs ++ [r]) := by
  unfold Agrees
  rw [bodiesAll_concat, List.forall_mem_append]
  exact ⟨h, hr⟩

mutual

theorem agrees_mapLoops {f : Loop → Loop} (hf : ∀ l, (f l).blocks = l.blocks) :
    ∀ {r : Region}, (∀ e ∈ r.bodies, BodyListed e) → ∀ e ∈ (r.mapLoops f).bodies, BodyListed e
  | .block _, h => h
  | .loop info body, h => by
    obtain ⟨hinfo, hbody⟩ := List.forall_mem_cons.1 h
    refine List.forall_mem_cons.2 ⟨fun b => ?_, Agrees.mapLoopsAll hf hbody⟩
    rw [hf, blocksAll_mapLoopsAll]
    exact hinfo b

theorem Agrees.mapLoopsAll {f : Loop → Loop} (hf : ∀ l, (f l).blocks = l.blocks) :
    ∀ {rs : List Region}, Agrees rs → Agrees (mapLoopsAll f rs)
  | [], h => h
  | r :: rs, h => by
    obtain ⟨hr, hrs⟩ := List.forall_mem_append.1 h
    exact List.forall_mem_append.2 ⟨agrees_mapLoops hf hr, Agrees.mapLoopsAll hf hrs⟩

end

end Region

/-- Two contexts that have their blocks in the same places. -/
structure Context.Parallel (c c' : Context) : Prop where
  id : c'.id = c.id
  blocks : ∀ b, (c'.blocks.get? b).isSome = (c.blocks.get? b).isSome
  regions : blocksAll c'.regions = blocksAll c.regions
  agrees : Agrees c.regions → Agrees c'.regions

/-- What is filed of a block: its own name, and the names of its instructions. -/
def Block.label (b : Block) : BlockId × List InstId := (b.id, b.insts.map Instr.id)

/-- Two contexts that are filed alike. -/
structure Context.Alike (c c' : Context) : Prop where
  id : c'.id = c.id
  blocks : ∀ b, (c'.blocks.get? b).map Block.label = (c.blocks.get? b).map Block.label
  regions : blocksAll c'.regions = blocksAll c.regions
  agrees : Agrees c.regions → Agrees c'.regions

theorem Context.Alike.parallel {c c' : Context} (h : Context.Alike c c') : Context.Parallel c c' :=
  ⟨h.id, fun b => by simpa using congrArg Option.isSome (h.blocks b), h.regions, h.agrees⟩

theorem Context.Alike.exists_block {c c' : Context} (h : Context.Alike c c') {b : BlockId}
    {block' : Block} (hb : c'.blocks.get? b = some block') :
    ∃ block, c.blocks.get? b = some block ∧ block'.label = block.label := by
  have hlabel := h.blocks b
  rw [hb, Option.map_some, eq_comm, Option.map_eq_some_iff] at hlabel
  obtain ⟨block, hblock, hlabel⟩ := hlabel
  exact ⟨block, hblock, hlabel.symm⟩

theorem Context.alike_of_eq {c c' : Context} (hid : c'.id = c.id) (hblocks : c'.blocks = c.blocks)
    (hregions : c'.regions = c.regions) : Context.Alike c c' :=
  ⟨hid, fun b => by rw [hblocks], by rw [hregions], fun h => hregions ▸ h⟩

theorem exists_of_rel_some {α : Type} {R : α → α → Prop} {x : Option α} {a' : α}
    (h : Option.Rel R x (some a')) : ∃ a, x = some a ∧ R a a' := by
  cases h with
  | some haa' => exact ⟨_, rfl, haa'⟩

namespace Draft

variable {d d' : Draft} {c k : ContextId} {b : BlockId}

/-! ## Filed drafts -/

/-- The regions of a context. -/
def regionsOf (d : Draft) (k : ContextId) : List Region :=
  (d.contexts.get? k).elim [] Context.regions

/-- The blocks in the regions of a context and in its open loops. -/
def placed (d : Draft) (k : ContextId) : List BlockId :=
  blocksAll (d.regionsOf k) ++ (d.openLoopsOf k).flatMap fun l => blocksAll l.body

/-- The context has the block. -/
def HasBlock (d : Draft) (k : ContextId) (b : BlockId) : Prop :=
  ∃ c block, d.contexts.get? k = some c ∧ c.blocks.get? b = some block

/-- Open loops, innermost first, list the blocks of their bodies and all blocks inside of them. The
blocks `inner` are inside of all of them. -/
def Lists : List BlockId → List OpenLoop → Prop
  | _, [] => True
  | inner, l :: ls => (∀ b, b ∈ l.blocks ↔ b ∈ inner ++ blocksAll l.body) ∧
      Lists (inner ++ blocksAll l.body) ls

/-- Blocks in hand for one context. -/
def inHand (c : ContextId) (bs : List BlockId) (k : ContextId) : List BlockId :=
  if k = c then bs else []

/-- A block is filed under its name in a context, and its instructions with it. -/
def FiledBlock (d : Draft) (k : ContextId) (b : BlockId) (block : Block) : Prop :=
  block.id = b ∧ b.number < d.nextBlock ∧ (block.insts.map Instr.id).Nodup ∧
    ∀ i ∈ block.insts.map Instr.id, d.places.get? i = some (k, b) ∧ i.number < d.nextInst

theorem FiledBlock.relabel {block block' : Block} (h : d.FiledBlock k b block)
    (hlabel : block'.label = block.label) : d.FiledBlock k b block' := by
  obtain ⟨hid, hinsts⟩ := Prod.mk.inj hlabel
  unfold FiledBlock at h ⊢
  rwa [hid, hinsts]

/-- A draft is filed well, with blocks in hand that stand in no region yet. -/
structure Filed (d : Draft) (hand : ContextId → List BlockId) : Prop where
  objects : ∀ o object, d.objects.get? o = some object → object.id = o
  contexts : ∀ k c, d.contexts.get? k = some c → c.id = k ∧ k.number < d.nextContext
  blocks : ∀ k c b block, d.contexts.get? k = some c → c.blocks.get? b = some block →
    d.FiledBlock k b block
  nodup : ∀ k, (hand k ++ d.placed k).Nodup
  placed : ∀ k b, b ∈ hand k ++ d.placed k ↔ d.HasBlock k b
  listed : ∀ k, Lists (hand k) (d.openLoopsOf k)
  agrees : ∀ k, Agrees (d.regionsOf k) ∧ ∀ l ∈ d.openLoopsOf k, Agrees l.body

/-- Nothing is in hand. -/
abbrev emptyHanded : ContextId → List BlockId := fun _ => []

theorem inHand_nil : inHand c [] = emptyHanded := by
  funext k
  simp [inHand]

theorem Lists.congr {inner inner' : List BlockId} {ls : List OpenLoop}
    (h : ∀ b, b ∈ inner ↔ b ∈ inner') (hls : Lists inner ls) : Lists inner' ls := by
  induction ls generalizing inner inner' with
  | nil => trivial
  | cons l ls ih =>
    have hmem (b : BlockId) : b ∈ inner ++ blocksAll l.body ↔ b ∈ inner' ++ blocksAll l.body := by
      rw [List.mem_append, List.mem_append, h]
    exact ⟨fun b => (hls.1 b).trans (hmem b), ih hmem hls.2⟩

/-- A block that all open loops list. -/
theorem Lists.insert {inner : List BlockId} {ls : List OpenLoop} (h : Lists inner ls)
    (b : BlockId) :
    Lists (b :: inner) (ls.map fun l => { l with blocks := l.blocks.insert b }) := by
  induction ls generalizing inner with
  | nil => trivial
  | cons l ls ih =>
    refine ⟨fun b' => ?_, ih h.2⟩
    rw [IdentSet.mem_insert, h.1, List.cons_append, List.mem_cons]

theorem filed_empty : ({} : Draft).Filed emptyHanded where
  objects o object h := by cases h
  contexts k c h := by cases h
  blocks k c b block h := by cases h
  nodup k := List.nodup_nil
  placed k b := iff_of_false List.not_mem_nil (by rintro ⟨c, block, h, -⟩; cases h)
  listed k := trivial
  agrees k := ⟨agrees_nil, fun l hl => (List.not_mem_nil hl).elim⟩

/-- Contexts may be exchanged for others with their blocks in the same places. -/
theorem Filed.exchange {hand : ContextId → List BlockId} (h : d.Filed hand)
    (objects : d'.objects = d.objects) (openLoops : d'.openLoops = d.openLoops)
    (nextContext : d'.nextContext = d.nextContext)
    (contexts : ∀ k, Option.Rel Context.Parallel (d.contexts.get? k) (d'.contexts.get? k))
    (blocks : ∀ k c b block, d'.contexts.get? k = some c → c.blocks.get? b = some block →
      d'.FiledBlock k b block) : d'.Filed hand := by
  have hopen (k : ContextId) : d'.openLoopsOf k = d.openLoopsOf k := by
    rw [openLoopsOf, openLoops]
    rfl
  have hregions (k : ContextId) : blocksAll (d'.regionsOf k) = blocksAll (d.regionsOf k) := by
    have hk := contexts k
    simp only [regionsOf]
    generalize d.contexts.get? k = x at hk
    generalize d'.contexts.get? k = y at hk
    cases hk with
    | none => rfl
    | some hcc' => exact hcc'.regions
  have hplaced (k : ContextId) : d'.placed k = d.placed k := by
    rw [Draft.placed, hregions, hopen]
    rfl
  refine ⟨objects ▸ h.objects, fun k c' hc' => ?_, blocks, fun k => ?_, fun k b => ?_, fun k => ?_,
    fun k => ?_⟩
  · obtain ⟨c, hc, hcc'⟩ := exists_of_rel_some (hc' ▸ contexts k)
    rw [hcc'.id, nextContext]
    exact h.contexts k c hc
  · rw [hplaced]
    exact h.nodup k
  · rw [hplaced, h.placed]
    have hk := contexts k
    simp only [HasBlock]
    generalize d.contexts.get? k = x at hk
    generalize d'.contexts.get? k = y at hk
    cases hk with
    | none => simp
    | some hcc' => simp [← Option.isSome_iff_exists, hcc'.blocks b]
  · rw [hopen]
    exact h.listed k
  · rw [hopen]
    refine ⟨?_, (h.agrees k).2⟩
    have hagrees := (h.agrees k).1
    have hk := contexts k
    simp only [regionsOf] at hagrees ⊢
    generalize d.contexts.get? k = x at hk hagrees
    generalize d'.contexts.get? k = y at hk
    cases hk with
    | none => exact hagrees
    | some hcc' => exact hcc'.agrees hagrees

/-- Contexts may be exchanged for contexts that are filed alike, and what is not filed may change
at will. -/
theorem Filed.alike {hand : ContextId → List BlockId} (h : d.Filed hand)
    (objects : d'.objects = d.objects) (openLoops : d'.openLoops = d.openLoops)
    (places : d'.places = d.places) (nextContext : d'.nextContext = d.nextContext)
    (nextBlock : d'.nextBlock = d.nextBlock) (nextInst : d'.nextInst = d.nextInst)
    (contexts : ∀ k, Option.Rel Context.Alike (d.contexts.get? k) (d'.contexts.get? k)) :
    d'.Filed hand := by
  refine h.exchange objects openLoops nextContext (fun k => ?_) fun k c' b block' hc' hblock' => ?_
  · have hk := contexts k
    generalize d.contexts.get? k = x at hk
    generalize d'.contexts.get? k = y at hk
    cases hk with
    | none => exact .none
    | some hcc' => exact .some hcc'.parallel
  · obtain ⟨c, hc, hcc'⟩ := exists_of_rel_some (hc' ▸ contexts k)
    obtain ⟨block, hblock, hlabel⟩ := hcc'.exists_block hblock'
    have hfiled := (h.blocks k c b block hc hblock).relabel hlabel
    unfold FiledBlock at hfiled ⊢
    rwa [nextBlock, places, nextInst]

theorem rel_modify {R : Context → Context → Prop} (hrefl : ∀ context, R context context)
    {f : Context → Context}
    (hf : ∀ context, d.contexts.get? c = some context → R context (f context)) (k : ContextId) :
    Option.Rel R (d.contexts.get? k) ((d.contexts.modify c f).get? k) := by
  rw [Table.get?_modify]
  cases hk : d.contexts.get? k with
  | none => exact .none
  | some context =>
    refine .some ?_
    split
    · next hkc => exact hf context (hkc ▸ hk)
    · exact hrefl context

/-- One context may be changed to one that is filed alike. -/
theorem Filed.modify {hand : ContextId → List BlockId} (h : d.Filed hand) {f : Context → Context}
    (hf : ∀ context, d.contexts.get? c = some context → Context.Alike context (f context)) :
    ({ d with contexts := d.contexts.modify c f } : Draft).Filed hand :=
  h.alike rfl rfl rfl rfl rfl rfl (rel_modify (fun _ => Context.alike_of_eq rfl rfl rfl) hf)

/-! ## Misuse -/

/-- A draft without misuse is filed well. -/
def Sound (d : Draft) : Prop := d.misuse = none → d.Filed emptyHanded

theorem misuse_blame (d : Draft) (f : Fault) : (d.blame f).misuse ≠ none := by
  cases hd : d.misuse <;> simp [blame, hd]

/-- The parts of a draft that are filed, or say what names are in use, with its misuse. -/
def files (d : Draft) : Option Fault × IdentMap .object MemoryObject × Table ContextId Context ×
    Table ContextId (List OpenLoop) × IdentMap .inst (ContextId × BlockId) × Nat × Nat × Nat :=
  (d.misuse, d.objects, d.contexts, d.openLoops, d.places, d.nextContext, d.nextBlock, d.nextInst)

theorem Sound.congr (h : d.Sound) (hfiles : d'.files = d.files) : d'.Sound := by
  simp only [files, Prod.mk.injEq] at hfiles
  obtain ⟨misuse, objects, contexts, openLoops, places, nextContext, nextBlock, nextInst⟩ := hfiles
  refine fun hmisuse => (h (misuse ▸ hmisuse)).alike objects openLoops places nextContext nextBlock
    nextInst fun k => ?_
  rw [contexts]
  cases d.contexts.get? k with
  | none => exact .none
  | some context => exact .some (Context.alike_of_eq rfl rfl rfl)

theorem sound_blame (d : Draft) (f : Fault) : (d.blame f).Sound :=
  fun h => absurd h (misuse_blame d f)

/-! ## The parts of actions -/

theorem openLoopsOf_insert (d : Draft) (c k : ContextId) (ls : List OpenLoop) :
    ({ d with openLoops := d.openLoops.insert c ls } : Draft).openLoopsOf k =
      if k = c then ls else d.openLoopsOf k := by
  rw [openLoopsOf, Table.get?_insert]
  split <;> rfl

theorem regionsOf_of_get? {context : Context} (h : d.contexts.get? k = some context) :
    d.regionsOf k = context.regions := by
  rw [regionsOf, h, Option.elim_some]

theorem Sound.addContext (h : d.Sound) (kind : ContextKind) (parent : Option ContextId) :
    (d.addContext kind parent).2.Sound := by
  intro hmisuse
  have hd := h hmisuse
  -- the new name is not in use, so no context is replaced
  have hnew : d.contexts.get? ⟨d.nextContext⟩ = none := by
    cases hget : d.contexts.get? ⟨d.nextContext⟩ with
    | none => rfl
    | some c => exact absurd (hd.contexts _ c hget).2 (Nat.lt_irrefl _)
  have hget (k : ContextId) : (d.addContext kind parent).2.contexts.get? k =
      if k = ⟨d.nextContext⟩ then
        some ⟨⟨d.nextContext⟩, kind, parent, ∅, [], noBlock, true⟩
      else d.contexts.get? k :=
    Table.get?_insert ..
  have hregions (k : ContextId) : (d.addContext kind parent).2.regionsOf k = d.regionsOf k := by
    rw [regionsOf, regionsOf, hget]
    split
    · next hk => rw [hk, hnew]; rfl
    · rfl
  have hblock (k : ContextId) (b : BlockId) :
      (d.addContext kind parent).2.HasBlock k b ↔ d.HasBlock k b := by
    simp only [HasBlock, hget]
    split
    · next hk => simp [hk, hnew]
    · rfl
  have hplaced (k : ContextId) : (d.addContext kind parent).2.placed k = d.placed k := by
    rw [Draft.placed, hregions]
    rfl
  constructor
  · exact hd.objects
  · intro k c hc
    rw [hget] at hc
    split at hc
    · next hk =>
      cases hc
      exact ⟨hk.symm, hk ▸ Nat.lt_succ_self _⟩
    · obtain ⟨hid, hlt⟩ := hd.contexts k c hc
      exact ⟨hid, Nat.lt_succ_of_lt hlt⟩
  · intro k c b block hc hb
    rw [hget] at hc
    split at hc
    · cases hc
      cases hb
    · exact hd.blocks k c b block hc hb
  · intro k
    rw [hplaced]
    exact hd.nodup k
  · intro k b
    rw [hplaced, hblock]
    exact hd.placed k b
  · exact hd.listed
  · intro k
    rw [hregions]
    exact hd.agrees k

theorem Sound.addIterations (h : d.Sound) (c : ContextId) (loop : LoopId) (index count : Nat) :
    (d.addIterations c loop index count).2.Sound := by
  induction count generalizing d index with
  | zero => exact h
  | succ count ih => exact ih (h.addContext _ _) (index + 1)

/-- The open loops of a context are exchanged for others that have the same blocks, those in hand
included. -/
theorem Filed.reopen {hand hand' : ContextId → List BlockId} (h : d.Filed hand)
    {ls : List OpenLoop} (hother : ∀ k, k ≠ c → hand' k = hand k)
    (hperm : (hand' c ++ ls.flatMap fun l => blocksAll l.body).Perm
      (hand c ++ (d.openLoopsOf c).flatMap fun l => blocksAll l.body))
    (hlisted : Lists (hand' c) ls) (hagrees : ∀ l ∈ ls, Agrees l.body) :
    ({ d with openLoops := d.openLoops.insert c ls } : Draft).Filed hand' := by
  have hplaced (k : ContextId) :
      (hand' k ++ ({ d with openLoops := d.openLoops.insert c ls } : Draft).placed k).Perm
        (hand k ++ d.placed k) := by
    rw [Draft.placed, Draft.placed, openLoopsOf_insert]
    split
    · next hk =>
      subst hk
      refine (List.perm_append_comm_assoc ..).trans (.trans ?_ (List.perm_append_comm_assoc ..))
      exact hperm.append_left (blocksAll (d.regionsOf k))
    · next hk =>
      rw [hother k hk]
      exact .refl _
  refine ⟨h.objects, h.contexts, h.blocks, fun k => ?_, fun k b => ?_, fun k => ?_, fun k => ?_⟩
  · exact (hplaced k).nodup_iff.2 (h.nodup k)
  · exact (hplaced k).mem_iff.trans (h.placed k b)
  · rw [openLoopsOf_insert]
    split
    · next hk => exact hk ▸ hlisted
    · next hk => exact hother k hk ▸ h.listed k
  · rw [openLoopsOf_insert]
    split
    · exact ⟨(h.agrees k).1, hagrees⟩
    · exact h.agrees k

/-- A region at the end of a context without open loops takes up the blocks in hand. -/
theorem Filed.extend {r : Region} (h : d.Filed (inHand c r.blocks)) (hopen : d.openLoopsOf c = [])
    (hr : ∀ e ∈ r.bodies, BodyListed e) {context : Context}
    (hc : d.contexts.get? c = some context) :
    ({ d with contexts := d.contexts.modify c fun context =>
        { context with regions := context.regions ++ [r] } } : Draft).Filed emptyHanded := by
  generalize hd' : ({ d with contexts := d.contexts.modify c fun context =>
    { context with regions := context.regions ++ [r] } } : Draft) = d'
  have hget (k : ContextId) : d'.contexts.get? k = (d.contexts.get? k).map fun context =>
      if k = c then { context with regions := context.regions ++ [r] } else context :=
    hd' ▸ Table.get?_modify ..
  have hsame {k : ContextId} {context' : Context} (hk : d'.contexts.get? k = some context') :
      ∃ context, d.contexts.get? k = some context ∧ context'.id = context.id ∧
        context'.blocks = context.blocks := by
    rw [hget, Option.map_eq_some_iff] at hk
    obtain ⟨context, hcontext, rfl⟩ := hk
    exact ⟨context, hcontext, by split <;> rfl, by split <;> rfl⟩
  have hregions (k : ContextId) :
      d'.regionsOf k = if k = c then d.regionsOf k ++ [r] else d.regionsOf k := by
    simp only [regionsOf, hget]
    split
    · next hk => rw [hk, hc]; rfl
    · simp
  have hopen' (k : ContextId) : d'.openLoopsOf k = d.openLoopsOf k := by rw [← hd']; rfl
  have hplaced (k : ContextId) : (d'.placed k).Perm (inHand c r.blocks k ++ d.placed k) := by
    rw [Draft.placed, Draft.placed, hregions, hopen', inHand]
    split
    · next hk =>
      rw [hk, hopen, blocksAll_concat, List.flatMap_nil, List.append_nil, List.append_nil]
      exact List.perm_append_comm
    · exact .refl _
  refine ⟨?_, fun k c' hc' => ?_, fun k c' b block hc' hb => ?_, fun k => ?_, fun k b => ?_,
    fun k => ?_, fun k => ?_⟩
  · rw [← hd']
    exact h.objects
  · obtain ⟨context, hcontext, hid, -⟩ := hsame hc'
    rw [hid, ← hd']
    exact h.contexts k context hcontext
  · obtain ⟨context, hcontext, -, hblocks⟩ := hsame hc'
    rw [← hd']
    exact h.blocks k context b block hcontext (hblocks ▸ hb)
  · exact (hplaced k).nodup_iff.2 (h.nodup k)
  · rw [List.nil_append, (hplaced k).mem_iff, h.placed]
    simp only [HasBlock, hget]
    cases d.contexts.get? k with
    | none => simp
    | some context => by_cases hk : k = c <;> simp [hk]
  · rw [hopen']
    by_cases hk : k = c
    · rw [hk, hopen]
      trivial
    · have hlisted := h.listed k
      rwa [inHand, if_neg hk] at hlisted
  · rw [hregions, hopen']
    refine ⟨?_, (h.agrees k).2⟩
    split
    · exact (h.agrees k).1.concat hr
    · exact (h.agrees k).1

/-- A region takes up the blocks in hand. -/
theorem Filed.addRegion {r : Region} (h : d.Filed (inHand c r.blocks))
    (hr : ∀ e ∈ r.bodies, BodyListed e) :
    (d.addRegion c r).Sound := by
  have hhand : inHand c r.blocks c = r.blocks := if_pos rfl
  unfold Draft.addRegion
  split
  · next l ls hopen =>
    intro _
    have hlisted := h.listed c
    have hagrees := (h.agrees c).2
    rw [hopen] at hlisted hagrees
    rw [hhand] at hlisted
    have hswap (b : BlockId) :
        b ∈ r.blocks ++ blocksAll l.body ↔ b ∈ blocksAll (l.body ++ [r]) := by
      rw [blocksAll_concat, List.mem_append, List.mem_append, or_comm]
    refine h.reopen (fun k hk => (if_neg hk).symm) ?_ ?_ ?_
    · rw [hopen, hhand, List.flatMap_cons, List.flatMap_cons, blocksAll_concat, List.nil_append,
        List.append_assoc]
      exact List.perm_append_comm_assoc ..
    · exact ⟨fun b => (hlisted.1 b).trans (hswap b), hlisted.2.congr hswap⟩
    · rw [List.forall_mem_cons] at hagrees ⊢
      exact ⟨hagrees.1.concat hr, hagrees.2⟩
  · next hopen =>
    split
    · next hcontains =>
      obtain ⟨context, hc⟩ := Option.isSome_iff_exists.1 hcontains
      exact fun _ => h.extend hopen hr hc
    · exact sound_blame d _

theorem misuse_addRegion {r : Region} (h : (d.addRegion c r).misuse = none) : d.misuse = none := by
  unfold Draft.addRegion at h
  split at h
  · exact h
  · split at h
    · exact h
    · exact absurd h (misuse_blame d _)

theorem enrol_eq (d : Draft) (c : ContextId) (b : BlockId) :
    d.enrol c b = { d with openLoops := (d.enrol c b).openLoops } := by
  unfold enrol
  split <;> rfl

/-- Enrolling a block changes what the open loops of a context list, and not their bodies. -/
theorem openLoopsOf_enrol (d : Draft) (c : ContextId) (b : BlockId) :
    ∃ ls, (∀ k, (d.enrol c b).openLoopsOf k = if k = c then ls else d.openLoopsOf k) ∧
      ls.map OpenLoop.body = (d.openLoopsOf c).map OpenLoop.body ∧
      (Lists [] (d.openLoopsOf c) → Lists [b] ls) := by
  unfold enrol
  split
  · next hopen =>
    refine ⟨[], fun k => ?_, by rw [hopen], fun _ => trivial⟩
    split
    · next hk => rw [hk, hopen]
    · rfl
  · next l ls hopen =>
    refine ⟨_, fun k => openLoopsOf_insert .., ?_, fun hlisted => ?_⟩
    · rw [hopen]
      simp [Function.comp_def]
    · rw [hopen] at hlisted
      have hlisted : Lists [] ({ l with header := l.header.or (some b) } :: ls) := hlisted
      exact hlisted.insert b

/-- A draft with a new block in the table of a context. -/
def withBlock (d : Draft) (c : ContextId) : Draft :=
  { d with
    nextBlock := d.nextBlock + 1
    contexts := d.contexts.modify c fun context =>
      { context with
        entry := if context.blocks.size = 0 then ⟨d.nextBlock⟩ else context.entry
        blocks := context.blocks.insert ⟨d.nextBlock⟩ { id := ⟨d.nextBlock⟩ } } }

theorem get?_withBlock (d : Draft) (c k : ContextId) : (d.withBlock c).contexts.get? k =
    (d.contexts.get? k).map fun context => if k = c then
      { context with
        entry := if context.blocks.size = 0 then ⟨d.nextBlock⟩ else context.entry
        blocks := context.blocks.insert ⟨d.nextBlock⟩ { id := ⟨d.nextBlock⟩ } } else context :=
  Table.get?_modify ..

theorem hasBlock_withBlock {context : Context} (hc : d.contexts.get? c = some context) :
    (d.withBlock c).HasBlock k b ↔ b ∈ inHand c [⟨d.nextBlock⟩] k ∨ d.HasBlock k b := by
  simp only [HasBlock, get?_withBlock, inHand]
  by_cases hk : k = c
  · subst hk
    simp only [hc, Option.map_some, if_true, Option.some.injEq, List.mem_singleton,
      exists_eq_left', exists_and_left, Table.get?_insert]
    split
    · next hb => simp [hb]
    · next hb => simp [hb]
  · simp [hk]

theorem regionsOf_withBlock (d : Draft) (c k : ContextId) :
    (d.withBlock c).regionsOf k = d.regionsOf k := by
  rw [regionsOf, regionsOf, get?_withBlock]
  cases d.contexts.get? k with
  | none => rfl
  | some context =>
    dsimp only [Option.map_some, Option.elim_some]
    split <;> rfl

/-- A new block of a context is in hand, and all open loops list it. -/
theorem Filed.enrol (h : d.Filed emptyHanded) {context : Context}
    (hc : d.contexts.get? c = some context) :
    ((d.withBlock c).enrol c ⟨d.nextBlock⟩).Filed (inHand c [⟨d.nextBlock⟩]) := by
  obtain ⟨ls, hopen, hbodies, hlists⟩ := openLoopsOf_enrol (d.withBlock c) c ⟨d.nextBlock⟩
  have hplaced (k : ContextId) :
      ((d.withBlock c).enrol c ⟨d.nextBlock⟩).placed k = d.placed k := by
    have hmap (ls : List OpenLoop) :
        (ls.flatMap fun l => blocksAll l.body) = (ls.map OpenLoop.body).flatMap blocksAll := by
      rw [List.flatMap_map]
    rw [Draft.placed, Draft.placed, hopen]
    congr 1
    · rw [enrol_eq]
      exact congrArg blocksAll (regionsOf_withBlock d c k)
    · split
      · next hk => rw [hmap, hbodies, hmap, hk]; rfl
      · rfl
  have hblock : ((d.withBlock c).enrol c ⟨d.nextBlock⟩).HasBlock = (d.withBlock c).HasBlock := by
    rw [enrol_eq]
    rfl
  rw [enrol_eq] at hplaced hblock hopen ⊢
  refine ⟨h.objects, fun k c' hc' => ?_, fun k c' b block hc' hb => ?_, fun k => ?_, fun k b => ?_,
    fun k => ?_, fun k => ?_⟩
  · rw [show _ = (d.withBlock c).contexts.get? k from rfl, get?_withBlock,
      Option.map_eq_some_iff] at hc'
    obtain ⟨old, hold, rfl⟩ := hc'
    split <;> exact h.contexts k old hold
  · rw [show _ = (d.withBlock c).contexts.get? k from rfl, get?_withBlock,
      Option.map_eq_some_iff] at hc'
    obtain ⟨old, hold, rfl⟩ := hc'
    have hkept (hb : old.blocks.get? b = some block) := h.blocks k old b block hold hb
    split at hb
    · rw [Table.get?_insert] at hb
      split at hb
      · next hnew =>
        subst hnew
        cases hb
        exact ⟨rfl, Nat.lt_succ_self d.nextBlock, List.nodup_nil, by simp⟩
      · obtain ⟨hid, hlt, hinsts⟩ := hkept hb
        exact ⟨hid, Nat.lt_succ_of_lt hlt, hinsts⟩
    · obtain ⟨hid, hlt, hinsts⟩ := hkept hb
      exact ⟨hid, Nat.lt_succ_of_lt hlt, hinsts⟩
  · rw [hplaced]
    by_cases hk : k = c
    · rw [inHand, if_pos hk, List.singleton_append, List.nodup_cons]
      refine ⟨fun hmem => ?_, h.nodup k⟩
      obtain ⟨old, block, hold, hblock⟩ := (h.placed k _).1 hmem
      exact absurd (h.blocks k old _ block hold hblock).2.1 (Nat.lt_irrefl _)
    · rw [inHand, if_neg hk]
      exact h.nodup k
  · rw [hplaced, hblock, hasBlock_withBlock hc, List.mem_append, ← h.placed k b]
    rfl
  · rw [hopen]
    by_cases hk : k = c
    · rw [if_pos hk, inHand, if_pos hk]
      exact hlists (h.listed c)
    · rw [if_neg hk, inHand, if_neg hk]
      exact h.listed k
  · refine ⟨(regionsOf_withBlock d c k).symm ▸ (h.agrees k).1, ?_⟩
    rw [hopen]
    split
    · have hbody (ls : List OpenLoop) :
          (∀ l ∈ ls, Agrees l.body) ↔ ∀ body ∈ ls.map OpenLoop.body, Agrees body :=
        List.forall_mem_map.symm
      rw [hbody, hbodies, ← hbody]
      exact (h.agrees c).2
    · exact (h.agrees k).2

theorem Sound.addBlock (h : d.Sound) (c : ContextId) : (d.addBlock c).2.Sound := by
  unfold Draft.addBlock
  dsimp only
  split
  · next hcontains =>
    obtain ⟨context, hc⟩ := Option.isSome_iff_exists.1 hcontains
    intro hmisuse
    have hd : d.misuse = none := by
      have henrol := misuse_addRegion hmisuse
      rwa [enrol_eq] at henrol
    exact Filed.addRegion (r := .block ⟨d.nextBlock⟩) ((h hd).enrol hc)
      (fun e he => (List.not_mem_nil he).elim) hmisuse
  · exact sound_blame _ _

/-! ## Changes that leave the files alone -/

theorem Sound.changeBlock (h : d.Sound) {f : Block → Block}
    (hf : ∀ block, (f block).label = block.label) (c : ContextId) (b : BlockId) :
    (d.changeBlock c b f).Sound := by
  unfold Draft.changeBlock
  split
  · refine fun hmisuse => (h hmisuse).modify fun context _ => ⟨rfl, fun b' => ?_, rfl, id⟩
    rw [Table.get?_modify, Option.map_map]
    refine Option.map_congr fun block _ => ?_
    dsimp only [Function.comp_def]
    split
    · exact hf block
    · rfl
  · exact sound_blame d _

theorem Sound.changeInstr (h : d.Sound) {f : Instr → Instr} (hf : ∀ i, (f i).id = i.id)
    (inst : InstId) : (d.changeInstr inst f).Sound := by
  unfold Draft.changeInstr
  split
  · refine h.changeBlock (fun block => ?_) _ _
    simp only [Block.label, List.map_map, Prod.mk.injEq, true_and]
    refine List.map_congr_left fun i _ => ?_
    dsimp only [Function.comp_def]
    split
    · exact hf i
    · rfl
  · exact sound_blame d _

theorem Sound.addCaller (h : d.Sound) (inst : InstId) (callee : ContextId) :
    (d.addCaller inst callee).Sound := by
  unfold Draft.addCaller
  split
  · refine fun hmisuse => (h hmisuse).modify fun context _ => ?_
    split <;> exact Context.alike_of_eq rfl rfl rfl
  · exact sound_blame d _

/-! ## Instructions -/

theorem changeBlock_of_found {block : Block} {f : Block → Block}
    (h : ((d.contexts.get? c).bind fun context => context.blocks.get? b) = some block) :
    d.changeBlock c b f = { d with contexts := d.contexts.modify c fun context =>
      { context with blocks := context.blocks.modify b f } } := by
  rw [changeBlock, h]

/-- The new instruction is filed with its block, and the others stay as they were. -/
theorem Filed.newInstr (h : d.Filed emptyHanded) (c : ContextId) (b : BlockId) (op : Operation) :
    ({ d with
      nextInst := d.nextInst + 1
      contexts := d.contexts.modify c fun context =>
        { context with blocks := context.blocks.modify b fun block =>
            { block with insts := block.insts ++ [{ id := ⟨d.nextInst⟩, op := op }] } }
      places := d.places.insert ⟨d.nextInst⟩ (c, b) } : Draft).Filed emptyHanded := by
  refine h.exchange rfl rfl rfl (rel_modify ?_ fun context _ => ⟨rfl, fun b' => ?_, rfl, id⟩) ?_
  · exact fun context => (Context.alike_of_eq rfl rfl rfl).parallel
  · rw [Table.get?_modify, Option.isSome_map]
  intro k c' b' block' hc' hblock'
  have hplace {i : InstId} (hi : i.number < d.nextInst) :
      (d.places.insert ⟨d.nextInst⟩ (c, b)).get? i = d.places.get? i := by
    rw [IdentMap.get?_insert, if_neg]
    rintro rfl
    exact Nat.lt_irrefl _ hi
  have hkept {block : Block} (hblock : d.FiledBlock k b' block) :
      ∀ i ∈ block.insts.map Instr.id,
        (d.places.insert ⟨d.nextInst⟩ (c, b)).get? i = some (k, b') ∧ i.number < d.nextInst + 1 :=
    fun i hi => by
      obtain ⟨hget, hlt⟩ := hblock.2.2.2 i hi
      exact ⟨(hplace hlt).trans hget, Nat.lt_succ_of_lt hlt⟩
  rw [show _ = (d.contexts.modify c _).get? k from rfl, Table.get?_modify,
    Option.map_eq_some_iff] at hc'
  obtain ⟨context, hcontext, rfl⟩ := hc'
  have hold {block : Block} (hb : context.blocks.get? b' = some block) :=
    h.blocks k context b' block hcontext hb
  split at hblock'
  · next hk =>
    rw [Table.get?_modify, Option.map_eq_some_iff] at hblock'
    obtain ⟨block, hblock, rfl⟩ := hblock'
    have hfiled := hold hblock
    split
    · next hb =>
      refine ⟨hfiled.1, hfiled.2.1, ?_, ?_⟩
      · rw [List.map_append, List.nodup_append]
        refine ⟨hfiled.2.2.1, by simp, fun i hi j hj hij => ?_⟩
        have hlt := (hfiled.2.2.2 i hi).2
        rw [List.map_singleton, List.mem_singleton] at hj
        rw [hij, hj] at hlt
        exact Nat.lt_irrefl _ hlt
      · rw [List.map_append, List.forall_mem_append]
        refine ⟨hkept hfiled, List.forall_mem_singleton.2 ⟨?_, Nat.lt_succ_self _⟩⟩
        rw [hk, hb]
        exact (IdentMap.get?_insert ..).trans (if_pos rfl)
    · exact ⟨hfiled.1, hfiled.2.1, hfiled.2.2.1, hkept hfiled⟩
  · have hfiled := hold hblock'
    exact ⟨hfiled.1, hfiled.2.1, hfiled.2.2.1, hkept hfiled⟩

theorem Sound.addInstr (h : d.Sound) (c : ContextId) (b : BlockId) (op : Operation) :
    (d.addInstr c b op).2.Sound := by
  unfold Draft.addInstr
  dsimp only
  split
  · next block hfound =>
    rw [changeBlock_of_found (d := { d with nextInst := d.nextInst + 1 }) hfound]
    exact fun hmisuse => (h hmisuse).newInstr c b op
  · exact sound_blame _ _

/-! ## Loops -/

theorem Sound.beginLoop (h : d.Sound) (c : ContextId) (id : LoopId) (preheader : BlockId) :
    ({ d with
      openLoops := d.openLoops.insert c
        ({ id := id, preheader := preheader } :: d.openLoopsOf c) } : Draft).Sound := by
  intro hmisuse
  have hd := h hmisuse
  refine hd.reopen (fun _ _ => rfl) (.refl _) ⟨fun b => ?_, hd.listed c⟩ ?_
  · simp [blocksAll]
  · exact List.forall_mem_cons.2 ⟨agrees_nil, (hd.agrees c).2⟩

/-- Closing a loop takes its body in hand and puts it into a region. -/
theorem Sound.endLoop (h : d.Sound) {l : OpenLoop} {ls : List OpenLoop}
    (hopen : d.openLoopsOf c = l :: ls) {info : Loop} (hinfo : info.blocks = l.blocks) :
    (({ d with openLoops := d.openLoops.insert c ls } : Draft).addRegion c
      (.loop info l.body)).Sound := by
  intro hmisuse
  have hd := h (misuse_addRegion (d := { d with openLoops := d.openLoops.insert c ls }) hmisuse)
  have hlisted := hd.listed c
  have hagrees := (hd.agrees c).2
  rw [hopen] at hlisted hagrees
  rw [List.forall_mem_cons] at hagrees
  refine Filed.addRegion (r := .loop info l.body) (hd.reopen ?_ ?_ ?_ hagrees.2) ?_ hmisuse
  · exact fun k hk => if_neg hk
  · rw [hopen, inHand, if_pos rfl]
    exact .refl _
  · rw [inHand, if_pos rfl]
    exact hlisted.2
  · refine List.forall_mem_cons.2 ⟨fun b => ?_, hagrees.1⟩
    rw [hinfo, hlisted.1]
    rfl

/-- An unrolled loop has no blocks of its own. -/
theorem Sound.addPeel (h : d.Sound) (c : ContextId) {info : Loop} (hinfo : info.blocks = ∅) :
    (d.addRegion c (.loop info [])).Sound := by
  intro hmisuse
  refine Filed.addRegion (r := .loop info []) ?_ ?_ hmisuse
  · rw [show (Region.loop info []).blocks = [] from rfl, inHand_nil]
    exact h (misuse_addRegion hmisuse)
  · refine List.forall_mem_cons.2 ⟨fun b => ?_, agrees_nil⟩
    simp [hinfo, blocksAll]

/-! ## Actions -/

theorem Sound.insertObject (h : d.Sound) {o : ObjectId} {object : MemoryObject} (n : Nat)
    (hid : d.misuse = none → object.id = o) :
    ({ d with nextObject := n, objects := d.objects.insert o object } : Draft).Sound := by
  intro hmisuse
  have hd := h hmisuse
  refine ⟨fun o' object' hget => ?_, hd.contexts, hd.blocks, hd.nodup, hd.placed, hd.listed,
    hd.agrees⟩
  rw [IdentMap.get?_insert] at hget
  split at hget
  · next ho =>
    cases hget
    rw [ho]
    exact hid hmisuse
  · exact hd.objects o' object' hget

/-- No action makes a draft badly filed, unless it is a misuse. -/
theorem Sound.perform (h : d.Sound) (a : Action) : (d.perform a).2.Sound := by
  cases a with
  | object kind size => exact h.insertObject _ fun _ => rfl
  | nameObject object name =>
    rw [Draft.perform]
    split
    · next o ho => exact h.insertObject d.nextObject fun hmisuse => (h hmisuse).objects object o ho
    · exact sound_blame d _
  | function name =>
    have hnew : (d.newFunction name).2.Sound := h.congr rfl
    exact (hnew.addContext (.function ⟨d.nextFunction⟩ name []) none).congr rfl
  | callee caller name =>
    have hnew : (d.newFunction name).2.Sound := h.congr rfl
    exact hnew.addContext (.function ⟨d.nextFunction⟩ name []) (some caller)
  | calleeLike caller like =>
    rw [Draft.perform]
    split
    next kind d' heq =>
    refine Sound.addContext ?_ kind (some caller)
    split at heq
    · cases heq
      exact h
    · cases heq
      exact (sound_blame d _).congr rfl
  | block c => exact h.addBlock c
  | inst c b op => exact h.addInstr c b op
  | call c b site =>
    have hinst := h.addInstr c b (.call site)
    rw [Draft.perform]
    dsimp only
    split
    · exact hinst.addCaller _ _
    · exact hinst
  | edge c source target live =>
    refine h.changeBlock ?_ c source
    exact fun _ => rfl
  | terminate c b terminator =>
    refine h.changeBlock ?_ c b
    exact fun _ => rfl
  | uncertain c b =>
    refine h.changeBlock ?_ c b
    exact fun _ => rfl
  | beginLoop c preheader =>
    exact (h.beginLoop c ⟨d.nextLoop⟩ preheader).congr rfl
  | endLoop c latch =>
    rw [Draft.perform]
    split
    · exact sound_blame d _
    · next l ls hopen =>
      dsimp only
      split
      · exact sound_blame _ _
      · exact h.endLoop hopen rfl
  | peeledLoop c preheader count terminated =>
    have hnext : ({ d with nextLoop := d.nextLoop + 1 } : Draft).Sound :=
      h.congr rfl
    exact (hnext.addIterations c ⟨d.nextLoop⟩ 0 count).addPeel c rfl
  | bounds iteration header latch =>
    rw [Draft.perform]
    split
    · refine Sound.congr (d := { d with contexts := d.contexts.modify iteration _ }) ?_ rfl
      exact fun hmisuse => (h hmisuse).modify fun _ _ => Context.alike_of_eq rfl rfl rfl
    · exact sound_blame d _
  | setPeelMaterialized c loop value =>
    rw [Draft.perform]
    split
    · refine fun hmisuse => (h hmisuse).modify fun context _ => ⟨rfl, fun _ => rfl, ?_, ?_⟩
      · exact blocksAll_mapLoopsAll _ _
      · refine Agrees.mapLoopsAll fun l => ?_
        split <;> rfl
    · exact sound_blame d _
  | setMaterialized c value =>
    rw [Draft.perform]
    split
    · exact fun hmisuse => (h hmisuse).modify fun _ _ => Context.alike_of_eq rfl rfl rfl
    · exact sound_blame d _
  | threadLocal inst =>
    refine h.changeInstr ?_ inst
    exact fun _ => rfl
  | runtimeCheck inst check =>
    refine h.changeInstr ?_ inst
    exact fun _ => rfl
  | unreached inst =>
    refine h.changeInstr ?_ inst
    exact fun _ => rfl
  | pathCondition condition => exact h.congr rfl
  | functionOf c =>
    rw [Draft.perform]
    split <;> exact h

/-- The draft that a list of actions makes. -/
def run (actions : List Action) : Draft := actions.foldl (fun d a => (d.perform a).2) {}

theorem sound_run (actions : List Action) : (run actions).Sound := by
  have hfold : ∀ d : Draft, d.Sound → (actions.foldl (fun d a => (d.perform a).2) d).Sound := by
    induction actions with
    | nil => exact fun d h => h
    | cons a actions ih => exact fun d h => ih (d.perform a).2 (h.perform a)
  exact hfold {} fun _ => filed_empty

/-! ## Finished drafts -/

end Draft

/-- Instructions have different names when each block names its own once, and each name has one
place. -/
theorem Program.nodup_insts {p : Program} (place : InstId → Option (ContextId × BlockId))
    (h : ∀ k c b block, p.contexts.get? k = some c → c.blocks.get? b = some block →
      (block.insts.map Instr.id).Nodup ∧ ∀ i ∈ block.insts.map Instr.id, place i = some (k, b)) :
    (p.instrs.map Instr.id).Nodup := by
  have hkeys {α β : Type} (t : Table α β) : t.entries.Pairwise fun e e' => e.1 ≠ e'.1 :=
    List.pairwise_map.1 t.distinct
  have hentries {e : ContextId × Context} (he : e ∈ p.contexts.entries) :
      ∀ f ∈ e.2.blocks.entries, (f.2.insts.map Instr.id).Nodup ∧
        ∀ i ∈ f.2.insts.map Instr.id, place i = some (e.1, f.1) :=
    fun f hf => h e.1 e.2 f.1 f.2 (Table.mem_entries.1 he) (Table.mem_entries.1 hf)
  rw [show p.instrs.map Instr.id = p.contexts.entries.flatMap fun e =>
      e.2.blocks.entries.flatMap fun f => f.2.insts.map Instr.id by
    simp [instrs, List.map_flatMap, Table.values, List.flatMap_map]]
  refine List.nodup_flatMap.2 ⟨fun e he => List.nodup_flatMap.2 ⟨fun f hf => ?_, ?_⟩, ?_⟩
  · exact (hentries he f hf).1
  · refine (hkeys e.2.blocks).imp_of_mem fun {f f'} hf hf' hne i hi hi' => hne ?_
    have hplace := ((hentries he f hf).2 i hi).symm.trans ((hentries he f' hf').2 i hi')
    exact (Prod.mk.inj (Option.some.inj hplace)).2
  · refine (hkeys p.contexts).imp_of_mem fun {e e'} he he' hne i hi hi' => hne ?_
    obtain ⟨f, hf, hi⟩ := List.mem_flatMap.1 hi
    obtain ⟨f', hf', hi'⟩ := List.mem_flatMap.1 hi'
    have hplace := ((hentries he f hf).2 i hi).symm.trans ((hentries he' f' hf').2 i hi')
    exact (Prod.mk.inj (Option.some.inj hplace)).1

namespace Draft

variable {d : Draft} {k : ContextId}

/-- The program that is linked when a draft is finished. -/
def completed (d : Draft) (root : ContextId) : Program :=
  let contexts := d.contexts.mapValues fun _ c => d.completeBounds c
  { objects := d.objects
    contexts := contexts.mapValues fun _ c =>
      { c with regions := mapLoopsAll (completeLoop contexts) c.regions }
    root := root
    pathConditions := d.pathConditions }

theorem finish_eq_link {root : ContextId} (hmisuse : d.misuse = none) (hclosed : d.unclosed? = none)
    (hroot : d.root = some root) : d.finish = (d.completed root).link := by
  rw [finish, hmisuse, hclosed, hroot]
  rfl

theorem openLoopsOf_eq_nil (hclosed : d.unclosed? = none) (k : ContextId) :
    d.openLoopsOf k = [] := by
  rw [openLoopsOf]
  cases hk : d.openLoops.get? k with
  | none => rfl
  | some ls =>
    have hnone := List.findSome?_eq_none_iff.1 hclosed _ (Table.mem_entries.2 hk)
    simpa using hnone

theorem alike_completeBounds (d : Draft) (c : Context) : Context.Alike c (d.completeBounds c) := by
  unfold completeBounds
  split
  · exact Context.alike_of_eq rfl rfl rfl
  · split <;> exact Context.alike_of_eq rfl rfl rfl

theorem blocks_completeLoop (contexts : Table ContextId Context) (l : Loop) :
    (completeLoop contexts l).blocks = l.blocks := by
  unfold completeLoop
  split <;> rfl

/-- The contexts of the completed program are filed like those of the draft. -/
theorem alike_of_get?_completed {root : ContextId} {c' : Context}
    (h : (d.completed root).contexts.get? k = some c') :
    ∃ c, d.contexts.get? k = some c ∧ Context.Alike c c' := by
  simp only [completed, Table.get?_mapValues, Option.map_map, Option.map_eq_some_iff] at h
  obtain ⟨c, hc, rfl⟩ := h
  have hbounds := d.alike_completeBounds c
  refine ⟨c, hc, hbounds.id, hbounds.blocks, ?_, fun hagrees => ?_⟩
  · exact (blocksAll_mapLoopsAll _ _).trans hbounds.regions
  · exact (hbounds.agrees hagrees).mapLoopsAll (blocks_completeLoop _)

theorem Filed.completed (h : d.Filed emptyHanded) (hclosed : d.unclosed? = none)
    (root : ContextId) : (d.completed root).Filed := by
  have hblock {k : ContextId} {c' : Context} {b : BlockId} {block' : Block}
      (hc' : (d.completed root).contexts.get? k = some c') (hb : c'.blocks.get? b = some block') :
      d.FiledBlock k b block' := by
    obtain ⟨c, hc, halike⟩ := alike_of_get?_completed hc'
    obtain ⟨block, hblock, hlabel⟩ := halike.exists_block hb
    exact (h.blocks k c b block hc hblock).relabel hlabel
  refine ⟨h.objects, fun k c' hc' => ?_, fun k c' b block hc' hb => (hblock hc' hb).1, ?_,
    fun k c' hc' => ?_, fun k c' hc' e he => ?_⟩
  · obtain ⟨c, hc, halike⟩ := alike_of_get?_completed hc'
    exact halike.id.trans (h.contexts k c hc).1
  · refine Program.nodup_insts d.places.get? fun k c' b block hc' hb => ?_
    have hfiled := hblock hc' hb
    exact ⟨hfiled.2.2.1, fun i hi => (hfiled.2.2.2 i hi).1⟩
  · obtain ⟨c, hc, halike⟩ := alike_of_get?_completed hc'
    have hplaced : d.placed k = blocksAll c'.regions := by
      rw [Draft.placed, openLoopsOf_eq_nil hclosed, regionsOf_of_get? hc, halike.regions,
        List.flatMap_nil, List.append_nil]
    have hnodup := h.nodup k
    have hmem := h.placed k
    rw [List.nil_append, hplaced] at hnodup
    refine (List.perm_ext_iff_of_nodup hnodup c'.blocks.distinct).2 fun b =>
      Iff.trans ?_ Table.mem_keys.symm
    rw [← hplaced, ← List.nil_append (d.placed k), hmem]
    simp [HasBlock, hc, ← Option.isSome_iff_exists, halike.parallel.blocks b]
  · obtain ⟨c, hc, halike⟩ := alike_of_get?_completed hc'
    have hagrees := (h.agrees k).1
    rw [regionsOf_of_get? hc] at hagrees
    refine IdentSet.ext fun b => ?_
    rw [IdentSet.mem_ofList, halike.agrees hagrees e he b]

/-- Whatever actions made a draft: if no misuse was noted, every loop was closed and there is a
root, finishing it links a program that is filed well, and this is not rejected for how it is
filed. -/
theorem finish_filed (actions : List Action) {root : ContextId}
    (hmisuse : (run actions).misuse = none) (hclosed : (run actions).unclosed? = none)
    (hroot : (run actions).root = some root) :
    (run actions).finish = ((run actions).completed root).link ∧
      ((run actions).completed root).Filed ∧
      ∀ f, (run actions).finish = .error f → f.Elsewhere ((run actions).completed root) := by
  have hfiled := (sound_run actions hmisuse).completed hclosed root
  rw [finish_eq_link hmisuse hclosed hroot]
  exact ⟨rfl, hfiled, hfiled.raises_link⟩

/-- Two functions that are drafted side by side: the first one with a loop in a loop and a loop that
was unrolled into one iteration, the second one with a loop that is open all the while. -/
def interleaved : List Action :=
  [.function "main", .callee ⟨0⟩ "helper", .block ⟨0⟩, .block ⟨1⟩, .beginLoop ⟨0⟩ ⟨0⟩,
    .beginLoop ⟨1⟩ ⟨1⟩, .block ⟨0⟩, .block ⟨1⟩, .inst ⟨1⟩ ⟨3⟩ .fence, .beginLoop ⟨0⟩ ⟨2⟩,
    .block ⟨0⟩, .endLoop ⟨0⟩ ⟨4⟩, .block ⟨0⟩, .inst ⟨0⟩ ⟨5⟩ .other, .endLoop ⟨0⟩ ⟨5⟩, .block ⟨0⟩,
    .peeledLoop ⟨0⟩ ⟨6⟩ 1 true, .block ⟨2⟩, .block ⟨0⟩, .endLoop ⟨1⟩ ⟨3⟩,
    .call ⟨0⟩ ⟨0⟩ { callee := some ⟨1⟩ }, .edge ⟨0⟩ ⟨0⟩ ⟨2⟩ true, .edge ⟨0⟩ ⟨2⟩ ⟨4⟩ true,
    .edge ⟨0⟩ ⟨4⟩ ⟨4⟩ true, .edge ⟨0⟩ ⟨4⟩ ⟨5⟩ true, .edge ⟨0⟩ ⟨5⟩ ⟨2⟩ true,
    .edge ⟨0⟩ ⟨5⟩ ⟨6⟩ true, .edge ⟨0⟩ ⟨6⟩ ⟨7⟩ true, .edge ⟨2⟩ ⟨7⟩ ⟨7⟩ true,
    .edge ⟨2⟩ ⟨7⟩ ⟨8⟩ true, .edge ⟨1⟩ ⟨1⟩ ⟨3⟩ true, .edge ⟨1⟩ ⟨3⟩ ⟨3⟩ true, .threadLocal ⟨1⟩]

/-- The loops of the first function list the blocks of their bodies, and the program is linked. -/
theorem finish_filed_interleaved :
    (run interleaved).misuse = none ∧ (run interleaved).unclosed? = none ∧
    (((run interleaved).completed ⟨0⟩).contexts.get? ⟨0⟩).map (fun c =>
      (bodiesAll c.regions).map fun e => (e.1.blocks.toList, blocksAll e.2)) =
      some [([⟨2⟩, ⟨4⟩, ⟨5⟩], [⟨2⟩, ⟨4⟩, ⟨5⟩]), ([⟨4⟩], [⟨4⟩]), ([], [])] ∧
    Yields (run interleaved).finish (fun _ => True) ∧ ((run interleaved).completed ⟨0⟩).Filed := by
  have hmisuse : (run interleaved).misuse = none := by decide +kernel
  have hclosed : (run interleaved).unclosed? = none := by decide +kernel
  refine ⟨hmisuse, hclosed, by decide +kernel, by decide +kernel, ?_⟩
  exact (finish_filed interleaved hmisuse hclosed (by decide +kernel)).2.1

end Draft

end ByteTrust
