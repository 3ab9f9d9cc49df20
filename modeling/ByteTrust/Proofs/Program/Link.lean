import ByteTrust.Proofs.Program.Layout
import ByteTrust.Program.Link

/-!
# What linking leaves as it was

Linking sets flags and predecessors and nothing else. Names and tables do not depend on these, nor
on the edges out of blocks: they can be checked and drawn up after linking as well as before.
-/

namespace ByteTrust

/-! ## Other flags and edges -/

/-- The same block with other successors and predecessors. -/
def Block.dress (edges : Block → List Successor × List BlockId) (b : Block) : Block :=
  { b with succs := (edges b).1, preds := (edges b).2 }

/-- The same context with another flag and other edges. -/
def Context.dress (flag : Bool) (edges : Block → List Successor × List BlockId) (c : Context) :
    Context :=
  { c with materialized := flag, blocks := c.blocks.mapValues fun _ => Block.dress edges }

/-- The same program with other flags and edges. -/
def Program.dress (flag : ContextId → Context → Bool)
    (edges : ContextId → Context → Block → List Successor × List BlockId) (p : Program) : Program :=
  { p with contexts := p.contexts.mapValues fun k c => c.dress (flag k c) (edges k c) }

variable {flag : ContextId → Context → Bool}
  {edges : ContextId → Context → Block → List Successor × List BlockId} {p : Program}

namespace Context

variable (flag : Bool) (edges : Block → List Successor × List BlockId) (c : Context)

theorem block_dress (b : BlockId) :
    (c.dress flag edges).block b = (c.block b).map (Block.dress edges) := by
  simp only [block, dress, Table.get?_mapValues]
  cases c.blocks.get? b <;> rfl

theorem instructions_dress : (c.dress flag edges).instructions = c.instructions := by
  simp [instructions, dress, Table.values, Table.mapValues, Block.dress, List.flatMap_map]

end Context

namespace Program

mutual

theorem entered_dress (flag : Bool) (edges : Block → List Successor × List BlockId) (c : Context) :
    ∀ r : Region, entered (c.dress flag edges) r = entered c r
  | .block b => by
    rw [entered, entered, Context.block_dress]
    cases c.block b <;> rfl
  | .loop info body => by rw [entered, entered, enteredAll_dress flag edges c body]

theorem enteredAll_dress (flag : Bool) (edges : Block → List Successor × List BlockId)
    (c : Context) : ∀ rs : List Region, enteredAll (c.dress flag edges) rs = enteredAll c rs
  | [] => rfl
  | r :: rs => by
    rw [enteredAll, enteredAll, entered_dress flag edges c r, enteredAll_dress flag edges c rs]

end

theorem get?_dress (k : ContextId) : (p.dress flag edges).contexts.get? k =
    (p.contexts.get? k).map fun c => c.dress (flag k c) (edges k c) :=
  Table.get?_mapValues _ _ k

theorem ownNames_dress : (p.dress flag edges).OwnNames ↔ p.OwnNames := by
  constructor
  · intro h k c hc
    exact h k (c.dress (flag k c) (edges k c)) (by rw [get?_dress, hc, Option.map_some])
  · intro h k c hc
    rw [get?_dress, Option.map_eq_some_iff] at hc
    obtain ⟨c₁, hc₁, rfl⟩ := hc
    exact h k c₁ hc₁

/-- Every block is filed under its own name. -/
def OwnBlocks (p : Program) : Prop :=
  ∀ k c b block, p.contexts.get? k = some c → c.blocks.get? b = some block → block.id = b

theorem ownBlocks_dress : (p.dress flag edges).OwnBlocks ↔ p.OwnBlocks := by
  constructor
  · intro h k c b block hc hb
    refine h k (c.dress (flag k c) (edges k c)) b (block.dress (edges k c)) ?_ ?_
    · rw [get?_dress, hc, Option.map_some]
    · rw [Context.dress, Table.get?_mapValues, hb, Option.map_some]
  · intro h k c b block hc hb
    rw [get?_dress, Option.map_eq_some_iff] at hc
    obtain ⟨c₁, hc₁, rfl⟩ := hc
    rw [Context.dress, Table.get?_mapValues, Option.map_eq_some_iff] at hb
    obtain ⟨block₁, hb₁, rfl⟩ := hb
    exact h k c₁ b block₁ hc₁ hb₁

theorem context_dress (k : ContextId) :
    (p.dress flag edges).context k =
      (p.context k).map fun c => c.dress (flag k c) (edges k c) := by
  simp only [context, dress, Table.get?_mapValues]
  cases p.contexts.get? k <;> rfl

theorem climbBound_dress : (p.dress flag edges).climbBound = p.climbBound := by
  simp [climbBound, dress, Table.size, Table.mapValues]

theorem foldlM_values_dress {α : Type} {step step' : α → Context → Except Fault α}
    (h : ∀ a k c, step' a (c.dress (flag k c) (edges k c)) = step a c) (a : α) :
    (p.dress flag edges).contexts.values.foldlM step' a = p.contexts.values.foldlM step a := by
  simp only [dress, Table.values, Table.mapValues, List.map_map, List.foldlM_map,
    Function.comp_apply, h]

theorem functionRootFrom_dress (n : Nat) (k : ContextId) :
    (p.dress flag edges).functionRootFrom n k = p.functionRootFrom n k := by
  induction n generalizing k with
  | zero => rfl
  | succ n ih =>
    rw [functionRootFrom, functionRootFrom, context_dress]
    cases p.context k with
    | error fault => rfl
    | ok c =>
      have henc : (c.dress (flag k c) (edges k c)).enclosing? = c.enclosing? := rfl
      simp only [Except.map, ok_bind, ih, henc]

theorem callDepthFrom_dress (n : Nat) (k : ContextId) (depth : Nat) :
    (p.dress flag edges).callDepthFrom n k depth = p.callDepthFrom n k depth := by
  induction n generalizing k depth with
  | zero => rfl
  | succ n ih =>
    rw [callDepthFrom, callDepthFrom, context_dress]
    cases p.context k with
    | error fault => rfl
    | ok c =>
      have hparent : (c.dress (flag k c) (edges k c)).parent = c.parent := rfl
      have hfun : (c.dress (flag k c) (edges k c)).isFunction = c.isFunction := rfl
      simp only [Except.map, ok_bind, ih, hparent, hfun]

theorem visit_dress (n : Nat) (visited : List ContextId) (c : Context) (k : Bool)
    (es : Block → List Successor × List BlockId) :
    (p.dress flag edges).visit n visited (c.dress k es) = p.visit n visited c := by
  induction n generalizing visited c k es with
  | zero => rfl
  | succ n ih =>
    rw [visit, visit, enteredAll_dress]
    congr 2
    funext visited child
    cases child with
    | error fault => rfl
    | ok d =>
      rw [ok_bind, ok_bind, context_dress]
      cases p.context d with
      | error fault => rfl
      | ok d => exact ih _ _ _ _

theorem visit_context_dress (n : Nat) (visited : List ContextId) (k : ContextId) :
    ((p.dress flag edges).context k >>= (p.dress flag edges).visit n visited) =
      p.context k >>= p.visit n visited := by
  rw [context_dress]
  cases p.context k with
  | error fault => rfl
  | ok c => exact visit_dress n visited c _ _

theorem visitOrder_dress : (p.dress flag edges).visitOrder = p.visitOrder := by
  have hvalues (visited : List ContextId) : (p.dress flag edges).contexts.values.foldlM
      ((p.dress flag edges).visit p.climbBound) visited =
        p.contexts.values.foldlM (p.visit p.climbBound) visited :=
    foldlM_values_dress (fun visited k c => visit_dress _ visited c _ _) visited
  have hroot : (p.dress flag edges).root = p.root := rfl
  have hconds : (p.dress flag edges).pathConditions = p.pathConditions := rfl
  rw [visitOrder, visitOrder, climbBound_dress, hroot, hconds, ← bind_assoc, ← bind_assoc,
    visit_context_dress]
  simp only [visit_context_dress, hvalues, bind_assoc]

theorem checkFunction_dress (k : ContextId) :
    (p.dress flag edges).checkFunction k = p.checkFunction k := by
  rw [checkFunction, checkFunction, context_dress]
  cases p.context k <;> rfl

theorem checkOperation_dress : (p.dress flag edges).checkOperation = p.checkOperation := by
  funext op
  cases op with
  | call site =>
    rw [checkOperation, checkOperation]
    cases site.callee with
    | none => rfl
    | some callee => exact checkFunction_dress callee
  | _ => rfl

theorem checkInstr_dress : (p.dress flag edges).checkInstr = p.checkInstr := by
  funext seen i
  rw [checkInstr, checkInstr, checkOperation_dress]

theorem checkContext_dress (seen : IdentSet .inst) (c : Context) (k : Bool)
    (es : Block → List Successor × List BlockId) :
    (p.dress flag edges).checkContext seen (c.dress k es) = p.checkContext seen c := by
  have hparent : (c.dress k es).parent = c.parent := rfl
  have hfun : (c.dress k es).isFunction = c.isFunction := rfl
  have hcontext (parent : ContextId) : (discard ((p.dress flag edges).context parent) :
      Except Fault Unit) = discard (p.context parent) := by
    rw [context_dress]
    cases p.context parent <;> rfl
  have hentry : (discard ((c.dress k es).block (c.dress k es).entry) : Except Fault Unit) =
      discard (c.block c.entry) := by
    rw [Context.block_dress]
    show discard ((c.block c.entry).map _) = _
    cases c.block c.entry <;> rfl
  have hblocks : (c.dress k es).blocks.entries.foldlM
      ((p.dress flag edges).checkBlock (c.dress k es)) seen =
        c.blocks.entries.foldlM (p.checkBlock c) seen := by
    simp only [Context.dress, Table.mapValues, List.foldlM_map, checkBlock, checkInstr_dress,
      Block.dress]
    rfl
  rw [checkContext, checkContext, hentry, hblocks, hparent, hfun]
  simp only [hcontext]
  rfl

theorem checkNames_dress : (p.dress flag edges).checkNames = p.checkNames := by
  have hcontexts : (p.dress flag edges).contexts.values.foldlM (p.dress flag edges).checkContext ∅ =
      p.contexts.values.foldlM p.checkContext ∅ :=
    foldlM_values_dress (fun seen k c => checkContext_dress seen c _ _) ∅
  rw [checkNames, checkNames, checkFunction_dress, hcontexts]
  simp only [checkFunction_dress]
  rfl

end Program

namespace Layout

theorem addContext_dress (l : Layout) (c : Context) (k : Bool)
    (es : Block → List Successor × List BlockId) :
    addContext (p.dress flag edges) l (c.dress k es) = addContext p l c := by
  have hid : (c.dress k es).id = c.id := rfl
  have hloops : (c.dress k es).loops = c.loops := rfl
  have hkeys : (c.dress k es).blocks.keys = c.blocks.keys := Table.keys_mapValues _ _
  simp only [addContext, Program.functionRootFrom_dress, Program.callDepthFrom_dress,
    Program.climbBound_dress, Context.instructions_dress, hid, hloops, hkeys]

theorem ofProgram_dress : ofProgram (p.dress flag edges) = ofProgram p := by
  rw [ofProgram, ofProgram, Program.visitOrder_dress,
    Program.foldlM_values_dress (fun l k c => addContext_dress l c _ _)]

theorem edgeOwnerFrom_dress (l : Layout) (target : BlockId) (n : Nat) (k : ContextId) :
    l.edgeOwnerFrom (p.dress flag edges) target n k = l.edgeOwnerFrom p target n k := by
  induction n generalizing k with
  | zero => rfl
  | succ n ih =>
    rw [edgeOwnerFrom, edgeOwnerFrom, Program.get?_dress]
    cases p.contexts.get? k with
    | none => rfl
    | some c =>
      have henc : (c.dress (flag k c) (edges k c)).enclosing? = c.enclosing? := rfl
      simp only [Option.map_some, henc, ih]

theorem edgeOwner?_dress (l : Layout) (k : ContextId) (target : BlockId) :
    l.edgeOwner? (p.dress flag edges) k target = l.edgeOwner? p k target := by
  rw [edgeOwner?, edgeOwner?, Program.climbBound_dress, edgeOwnerFrom_dress]

end Layout

/-! ## Linking -/

namespace Table

theorem mapValues_self {α β : Type} (t : Table α β) : (t.mapValues fun _ v => v) = t := by
  obtain ⟨es, hes⟩ := t
  simp [mapValues]

theorem mapValues_mapValues {α β γ δ : Type} (t : Table α β) (f : α → β → γ) (g : α → γ → δ) :
    (t.mapValues f).mapValues g = t.mapValues fun k v => g k (f k v) := by
  obtain ⟨es, hes⟩ := t
  simp [mapValues]

end Table

theorem Context.dress_dress {c : Context} {flag flag' : Bool}
    {edges edges' : Block → List Successor × List BlockId} :
    (c.dress flag edges).dress flag' edges' =
      c.dress flag' fun b => edges' (b.dress edges) := by
  simp only [Context.dress, Table.mapValues_mapValues]
  rfl

namespace Program

theorem dress_dress {flag' : ContextId → Context → Bool}
    {edges' : ContextId → Context → Block → List Successor × List BlockId} :
    (p.dress flag edges).dress flag' edges' =
      p.dress (fun k c => flag' k (c.dress (flag k c) (edges k c))) fun k c b =>
        edges' k (c.dress (flag k c) (edges k c)) (b.dress (edges k c)) := by
  simp only [dress, Table.mapValues_mapValues, Context.dress_dress]

theorem hiddenIterations_dress : (p.dress flag edges).hiddenIterations = p.hiddenIterations := by
  simp only [hiddenIterations, dress, Table.values, Table.mapValues, List.map_map,
    List.flatMap_map]
  rfl

/-- Flags are inherited without regard to edges. -/
theorem inheritFlags_dress {edges : ContextId → Block → List Successor × List BlockId} :
    (p.dress (fun _ c => c.materialized) fun k _ => edges k).inheritFlags =
      p.inheritFlags.dress (fun _ c => c.materialized) fun k _ => edges k := by
  simp only [inheritFlags, hiddenIterations_dress]
  simp only [dress, Table.mapValues_mapValues]
  congr 2
  funext k c
  split <;> rfl

theorem isTaken_dress (k c : ContextId) (b : BlockId) :
    (p.dress flag edges).isTaken k c b = p.isTaken k c b := by
  simp only [isTaken, dress, Context.dress, Block.dress, Table.values, Table.mapValues,
    List.takeWhile_map, List.any_map, Function.comp_def]

theorem inheritFlags_eq_dress : p.inheritFlags = p.dress
    (fun k c => if p.hiddenIterations.contains k then false else c.materialized)
    (fun _ _ b => (b.succs, b.preds)) := by
  have hself (c : Context) :
      (c.blocks.mapValues fun _ => Block.dress fun b => (b.succs, b.preds)) = c.blocks :=
    c.blocks.mapValues_self
  simp only [inheritFlags, dress, Context.dress, hself]
  congr 1
  congr 1
  funext k c
  split <;> rfl

theorem withPreds_eq_dress (l : Layout) : p.withPreds l = p.dress (fun _ c => c.materialized)
    (fun k c b => (b.succs, if p.isTaken k c.id b.id then []
      else ((p.edges l).filter fun e => e.1 = (c.id, b.id)).map Prod.snd)) := rfl

theorem link_iff {p₀ : Program} : p₀.link = .ok p ↔ p₀.checkNames = .ok () ∧
    ∃ l, Layout.ofProgram p₀.inheritFlags = .ok l ∧ p = p₀.inheritFlags.withPreds l ∧
      ∀ c ∈ p.contexts.values, p.checkShape l c = .ok () := by
  simp only [link, bind_eq_ok, pure_eq_ok, Except.ok.injEq]
  constructor
  · rintro ⟨⟨⟩, hnames, l, hl, ⟨⟩, hshape, rfl⟩
    exact ⟨hnames, l, hl, rfl, forM_eq_ok.1 hshape⟩
  · rintro ⟨hnames, l, hl, rfl, hshape⟩
    exact ⟨⟨⟩, hnames, l, hl, ⟨⟩, forM_eq_ok.2 hshape, rfl⟩

/-- What linking checks holds of the linked program, with its own layout. -/
theorem link_eq_ok {p₀ : Program} (h : p₀.link = .ok p) :
    p.checkNames = .ok () ∧ ∃ l, Layout.ofProgram p = .ok l ∧
      (∀ c ∈ p.contexts.values, p.checkShape l c = .ok ()) ∧
      ∃ p₁ : Program, Layout.ofProgram p₁ = .ok l ∧ p = p₁.withPreds l := by
  obtain ⟨hnames, l, hl, rfl, hshape⟩ := link_iff.1 h
  refine ⟨?_, l, ?_, hshape, _, hl, rfl⟩
  · rw [withPreds_eq_dress, checkNames_dress, inheritFlags_eq_dress, checkNames_dress, hnames]
  · rw [withPreds_eq_dress, Layout.ofProgram_dress, hl]

end Program

end ByteTrust
