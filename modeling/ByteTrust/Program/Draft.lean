import ByteTrust.Program.Link

/-!
# Drafting a program

A `Draft` is a program under construction. Each `Draft.Action` adds to it or changes it, and names
are handed out in order, one counter for each kind. Misuse, such as naming a context that does not
exist, is noted; `Draft.finish` reports the first one, or else completes the program and links it.
-/

namespace ByteTrust

/-- A loop whose blocks are still being added. -/
structure OpenLoop where
  id : LoopId
  preheader : BlockId
  header : Option BlockId := none
  blocks : IdentSet .block := ∅
  body : List Region := []

/-- A program under construction.

The counters are natural numbers that stand for numbers of 32 bits: names stay below `2 ^ 32`, so
fewer than `2 ^ 32` names of a kind are handed out. The same holds of the count of a peeled loop and
of the index of each of its iterations. -/
structure Draft where
  objects : IdentMap .object MemoryObject := ∅
  contexts : Table ContextId Context := ∅
  /-- The first function without a caller. -/
  root : Option ContextId := none
  pathConditions : List PathCondition := []
  /-- The open loops of each context, innermost first. -/
  openLoops : Table ContextId (List OpenLoop) := ∅
  /-- Iterations whose header and latch were given. -/
  bounded : IdentSet .context := ∅
  /-- The context and block of each instruction. -/
  places : IdentMap .inst (ContextId × BlockId) := ∅
  nextObject : Nat := 0
  nextContext : Nat := 0
  nextBlock : Nat := 0
  nextInst : Nat := 0
  nextLoop : Nat := 0
  nextFunction : Nat := 0
  /-- The first misuse. -/
  misuse : Option Fault := none

namespace Draft

/-- What can be done to a draft. -/
inductive Action
  /-- Declare an object. -/
  | object (kind : ObjectKind) (size : Option Nat)
  | nameObject (object : ObjectId) (name : String)
  /-- A function without a caller. The first one becomes the root. -/
  | function (name : String)
  /-- An instance of a new function, called from `caller`. -/
  | callee (caller : ContextId) (name : String)
  /-- Another instance of the function of `like`, called from `caller`. -/
  | calleeLike (caller like : ContextId)
  /-- A new block, in the innermost open loop of the context if there is one. -/
  | block (c : ContextId)
  | inst (c : ContextId) (b : BlockId) (op : Operation)
  /-- A call, which is entered in the list of callers of its callee. -/
  | call (c : ContextId) (b : BlockId) (site : CallSite)
  | edge (c : ContextId) (source target : BlockId) (live : Bool)
  | terminate (c : ContextId) (b : BlockId) (terminator : Terminator)
  /-- The block does not run on every path. -/
  | uncertain (c : ContextId) (b : BlockId)
  /-- Open a loop: the next block of the context is its header. -/
  | beginLoop (c : ContextId) (preheader : BlockId)
  /-- Close the innermost open loop of the context. -/
  | endLoop (c : ContextId) (latch : BlockId)
  /-- A loop that was unrolled into `count` iterations, fewer than `2 ^ 32`. -/
  | peeledLoop (c : ContextId) (preheader : BlockId) (count : Nat) (terminated : Bool)
  /-- The header and latch of an iteration, if they are not its first and last block. -/
  | bounds (iteration : ContextId) (header latch : BlockId)
  | setPeelMaterialized (c : ContextId) (loop : LoopId) (value : Bool)
  | setMaterialized (c : ContextId) (value : Bool)
  | threadLocal (inst : InstId)
  | runtimeCheck (inst : InstId) (check : RuntimeCheck)
  | unreached (inst : InstId)
  | pathCondition (condition : PathCondition)
  /-- Ask for the function of a context. -/
  | functionOf (c : ContextId)

/-- What an action answers. -/
inductive Reply
  | nothing
  | name (κ : IdentKind) (id : Ident κ)
  | peeled (loop : LoopId) (iterations : List ContextId)

/-! ## Parts of actions -/

/-- Stands for a block that is not known yet. -/
def noBlock : BlockId := ⟨Ident.bound - 1⟩

/-- Note a misuse. Only the first one counts. -/
def blame (d : Draft) (f : Fault) : Draft := { d with misuse := d.misuse.or (some f) }

/-- Add a context. -/
def addContext (d : Draft) (kind : ContextKind) (parent : Option ContextId) : ContextId × Draft :=
  let id : ContextId := ⟨d.nextContext⟩
  (id, { d with
    nextContext := d.nextContext + 1
    contexts := d.contexts.insert id
      { id := id, kind := kind, parent := parent, blocks := ∅, regions := [], entry := noBlock } })

/-- The kind of an instance of a new function. -/
def newFunction (d : Draft) (name : String) : ContextKind × Draft :=
  (.function ⟨d.nextFunction⟩ name [], { d with nextFunction := d.nextFunction + 1 })

/-- Change a block, or note that it does not exist. -/
def changeBlock (d : Draft) (c : ContextId) (b : BlockId) (f : Block → Block) : Draft :=
  match (d.contexts.get? c).bind fun context => context.blocks.get? b with
  | some _ =>
    { d with contexts := d.contexts.modify c fun context =>
        { context with blocks := context.blocks.modify b f } }
  | none => d.blame (.unknownBlock c b)

/-- Change an instruction, or note that it does not exist. -/
def changeInstr (d : Draft) (inst : InstId) (f : Instr → Instr) : Draft :=
  match d.places.get? inst with
  | some (c, b) => d.changeBlock c b fun block =>
      { block with insts := block.insts.map fun i => if i.id = inst then f i else i }
  | none => d.blame (.unknownInstr inst)

/-- The open loops of a context, innermost first. -/
def openLoopsOf (d : Draft) (c : ContextId) : List OpenLoop := (d.openLoops.get? c).getD []

/-- Add a region to the innermost open loop of a context, or to the context itself. -/
def addRegion (d : Draft) (c : ContextId) (r : Region) : Draft :=
  match d.openLoopsOf c with
  | l :: ls => { d with openLoops := d.openLoops.insert c ({ l with body := l.body ++ [r] } :: ls) }
  | [] =>
    if d.contexts.contains c then
      { d with contexts := d.contexts.modify c fun context =>
          { context with regions := context.regions ++ [r] } }
    else d.blame (.unknownContext c)

/-- A block belongs to all open loops of its context, and may be the header of the innermost
one. -/
def enrol (d : Draft) (c : ContextId) (b : BlockId) : Draft :=
  match d.openLoopsOf c with
  | [] => d
  | l :: ls =>
    let l := { l with header := l.header.or (some b) }
    let loops := (l :: ls).map fun l => { l with blocks := l.blocks.insert b }
    { d with openLoops := d.openLoops.insert c loops }

/-- Add a block. -/
def addBlock (d : Draft) (c : ContextId) : BlockId × Draft :=
  let id : BlockId := ⟨d.nextBlock⟩
  let d := { d with nextBlock := d.nextBlock + 1 }
  if d.contexts.contains c then
    let d := { d with contexts := d.contexts.modify c fun context =>
        { context with
          entry := if context.blocks.size = 0 then id else context.entry
          blocks := context.blocks.insert id { id := id } } }
    (id, (d.enrol c id).addRegion c (.block id))
  else (id, d.blame (.unknownContext c))

/-- Add an instruction to a block. -/
def addInstr (d : Draft) (c : ContextId) (b : BlockId) (op : Operation) : InstId × Draft :=
  let id : InstId := ⟨d.nextInst⟩
  let d := { d with nextInst := d.nextInst + 1 }
  match (d.contexts.get? c).bind fun context => context.blocks.get? b with
  | some _ =>
    let d := d.changeBlock c b fun block =>
      { block with insts := block.insts ++ [{ id := id, op := op }] }
    (id, { d with places := d.places.insert id (c, b) })
  | none => (id, d.blame (.unknownBlock c b))

/-- Enter a call in the list of callers of its callee. -/
def addCaller (d : Draft) (inst : InstId) (callee : ContextId) : Draft :=
  if (d.contexts.get? callee).any Context.isFunction then
    { d with contexts := d.contexts.modify callee fun context =>
        match context.kind with
        | .function f name callers => { context with kind := .function f name (callers ++ [inst]) }
        | .iteration .. => context }
  else d.blame (.unknownContext callee)

/-- Add the contexts of `count` iterations of a loop of `c`, from number `index` on. -/
def addIterations (d : Draft) (c : ContextId) (loop : LoopId) (index : Nat) :
    Nat → List ContextId × Draft
  | 0 => ([], d)
  | count + 1 =>
    let (id, d) := d.addContext (.iteration loop index noBlock noBlock) (some c)
    let (ids, d) := addIterations d c loop (index + 1) count
    (id :: ids, d)

/-- A loop of the context has this name, and was unrolled. -/
def hasPeel (context : Context) (loop : LoopId) : Bool :=
  context.loops.any fun l => l.id = loop && l.peel.isSome

/-! ## Actions -/

/-- Perform an action. -/
def perform (d : Draft) : Action → Reply × Draft
  | .object kind size =>
    let id : ObjectId := ⟨d.nextObject⟩
    (.name _ id, { d with
      nextObject := d.nextObject + 1
      objects := d.objects.insert id { id := id, kind := kind, size := size, name := none } })
  | .nameObject object name =>
    match d.objects.get? object with
    | some o => (.nothing, { d with objects := d.objects.insert object { o with name := name } })
    | none => (.nothing, d.blame (.unknownObject object))
  | .function name =>
    let (kind, d) := d.newFunction name
    let (id, d) := d.addContext kind none
    (.name _ id, { d with root := d.root.or (some id) })
  | .callee caller name =>
    let (kind, d) := d.newFunction name
    let (id, d) := d.addContext kind (some caller)
    (.name _ id, d)
  | .calleeLike caller like =>
    let (kind, d) :=
      match (d.contexts.get? like).map Context.kind with
      | some (.function f name _) => (ContextKind.function f name [], d)
      | _ => (d.blame (.unknownContext like)).newFunction "?"
    let (id, d) := d.addContext kind (some caller)
    (.name _ id, d)
  | .block c =>
    let (id, d) := d.addBlock c
    (.name _ id, d)
  | .inst c b op =>
    let (id, d) := d.addInstr c b op
    (.name _ id, d)
  | .call c b site =>
    let (id, d) := d.addInstr c b (.call site)
    match site.callee with
    | some callee => (.name _ id, d.addCaller id callee)
    | none => (.name _ id, d)
  | .edge c source target live =>
    (.nothing, d.changeBlock c source fun b => { b with succs := b.succs ++ [⟨target, live⟩] })
  | .terminate c b terminator =>
    (.nothing, d.changeBlock c b fun b => { b with terminator := terminator })
  | .uncertain c b => (.nothing, d.changeBlock c b fun b => { b with certain := false })
  | .beginLoop c preheader =>
    let id : LoopId := ⟨d.nextLoop⟩
    (.name _ id, { d with
      nextLoop := d.nextLoop + 1
      openLoops := d.openLoops.insert c ({ id := id, preheader := preheader } :: d.openLoopsOf c) })
  | .endLoop c latch =>
    match d.openLoopsOf c with
    | [] => (.nothing, d.blame (.unknownContext c))
    | l :: ls =>
      let d := { d with openLoops := d.openLoops.insert c ls }
      match l.header with
      | none => (.nothing, d.blame (.malformedLoop c l.id .noBlocks))
      | some header =>
        (.name _ l.id, d.addRegion c (.loop
          { id := l.id, preheader := l.preheader, header := header, latch := latch,
            blocks := l.blocks } l.body))
  | .peeledLoop c preheader count terminated =>
    let id : LoopId := ⟨d.nextLoop⟩
    let (iterations, d) := { d with nextLoop := d.nextLoop + 1 }.addIterations c id 0 count
    (.peeled id iterations, d.addRegion c (.loop
      { id := id, preheader := preheader, header := noBlock, latch := noBlock,
        peel := some { iterations := iterations, terminated := terminated } } []))
  | .bounds iteration header latch =>
    match (d.contexts.get? iteration).map Context.kind with
    | some (.iteration loop index _ _) =>
      (.nothing, { d with
        bounded := d.bounded.insert iteration
        contexts := d.contexts.modify iteration fun context =>
          { context with kind := .iteration loop index header latch, entry := header } })
    | _ => (.nothing, d.blame (.unknownContext iteration))
  | .setPeelMaterialized c loop value =>
    if (d.contexts.get? c).any fun context => hasPeel context loop then
      let mark (l : Loop) : Loop :=
        if l.id = loop then
          { l with peel := l.peel.map fun peel => { peel with materialized := value } }
        else l
      (.nothing, { d with contexts := d.contexts.modify c fun context =>
          { context with regions := Region.mapLoopsAll mark context.regions } })
    else (.nothing, d.blame (.unknownContext c))
  | .setMaterialized c value =>
    if d.contexts.contains c then
      (.nothing, { d with contexts := d.contexts.modify c fun context =>
          { context with materialized := value } })
    else (.nothing, d.blame (.unknownContext c))
  | .threadLocal inst => (.nothing, d.changeInstr inst fun i => { i with threadLocal := true })
  | .runtimeCheck inst check =>
    (.nothing, d.changeInstr inst fun i => { i with runtimeCheck := check })
  | .unreached inst => (.nothing, d.changeInstr inst fun i => { i with reached := false })
  | .pathCondition condition =>
    (.nothing, { d with pathConditions := d.pathConditions ++ [condition] })
  | .functionOf c =>
    match (d.contexts.get? c).bind Context.function? with
    | some f => (.name _ f, d)
    | none => (.nothing, d)

/-! ## Completion -/

/-- An iteration without given bounds runs from its first block to its last. -/
def completeBounds (d : Draft) (c : Context) : Context :=
  match c.kind with
  | .function .. => c
  | .iteration loop index _ _ =>
    if d.bounded.contains c.id then c
    else { c with kind := .iteration loop index c.entry (c.blocks.keys.getLast?.getD c.entry) }

/-- The header and latch of an iteration. -/
def boundsOf (contexts : Table ContextId Context) (c : ContextId) : Option (BlockId × BlockId) :=
  match (contexts.get? c).map Context.kind with
  | some (.iteration _ _ header latch) => some (header, latch)
  | _ => none

/-- An unrolled loop has the header of its first iteration and the latch of its last. -/
def completeLoop (contexts : Table ContextId Context) (l : Loop) : Loop :=
  match l.peel with
  | none => l
  | some peel =>
    let first := peel.iterations.head?.bind (boundsOf contexts)
    let last := peel.iterations.getLast?.bind (boundsOf contexts)
    { l with
      header := (first.map Prod.fst).getD l.header
      latch := (last.map Prod.snd).getD l.latch }

/-- The context and name of a loop that was never closed. -/
def unclosed? (d : Draft) : Option (ContextId × LoopId) :=
  d.openLoops.entries.findSome? fun e => e.2.getLast?.map fun l => (e.1, l.id)

/-- Complete a draft and link the program. -/
def finish (d : Draft) : Except Fault Program := do
  if let some f := d.misuse then throw f
  if let some (c, loop) := d.unclosed? then throw (.malformedLoop c loop .neverClosed)
  match d.root with
  | none => throw (.unknownContext ⟨0⟩)
  | some root =>
    let contexts := d.contexts.mapValues fun _ c => d.completeBounds c
    let contexts := contexts.mapValues fun _ c =>
      { c with regions := Region.mapLoopsAll (completeLoop contexts) c.regions }
    Program.link
      { objects := d.objects, contexts := contexts, root := root,
        pathConditions := d.pathConditions }

end Draft

end ByteTrust
