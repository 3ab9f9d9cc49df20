import ByteTrust.Json.Decode
import ByteTrust.Json.Read
import ByteTrust.Program.Basic

/-!
# Programs from JSON

Readers for every part of a program. A field that may be left out has its default here.
-/

namespace ByteTrust

open Json Json.Decode

/-! ## Objects and values -/

namespace ObjectKind

/-- Read the kind of an object. -/
def read : Reader ObjectKind :=
  choice fun d name content =>
    match name, content with
    | "stack", some v =>
      record ["owner"] (fun d slots =>
        match slots with
        | [owner] => return .stack (← owner.required ident d)
        | _ => none) d v
    | "heap", v => bare .heap v
    | "global", some v =>
      record ["constant"] (fun d slots =>
        match slots with
        | [constant] => return .global (← constant.required bool d)
        | _ => none) d v
    | "file_descriptor", v => bare .descriptor v
    | _, _ => none

end ObjectKind

/-- Read a memory object. -/
def MemoryObject.read : Reader MemoryObject :=
  record ["id", "kind", "size", "name"] fun d slots =>
    match slots with
    | [id, kind, size, name] => do
      return {
        id := ← id.required ident d
        kind := ← kind.required ObjectKind.read d
        size := ← size.optional Decode.size d
        name := ← name.withDefault (option text) none d }
    | _ => none

/-- Read a pointer. -/
def Pointer.read : Reader Pointer :=
  record ["object", "offset"] fun d slots =>
    match slots with
    | [object, offset] => do
      return ⟨← object.required ident d, ← offset.required Decode.offset d⟩
    | _ => none

/-- Read a pointer operand. -/
def PointerValue.read : Reader PointerValue :=
  choice fun d name content =>
    match name, content with
    | "unknown", v => bare .unknown v
    | "null", v => bare .null v
    | "targets", some v => (list Pointer.read d v).map .targets
    | _, _ => none

/-- Read a speculated value. -/
def SpecValue.read : Reader SpecValue :=
  choice fun d name content =>
    match name, content with
    | "scalar", some v => (Decode.size d v).map .scalar
    | "pointer", some v => (Pointer.read d v).map .pointer
    | "descriptor", some v => (ident d v).map .descriptor
    | _, _ => none

/-- Read a piece of a value. -/
def ValuePiece.read : Reader ValuePiece :=
  record ["start", "stop", "value"] fun d slots =>
    match slots with
    | [start, stop, value] => do
      return {
        start := ← start.required size d
        stop := ← stop.required size d
        value := ← value.optional SpecValue.read d }
    | _ => none

/-- Read a speculated result. -/
def ReadValue.read : Reader ReadValue :=
  choice fun d name content =>
    match name, content with
    | "unknown", v => bare .unknown v
    | "known", some v => (SpecValue.read d v).map .known
    | "pieces", some v => (list ValuePiece.read d v).map .pieces
    | _, _ => none

/-! ## Instructions -/

/-- Read an access ordering. -/
def AccessOrdering.read : Reader AccessOrdering :=
  oneOf [("plain", .plain), ("ordered", .ordered), ("ordered_simple", .orderedSimple)]

/-- Read the effect of a call. -/
def CallEffect.read : Reader CallEffect :=
  oneOf [("known", .known), ("opaque", .unknown), ("yield", .yields)]

/-- Read what a call may reference. -/
def RefSummary.read : Reader RefSummary :=
  choice fun d name content =>
    match name, content with
    | "unknown", v => bare .unknown v
    | "objects", some v => (list ident d v).map .objects
    | _, _ => none

/-- Read a call. -/
def CallSite.read : Reader CallSite :=
  record ["callee", "effect", "domain", "pessimistic", "refs", "result"] fun d slots =>
    match slots with
    | [callee, effect, domain, pessimistic, refs, result] => do
      return {
        callee := ← callee.withDefault (option ident) none d
        effect := ← effect.withDefault CallEffect.read .known d
        domain := ← domain.withDefault (option (list ident)) none d
        pessimistic := ← pessimistic.withDefault bool false d
        refs := ← refs.withDefault RefSummary.read .unknown d
        result := ← result.withDefault ReadValue.read .unknown d }
    | _ => none

namespace Operation

/-- Read an access: its pointer, size, ordering and result. -/
def readAccess (make : PointerValue → Nat → AccessOrdering → ReadValue → Operation) :
    Reader Operation :=
  record ["ptr", "size", "ordering", "result"] fun d slots =>
    match slots with
    | [ptr, size, ordering, result] => do
      return make (← ptr.required PointerValue.read d) (← size.required Decode.size d)
        (← ordering.withDefault AccessOrdering.read .plain d)
        (← result.withDefault ReadValue.read .unknown d)
    | _ => none

/-- Read a store. -/
def readStore : Reader Operation :=
  record ["ptr", "size"] fun d slots =>
    match slots with
    | [ptr, size] => do
      return .store (← ptr.required PointerValue.read d) (← size.required Decode.size d)
    | _ => none

/-- Read a write of a length that may be unknown, in the field `lengthName`. -/
def readFill (lengthName : String) (make : PointerValue → Option Nat → Operation) :
    Reader Operation :=
  record ["dest", lengthName] fun d slots =>
    match slots with
    | [dest, len] => do
      return make (← dest.required PointerValue.read d) (← len.optional Decode.size d)
    | _ => none

/-- Read a copy. -/
def readCopy : Reader Operation :=
  record ["dest", "src", "len", "copied"] fun d slots =>
    match slots with
    | [dest, src, len, copied] => do
      return .memcpy (← dest.required PointerValue.read d) (← src.required PointerValue.read d)
        (← len.optional Decode.size d) (← copied.withDefault (list ValuePiece.read) [] d)
    | _ => none

/-- Read a reallocation. -/
def readRealloc : Reader Operation :=
  record ["object", "source", "len", "copied"] fun d slots =>
    match slots with
    | [object, source, len, copied] => do
      return .realloc (← object.required ident d) (← source.required PointerValue.read d)
        (← len.optional Decode.size d) (← copied.withDefault (list ValuePiece.read) [] d)
    | _ => none

/-- Read an operation. -/
def read : Reader Operation :=
  choice fun d name content =>
    match name, content with
    | "load", some v => readAccess .load d v
    | "store", some v => readStore d v
    | "atomic", some v => readAccess .atomic d v
    | "fence", v => bare .fence v
    | "memset", some v => readFill "len" .memset d v
    | "memcpy", some v => readCopy d v
    | "read_file", some v => readFill "size" .readFile d v
    | "alloc", some v =>
      record ["object"] (fun d slots =>
        match slots with
        | [object] => return .alloc (← object.required ident d)
        | _ => none) d v
    | "realloc", some v => readRealloc d v
    | "free", some v =>
      record ["ptr"] (fun d slots =>
        match slots with
        | [ptr] => return .free (← ptr.required PointerValue.read d)
        | _ => none) d v
    | "call", some v => (CallSite.read d v).map .call
    | "phi", some v =>
      record ["value"] (fun d slots =>
        match slots with
        | [value] => return .phi (← value.withDefault ReadValue.read .unknown d)
        | _ => none) d v
    | "other", v => bare .other v
    | _, _ => none

end Operation

/-- Read a run-time check. -/
def RuntimeCheck.read : Reader RuntimeCheck :=
  oneOf [("none", .none), ("as_expected", .asExpected), ("read_lliowd", .fileRead),
    ("read_memcmp", .comparison)]

/-- Read an instruction. -/
def Instr.read : Reader Instr :=
  record ["id", "kind", "thread_local", "runtime_check", "reached"] fun d slots =>
    match slots with
    | [id, kind, threadLocal, runtimeCheck, reached] => do
      return {
        id := ← id.required ident d
        op := ← kind.required Operation.read d
        threadLocal := ← threadLocal.withDefault bool false d
        runtimeCheck := ← runtimeCheck.withDefault RuntimeCheck.read .none d
        reached := ← reached.withDefault bool true d }
    | _ => none

/-! ## Blocks and regions -/

/-- Read an edge. -/
def Successor.read : Reader Successor :=
  record ["target", "live"] fun d slots =>
    match slots with
    | [target, live] => do
      return { target := ← target.required ident d, live := ← live.withDefault bool true d }
    | _ => none

/-- Read how a block ends. -/
def Terminator.read : Reader Terminator :=
  oneOf [("branch", .branch), ("return", .ret), ("unreachable", .unreachable)]

/-- Read a block. -/
def Block.read : Reader Block :=
  record ["id", "insts", "succs", "preds", "terminator", "certain"] fun d slots =>
    match slots with
    | [id, insts, succs, preds, terminator, certain] => do
      return {
        id := ← id.required ident d
        insts := ← insts.withDefault (list Instr.read) [] d
        succs := ← succs.withDefault (list Successor.read) [] d
        preds := ← preds.withDefault (list ident) [] d
        terminator := ← terminator.withDefault Terminator.read .branch d
        certain := ← certain.withDefault bool true d }
    | _ => none

/-- Read a peel attempt. -/
def PeelAttempt.read : Reader PeelAttempt :=
  record ["iterations", "terminated", "materialized"] fun d slots =>
    match slots with
    | [iterations, terminated, materialized] => do
      return {
        iterations := ← iterations.required (list ident) d
        terminated := ← terminated.required bool d
        materialized := ← materialized.withDefault bool true d }
    | _ => none

/-- Read a region. Each loop takes three levels: the choice, the loop and its body. -/
def Region.read : Reader Region
  | n + 1, .obj [(k, v)] =>
    match unescape? k with
    | some "block" => (ident n v).map .block
    | some "loop" =>
      match n with
      | 0 => none
      | m + 1 =>
        match slots ["id", "preheader", "header", "latch", "blocks", "body", "peel"] v with
        | some [id, preheader, header, latch, blocks, body, peel] => do
          let info : Loop := {
            id := ← id.required ident m
            preheader := ← preheader.required ident m
            header := ← header.required ident m
            latch := ← latch.required ident m
            blocks := ← blocks.withDefault identSet ∅ m
            peel := ← peel.withDefault (option PeelAttempt.read) none m }
          let body ←
            match m, body with
            | l + 1, .given (.arr items) => items.mapM (Region.read l)
            | _, .given _ => none
            | _, _ => some []
          return .loop info body
        | _ => none
    | _ => none
  | _, _ => none

/-! ## Contexts and programs -/

/-- Read the kind of a context. -/
def ContextKind.read : Reader ContextKind :=
  choice fun d name content =>
    match name, content with
    | "function", some v =>
      record ["function", "name", "callers"] (fun d slots =>
        match slots with
        | [f, name, callers] => do
          return .function (← f.required ident d) (← name.required text d)
            (← callers.withDefault (list ident) [] d)
        | _ => none) d v
    | "iteration", some v =>
      record ["loop_id", "index", "header", "latch"] (fun d slots =>
        match slots with
        | [loop, index, header, latch] => do
          return .iteration (← loop.required ident d) (← index.required (natBelow UInt32.size) d)
            (← header.required ident d) (← latch.required ident d)
        | _ => none) d v
    | _, _ => none

/-- Read a table keyed by identifiers: a repeated key keeps its first place and its last value. -/
def Table.read {κ : IdentKind} {α : Type} (r : Reader α) : Reader (Table (Ident κ) α) :=
  fun d j => (keyed r d j).map Table.ofList

/-- Read a context. -/
def Context.read : Reader Context :=
  record ["id", "kind", "parent", "blocks", "regions", "entry", "materialized"] fun d slots =>
    match slots with
    | [id, kind, parent, blocks, regions, entry, materialized] => do
      return {
        id := ← id.required ident d
        kind := ← kind.required ContextKind.read d
        parent := ← parent.withDefault (option ident) none d
        blocks := ← blocks.required (Table.read Block.read) d
        regions := ← regions.required (list Region.read) d
        entry := ← entry.required ident d
        materialized := ← materialized.withDefault bool true d }
    | _ => none

/-- Read what a path condition says. -/
def PathFact.read : Reader PathFact :=
  choice fun d name content =>
    match name, content with
    | "bytes", some v =>
      record ["ptr", "offset", "len"] (fun d slots =>
        match slots with
        | [ptr, offset, len] => do
          return .bytes (← ptr.required PointerValue.read d)
            (← offset.withDefault Decode.offset 0 d) (← len.required size d)
        | _ => none) d v
    | "function", some v =>
      record ["context"] (fun d slots =>
        match slots with
        | [context] => return .checker (← context.required ident d)
        | _ => none) d v
    | _, _ => none

/-- Read a path condition. -/
def PathCondition.read : Reader PathCondition :=
  record ["function", "block", "stack_depth", "kind"] fun d slots =>
    match slots with
    | [function, block, stackDepth, kind] => do
      return {
        function := ← function.required ident d
        block := ← block.required ident d
        stackDepth := ← stackDepth.withDefault (option (natBelow UInt32.size)) none d
        fact := ← kind.required PathFact.read d }
    | _ => none

namespace Program

/-- Read a program. -/
def read : Reader Program :=
  record ["objects", "contexts", "root", "path_conditions"] fun d slots =>
    match slots with
    | [objects, contexts, root, pathConditions] => do
      return {
        objects := ← objects.required (identMap MemoryObject.read) d
        contexts := ← contexts.required (Table.read Context.read) d
        root := ← root.required ident d
        pathConditions := ← pathConditions.withDefault (list PathCondition.read) [] d }
    | _ => none

/-- The program that a text describes, as it is written there. -/
def ofText? (text : String) : Option Program := do read depthLimit (← Json.parse? text)

end Program

end ByteTrust
