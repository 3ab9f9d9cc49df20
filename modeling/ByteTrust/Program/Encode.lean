import ByteTrust.Json.Text
import ByteTrust.Program.Basic

/-!
# Programs as JSON

Every field is written, with `null` for what is missing, except the predecessors of a block: they
follow from the edges.
-/

namespace ByteTrust

open Json

/-- An identifier as JSON. -/
def Ident.json {κ : IdentKind} (i : Ident κ) : Json := .ofNat i.number

/-- A list of identifiers as JSON. -/
def Ident.jsonList {κ : IdentKind} (is : List (Ident κ)) : Json := .ofList Ident.json is

/-- An object keyed by identifiers. -/
def Ident.jsonMap {κ : IdentKind} {α : Type} (f : α → Json) (es : List (Ident κ × α)) : Json :=
  .obj (es.map fun e => (Nat.repr e.1.number, f e.2))

/-- The kind of an object as JSON. -/
def ObjectKind.json : ObjectKind → Json
  | .stack owner => .obj [("stack", .obj [("owner", owner.json)])]
  | .heap => .str "heap"
  | .global constant => .obj [("global", .obj [("constant", .bool constant)])]
  | .descriptor => .str "file_descriptor"

/-- A memory object as JSON. -/
def MemoryObject.json (o : MemoryObject) : Json :=
  .obj [("id", o.id.json), ("kind", o.kind.json), ("size", .ofOption .ofNat o.size),
    ("name", .ofOption .ofString o.name)]

/-- A pointer as JSON. -/
def Pointer.json (p : Pointer) : Json :=
  .obj [("object", p.object.json), ("offset", .ofInt p.offset)]

/-- A pointer operand as JSON. -/
def PointerValue.json : PointerValue → Json
  | .unknown => .str "unknown"
  | .null => .str "null"
  | .targets ps => .obj [("targets", .ofList Pointer.json ps)]

/-- A speculated value as JSON. -/
def SpecValue.json : SpecValue → Json
  | .scalar n => .obj [("scalar", .ofNat n)]
  | .pointer p => .obj [("pointer", p.json)]
  | .descriptor o => .obj [("descriptor", o.json)]

/-- A piece of a value as JSON. -/
def ValuePiece.json (p : ValuePiece) : Json :=
  .obj [("start", .ofNat p.start), ("stop", .ofNat p.stop),
    ("value", .ofOption SpecValue.json p.value)]

/-- A speculated result as JSON. -/
def ReadValue.json : ReadValue → Json
  | .unknown => .str "unknown"
  | .known v => .obj [("known", v.json)]
  | .pieces ps => .obj [("pieces", .ofList ValuePiece.json ps)]

/-- An access ordering as JSON. -/
def AccessOrdering.json : AccessOrdering → Json
  | .plain => .str "plain"
  | .ordered => .str "ordered"
  | .orderedSimple => .str "ordered_simple"

/-- The effect of a call as JSON. -/
def CallEffect.json : CallEffect → Json
  | .known => .str "known"
  | .unknown => .str "opaque"
  | .yields => .str "yield"

/-- What a call may reference, as JSON. -/
def RefSummary.json : RefSummary → Json
  | .unknown => .str "unknown"
  | .objects os => .obj [("objects", Ident.jsonList os)]

/-- A call as JSON. -/
def CallSite.json (c : CallSite) : Json :=
  .obj [("callee", .ofOption Ident.json c.callee), ("effect", c.effect.json),
    ("domain", .ofOption Ident.jsonList c.domain), ("pessimistic", .bool c.pessimistic),
    ("refs", c.refs.json), ("result", c.result.json)]

/-- An operation as JSON. -/
def Operation.json : Operation → Json
  | .load ptr size ordering result =>
    .obj [("load", .obj [("ptr", ptr.json), ("size", .ofNat size), ("ordering", ordering.json),
      ("result", result.json)])]
  | .store ptr size => .obj [("store", .obj [("ptr", ptr.json), ("size", .ofNat size)])]
  | .atomic ptr size ordering result =>
    .obj [("atomic", .obj [("ptr", ptr.json), ("size", .ofNat size),
      ("ordering", ordering.json), ("result", result.json)])]
  | .fence => .str "fence"
  | .memset dest len =>
    .obj [("memset", .obj [("dest", dest.json), ("len", .ofOption .ofNat len)])]
  | .memcpy dest src len copied =>
    .obj [("memcpy", .obj [("dest", dest.json), ("src", src.json),
      ("len", .ofOption .ofNat len), ("copied", .ofList ValuePiece.json copied)])]
  | .readFile dest size =>
    .obj [("read_file", .obj [("dest", dest.json), ("size", .ofOption .ofNat size)])]
  | .alloc object => .obj [("alloc", .obj [("object", object.json)])]
  | .realloc object source len copied =>
    .obj [("realloc", .obj [("object", object.json), ("source", source.json),
      ("len", .ofOption .ofNat len), ("copied", .ofList ValuePiece.json copied)])]
  | .free ptr => .obj [("free", .obj [("ptr", ptr.json)])]
  | .call site => .obj [("call", site.json)]
  | .phi value => .obj [("phi", .obj [("value", value.json)])]
  | .other => .str "other"

/-- A run-time check as JSON. -/
def RuntimeCheck.json : RuntimeCheck → Json
  | .none => .str "none"
  | .asExpected => .str "as_expected"
  | .fileRead => .str "read_lliowd"
  | .comparison => .str "read_memcmp"

/-- An instruction as JSON. -/
def Instr.json (i : Instr) : Json :=
  .obj [("id", i.id.json), ("kind", i.op.json), ("thread_local", .bool i.threadLocal),
    ("runtime_check", i.runtimeCheck.json), ("reached", .bool i.reached)]

/-- An edge as JSON. -/
def Successor.json (s : Successor) : Json :=
  .obj [("target", s.target.json), ("live", .bool s.live)]

/-- How a block ends, as JSON. -/
def Terminator.json : Terminator → Json
  | .branch => .str "branch"
  | .ret => .str "return"
  | .unreachable => .str "unreachable"

/-- A block as JSON, without its predecessors. -/
def Block.json (b : Block) : Json :=
  .obj [("id", b.id.json), ("insts", .ofList Instr.json b.insts),
    ("succs", .ofList Successor.json b.succs), ("terminator", b.terminator.json),
    ("certain", .bool b.certain)]

/-- A peel attempt as JSON. -/
def PeelAttempt.json (p : PeelAttempt) : Json :=
  .obj [("iterations", Ident.jsonList p.iterations), ("terminated", .bool p.terminated),
    ("materialized", .bool p.materialized)]

mutual

/-- A region as JSON. -/
def Region.json : Region → Json
  | .block id => .obj [("block", id.json)]
  | .loop info body =>
    .obj [("loop", .obj [("id", info.id.json), ("preheader", info.preheader.json),
      ("header", info.header.json), ("latch", info.latch.json),
      ("blocks", Ident.jsonList info.blocks.toList), ("body", .arr (Region.jsonAll body)),
      ("peel", .ofOption PeelAttempt.json info.peel)])]

/-- Regions as JSON. -/
def Region.jsonAll : List Region → List Json
  | [] => []
  | r :: rs => r.json :: Region.jsonAll rs

end

/-- The kind of a context as JSON. -/
def ContextKind.json : ContextKind → Json
  | .function f name callers =>
    .obj [("function", .obj [("function", f.json), ("name", .ofString name),
      ("callers", Ident.jsonList callers)])]
  | .iteration loop index header latch =>
    .obj [("iteration", .obj [("loop_id", loop.json), ("index", .ofNat index),
      ("header", header.json), ("latch", latch.json)])]

/-- A context as JSON. -/
def Context.json (c : Context) : Json :=
  .obj [("id", c.id.json), ("kind", c.kind.json), ("parent", .ofOption Ident.json c.parent),
    ("blocks", Ident.jsonMap Block.json c.blocks.entries),
    ("regions", .arr (Region.jsonAll c.regions)), ("entry", c.entry.json),
    ("materialized", .bool c.materialized)]

/-- What a path condition says, as JSON. -/
def PathFact.json : PathFact → Json
  | .bytes ptr offset len =>
    .obj [("bytes", .obj [("ptr", ptr.json), ("offset", .ofInt offset), ("len", .ofNat len)])]
  | .checker context => .obj [("function", .obj [("context", context.json)])]

/-- A path condition as JSON. -/
def PathCondition.json (c : PathCondition) : Json :=
  .obj [("function", c.function.json), ("block", c.block.json),
    ("stack_depth", .ofOption .ofNat c.stackDepth), ("kind", c.fact.json)]

/-- A program as JSON. -/
def Program.json (p : Program) : Json :=
  .obj [("objects", Ident.jsonMap MemoryObject.json p.objects.entries),
    ("contexts", Ident.jsonMap Context.json p.contexts.entries), ("root", p.root.json),
    ("path_conditions", .ofList PathCondition.json p.pathConditions)]

end ByteTrust
