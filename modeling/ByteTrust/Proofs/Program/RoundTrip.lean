import ByteTrust.Command
import ByteTrust.Proofs.Program.Link
import ByteTrust.Proofs.Program.Restores

/-!
# Programs are read back

A program that was read from a text and linked is written as a text from which it is read and
linked again, the same in everything (`Program.load_compact`).

Predecessors are not written, and linking fills them in again (`Program.link_bare`). The one part
that nests without a bound is a loop, and it is written with as many levels as it was read with: a
loop takes three levels, so the levels left for a list of regions are a multiple of three, and
where a loop fits at all its blocks and its body fit too (`Region.reads`).
-/

namespace ByteTrust

open Json Json.Decode

/-! ## Blocks and regions -/

theorem Successor.restores : Restores Successor.read Successor.json 1 :=
  Restores.record
    [.required "target" Restores.ident le_rfl,
      .withDefault "live" Restores.bool le_rfl (gives_bool _)]
    Successor.mk ⟨rfl, rfl, fun _ _ _ => rfl⟩ (fun _ _ => rfl) fun s => ⟨s.target, s.live, rfl⟩

theorem Terminator.restores : Restores Terminator.read Terminator.json 0 :=
  Restores.oneOf rfl fun
    | .branch => ⟨("branch", .branch), by decide, rfl, rfl⟩
    | .ret => ⟨("return", .ret), by decide, rfl, rfl⟩
    | .unreachable => ⟨("unreachable", .unreachable), by decide, rfl, rfl⟩

namespace Block

theorem written_json (b : Block) : b.json.Written := by
  refine written_record ["id", "insts", "succs", "terminator", "certain"] rfl rfl ?_
  simpa using ⟨Restores.ident.written b.id, Instr.restores.list.written b.insts,
    Successor.restores.list.written b.succs, Terminator.restores.written b.terminator,
    Restores.bool.written b.certain⟩

/-- The predecessors of a block are not written. -/
theorem slots_json (b : Block) :
    slots ["id", "insts", "succs", "preds", "terminator", "certain"] b.json =
      some [.given b.id.json, .given (.ofList Instr.json b.insts),
        .given (.ofList Successor.json b.succs), .omitted, .given b.terminator.json,
        .given (.bool b.certain)] := by
  rw [json, slots, resolveKeys_of_isPlain]
  · simp [slotOf, valuesOf]
  · simp only [List.forall_mem_cons]
    exact ⟨rfl, rfl, rfl, rfl, rfl, List.forall_mem_nil _⟩

theorem readsAs {b : Block} (h : Block.read.Gives b) :
    ReadsAs Block.read 10 b.json { b with preds := [] } := by
  obtain ⟨d, j, h⟩ := h
  obtain ⟨d, ss, -, -, h⟩ := record_eq_some h
  split at h
  · simp only [Option.bind_eq_bind, Option.bind_eq_some_iff, Option.pure_def,
      Option.some.injEq] at h
    obtain ⟨id, hid, insts, hinsts, succs, hsuccs, preds, -, terminator, hterm, certain, hcertain,
      rfl⟩ := h
    intro e he
    obtain ⟨e, rfl⟩ := Nat.exists_eq_add_of_le' he
    have hbranch : Terminator.read.Gives .branch := ⟨0, .str "branch", rfl⟩
    have homitted : Decode.Slot.omitted.withDefault (list (ident (κ := .block))) [] (e + 9) =
        some [] := rfl
    rw [Block.read, record, slots_json]
    simp [Restores.ident.required hid (Nat.zero_le _),
      Instr.restores.list.withDefault (gives_nil _) hinsts (Nat.le_add_left 9 e),
      Successor.restores.list.withDefault (gives_nil _) hsuccs
        (Nat.le_trans (by decide) (Nat.le_add_left 9 e)),
      Terminator.restores.withDefault hbranch hterm (Nat.zero_le _),
      Restores.bool.withDefault (gives_bool _) hcertain (Nat.zero_le _), homitted]
  · cases h

end Block

theorem PeelAttempt.restores : Restores PeelAttempt.read PeelAttempt.json 2 :=
  Restores.record
    [.required "iterations" Restores.identList le_rfl,
      .required "terminated" Restores.bool (by decide),
      .withDefault "materialized" Restores.bool (by decide) (gives_bool _)]
    PeelAttempt.mk ⟨rfl, rfl, fun _ _ _ _ => rfl⟩ (fun _ _ _ => rfl)
    fun p => ⟨p.iterations, p.terminated, p.materialized, rfl⟩

/-- The iterations of a peel attempt must be listed, so two levels are needed to read it. -/
theorem PeelAttempt.two_le {d : Nat} {j : Json} {p : PeelAttempt}
    (h : PeelAttempt.read d j = some p) : 2 ≤ d := by
  obtain ⟨d, ss, rfl, -, hss⟩ := record_eq_some h
  split at hss
  · obtain ⟨is, his, -⟩ := Option.bind_eq_some_iff.1 hss
    obtain ⟨v, hv⟩ := required_eq_some his
    obtain ⟨d, rfl, -⟩ := list_eq_some hv
    omega
  · cases hss

/-- What a loop says of its peel attempt is read back with the levels that it was read with. -/
theorem PeelAttempt.reads {d : Nat} {s : Decode.Slot} {peel : Option PeelAttempt}
    (h : s.withDefault (option PeelAttempt.read) none d = some peel) :
    option PeelAttempt.read d (.ofOption PeelAttempt.json peel) = some peel := by
  cases peel with
  | none => rfl
  | some p =>
    have hdepth : 2 ≤ d := by
      cases s with
      | given v =>
        cases v with
        | null => cases h
        | _ =>
          obtain ⟨q, hq, -⟩ := Option.map_eq_some_iff.1 h
          exact two_le hq
      | _ => cases h
    exact (restores.option nofun).reads (gives_of_withDefault (gives_none _) h) d hdepth

namespace Region

theorem jsonAll_eq_map (rs : List Region) : jsonAll rs = rs.map json := by
  induction rs with
  | nil => rfl
  | cons r rs ih => rw [jsonAll, ih, List.map_cons]

mutual

theorem written_json : ∀ r : Region, r.json.Written
  | .block b => written_tagged rfl (Restores.ident.written b)
  | .loop info body => by
    have hbody : (Json.arr (jsonAll body)).Written := .arr (written_jsonAll body)
    refine written_tagged rfl (written_record
      ["id", "preheader", "header", "latch", "blocks", "body", "peel"] rfl rfl ?_)
    simpa using ⟨Restores.ident.written info.id, Restores.ident.written info.preheader,
      Restores.ident.written info.header, Restores.ident.written info.latch,
      Restores.identSet.written info.blocks, hbody,
      (PeelAttempt.restores.option nofun).written info.peel⟩

theorem written_jsonAll : ∀ rs : List Region, ∀ v ∈ jsonAll rs, v.Written
  | [] => nofun
  | r :: rs => List.forall_mem_cons.2 ⟨written_json r, written_jsonAll rs⟩

end

theorem reads_block {d : Nat} {b : BlockId} (h : ident.Gives b) :
    read (d + 2) (block b).json = some (block b) := by
  have htag : unescape? "block" = some "block" := unescape?_of_isPlain rfl
  unfold read
  simp only [json, htag, Restores.ident.reads h (d + 1) (Nat.zero_le _), Option.map_some]

theorem reads_loop {d : Nat} {info : Loop} {body : List Region} (hid : ident.Gives info.id)
    (hpreheader : ident.Gives info.preheader) (hheader : ident.Gives info.header)
    (hlatch : ident.Gives info.latch) (hblocks : identSet.Gives info.blocks)
    (hpeel : option PeelAttempt.read (d + 1) (.ofOption PeelAttempt.json info.peel) =
      some info.peel)
    (hbody : ∀ r ∈ body, read d r.json = some r) :
    read (d + 3) (loop info body).json = some (loop info body) := by
  have htag : unescape? "loop" = some "loop" := unescape?_of_isPlain rfl
  have hlist : (jsonAll body).mapM (read d) = some body := by
    rw [jsonAll_eq_map]
    exact list_ofList hbody
  unfold read
  simp only [json, htag]
  rw [slots_obj]
  · simp only [List.map_cons, List.map_nil, Decode.Slot.required, Decode.Slot.withDefault,
      Restores.ident.reads hid (d + 1) (Nat.zero_le _),
      Restores.ident.reads hpreheader (d + 1) (Nat.zero_le _),
      Restores.ident.reads hheader (d + 1) (Nat.zero_le _),
      Restores.ident.reads hlatch (d + 1) (Nat.zero_le _),
      Restores.identSet.reads hblocks (d + 1) (Nat.le_add_left 1 d), hpeel, hlist,
      Option.bind_eq_bind, Option.bind_some, Option.pure_def]
  · rfl
  · rfl

/-- The levels of a region in the list of a context are a multiple of three, and stay so in every
loop body. With three levels left there is room for the empty list of a missing body. -/
theorem reads {m : Nat} {j : Json} {r : Region} (h : read (3 * m) j = some r) :
    read (3 * m) r.json = some r := by
  induction m generalizing j r with
  | zero => cases h
  | succ m ih =>
    rw [show 3 * (m + 1) = 3 * m + 3 from rfl] at h ⊢
    unfold read at h
    split at h
    · next n k v hn =>
      obtain rfl : n = 3 * m + 2 := by omega
      split at h
      · obtain ⟨b, hb, rfl⟩ := Option.map_eq_some_iff.1 h
        exact reads_block ⟨_, _, hb⟩
      · simp only at h
        split at h
        · simp only [Option.bind_eq_bind, Option.bind_eq_some_iff, Option.pure_def] at h
          obtain ⟨id, hid, preheader, hpreheader, header, hheader, latch, hlatch, blocks, hblocks,
            peel, hpeel, h⟩ := h
          have hnone : (identSet (κ := .block)).Gives ∅ := ⟨1, .arr [], rfl⟩
          have hloop {body : List Region} (hbody : ∀ r ∈ body, read (3 * m) r.json = some r) :
              read (3 * m + 3) (loop ⟨id, preheader, header, latch, blocks, peel⟩ body).json =
                some (loop ⟨id, preheader, header, latch, blocks, peel⟩ body) :=
            reads_loop (gives_of_required hid) (gives_of_required hpreheader)
              (gives_of_required hheader) (gives_of_required hlatch)
              (gives_of_withDefault hnone hblocks) (PeelAttempt.reads hpeel) hbody
          split at h
          · next l items hl _ =>
            obtain rfl : l = 3 * m := by omega
            obtain ⟨body, hbody, hr⟩ := Option.bind_eq_some_iff.1 h
            cases hr
            exact hloop fun r hr => by
              obtain ⟨v, -, hv⟩ := exists_source hbody hr
              exact ih hv
          · cases h
          · cases h
            exact hloop nofun
        · cases h
      · cases h
    · cases h

end Region

/-! ## Contexts and path conditions -/

theorem ContextKind.restores : Restores ContextKind.read ContextKind.json 3 where
  written
    | .function f name callers => written_tagged rfl <|
      written_record ["function", "name", "callers"] rfl rfl <| by
        simpa using ⟨Restores.ident.written f, Restores.text.written name,
          Restores.identList.written callers⟩
    | .iteration loop index header latch => written_tagged rfl <|
      written_record ["loop_id", "index", "header", "latch"] rfl rfl <| by
        simpa using ⟨Restores.ident.written loop, (Restores.natBelow 0).written index,
          Restores.ident.written header, Restores.ident.written latch⟩
  reads := by
    rintro kind ⟨d, j, h⟩
    obtain ⟨d, name, content, h⟩ := choice_eq_some h
    split at h
    · exact readsAs_tagged_record h
        [.required "function" Restores.ident (by decide),
          .required "name" Restores.text (by decide),
          .withDefault "callers" Restores.identList le_rfl (gives_nil _)] ContextKind.function
        ⟨rfl, rfl, fun _ _ _ _ => rfl⟩ rfl (fun _ _ => rfl) fun _ _ _ => rfl
    · exact readsAs_tagged_record h
        [.required "loop_id" Restores.ident (by decide),
          .required "index" (Restores.natBelow _) (by decide),
          .required "header" Restores.ident (by decide),
          .required "latch" Restores.ident (by decide)] ContextKind.iteration
        ⟨rfl, rfl, fun _ _ _ _ _ => rfl⟩ rfl (fun _ _ => rfl) fun _ _ _ _ => rfl
    · cases h

theorem PathFact.restores : Restores PathFact.read PathFact.json 5 where
  written
    | .bytes ptr offset len => written_tagged rfl <|
      written_record ["ptr", "offset", "len"] rfl rfl <| by
        simpa using ⟨PointerValue.restores.written ptr, Restores.offset.written offset,
          Restores.size.written len⟩
    | .checker context => written_tagged rfl <|
      written_record ["context"] rfl rfl <| by simpa using Restores.ident.written context
  reads := by
    rintro fact ⟨d, j, h⟩
    obtain ⟨d, name, content, h⟩ := choice_eq_some h
    split at h
    · exact readsAs_tagged_record h
        [.required "ptr" PointerValue.restores le_rfl,
          .withDefault "offset" Restores.offset (by decide) ⟨0, .num "0", rfl⟩,
          .required "len" Restores.size (by decide)] PathFact.bytes
        ⟨rfl, rfl, fun _ _ _ _ => rfl⟩ rfl (fun _ _ => rfl) fun _ _ _ => rfl
    · exact readsAs_tagged_record h [.required "context" Restores.ident (by decide)]
        PathFact.checker ⟨rfl, rfl, fun _ _ => rfl⟩ rfl (fun _ _ => rfl) fun _ => rfl
    · cases h

theorem PathCondition.restores : Restores PathCondition.read PathCondition.json 6 :=
  Restores.record
    [.required "function" Restores.ident (by decide), .required "block" Restores.ident (by decide),
      .withDefault "stack_depth" (Restores.natOption _) (by decide) (gives_none _),
      .required "kind" PathFact.restores le_rfl]
    PathCondition.mk ⟨rfl, rfl, fun _ _ _ _ _ => rfl⟩ (fun _ _ _ _ => rfl)
    fun c => ⟨c.function, c.block, c.stackDepth, c.fact, rfl⟩

/-! ## Tables of contexts and blocks -/

namespace Table

variable {α β : Type} {κ : IdentKind} {r : Reader α} {d : Nat}

theorem read_eq_some {j : Json} {t : Table (Ident κ) α} (h : Table.read r d j = some t) :
    ∃ c, d = c + 1 ∧ ∀ e ∈ t.entries, e.1.number < Ident.bound ∧ ∃ v, r c v = some e.2 := by
  obtain ⟨es, hes, rfl⟩ := Option.map_eq_some_iff.1 h
  obtain ⟨c, hc, hentries⟩ := keyed_eq_some hes
  exact ⟨c, hc, fun e he => hentries e (mem_of_mem_ofList he)⟩

/-- A written table is read back in its order. -/
theorem read_jsonMap {write : β → Json} {f : β → α} {t : Table (Ident κ) β}
    (h : ∀ e ∈ t.entries, e.1.number < Ident.bound ∧ r d (write e.2) = some (f e.2)) :
    Table.read r (d + 1) (Ident.jsonMap write t.entries) = some (t.mapValues fun _ => f) := by
  rw [Table.read, keyed_jsonMap h, Option.map_some]
  exact congrArg some (ofList_entries (t.mapValues fun _ => f))

end Table

/-! ## Contexts -/

/-- The context without predecessors of its blocks. -/
def Context.bare (c : Context) : Context := c.dress c.materialized fun b => (b.succs, [])

namespace Context

variable {c : Context}

theorem written_json (c : Context) : c.json.Written := by
  refine written_record ["id", "kind", "parent", "blocks", "regions", "entry", "materialized"]
    rfl rfl ?_
  have hregions : (Json.arr (Region.jsonAll c.regions)).Written :=
    .arr (Region.written_jsonAll c.regions)
  simpa using ⟨Restores.ident.written c.id, ContextKind.restores.written c.kind,
    Restores.identOption.written c.parent, written_jsonMap Block.written_json, hregions,
    Restores.ident.written c.entry, Restores.bool.written c.materialized⟩

section

variable {flag : Bool} {edges : Block → List Successor × List BlockId}
  (h : ∀ b, (edges b).1 = b.succs)

include h

/-- Predecessors are not written. -/
theorem json_dress : (c.dress flag edges).json = { c with materialized := flag }.json := by
  have hblock (b : Block) : (b.dress edges).json = b.json := by simp [Block.json, Block.dress, h]
  simp [json, dress, Table.mapValues, Ident.jsonMap, hblock]

theorem bare_dress : (c.dress flag edges).bare = { c with materialized := flag }.bare := by
  simp only [bare, dress, Table.mapValues_mapValues, Block.dress, h]
  rfl

end

/-- A context is read back without predecessors, whatever its flag. -/
theorem reads {j : Json} (h : Context.read 125 j = some c) (flag : Bool) :
    Context.read 125 { c with materialized := flag }.json =
      some { c with materialized := flag }.bare := by
  obtain ⟨d, ss, hd, -, h⟩ := record_eq_some h
  obtain rfl : d = 124 := by omega
  split at h
  · simp only [Option.bind_eq_bind, Option.bind_eq_some_iff, Option.pure_def,
      Option.some.injEq] at h
    obtain ⟨id, hid, kind, hkind, parent, hparent, blocks, hblocks, regions, hregions, entry,
      hentry, materialized, -, rfl⟩ := h
    have htable : (Decode.Slot.given (Ident.jsonMap Block.json blocks.entries)).required
        (Table.read Block.read) 124 =
          some (blocks.mapValues fun _ => Block.dress fun b => (b.succs, [])) := by
      obtain ⟨v, hv⟩ := required_eq_some hblocks
      obtain ⟨d, hd, hentries⟩ := Table.read_eq_some hv
      refine Table.read_jsonMap fun e he => ⟨(hentries e he).1, ?_⟩
      exact Block.readsAs ⟨d, (hentries e he).2⟩ 123 (by decide)
    have hlist : (Decode.Slot.given (.arr (Region.jsonAll regions))).required (list Region.read)
        124 = some regions := by
      obtain ⟨v, hv⟩ := required_eq_some hregions
      obtain ⟨d, hd, hregion⟩ := list_eq_some hv
      obtain rfl : d = 3 * 41 := by omega
      rw [Region.jsonAll_eq_map]
      exact list_ofList fun r hr => by
        obtain ⟨v, hv⟩ := hregion r hr
        exact Region.reads hv
    have hflag : (Decode.Slot.given (.bool flag)).withDefault Decode.bool true 124 = some flag :=
      rfl
    rw [Context.read, record, json, slots_obj]
    · simp [Restores.ident.required hid (Nat.zero_le 124),
        ContextKind.restores.required hkind (show 3 ≤ 124 by decide),
        Restores.identOption.withDefault (gives_none _) hparent (Nat.zero_le 124), htable,
        hlist, Restores.ident.required hentry (Nat.zero_le 124), hflag, bare, dress]
    · rfl
    · rfl
  · cases h

end Context

/-! ## Programs -/

/-- The program without predecessors of its blocks. -/
def Program.bare (p : Program) : Program :=
  p.dress (fun _ c => c.materialized) fun _ _ b => (b.succs, [])

namespace Program

variable {p q : Program} {l : Layout}

theorem written_json (p : Program) : p.json.Written := by
  refine written_record ["objects", "contexts", "root", "path_conditions"] rfl rfl ?_
  simpa using ⟨MemoryObject.restores.identMap.written p.objects,
    written_jsonMap Context.written_json, Restores.ident.written p.root,
    PathCondition.restores.list.written p.pathConditions⟩

/-- With other flags and predecessors, a program is read back without predecessors. -/
theorem reads {j : Json} (h : Program.read 127 j = some p) {flag : ContextId → Context → Bool}
    {edges : ContextId → Context → Block → List Successor × List BlockId}
    (hedges : ∀ k c b, (edges k c b).1 = b.succs) :
    Program.read 127 (p.dress flag edges).json = some (p.dress flag edges).bare := by
  obtain ⟨d, ss, hd, -, h⟩ := record_eq_some h
  obtain rfl : d = 126 := by omega
  split at h
  · simp only [Option.bind_eq_bind, Option.bind_eq_some_iff, Option.pure_def,
      Option.some.injEq] at h
    obtain ⟨objects, hobjects, contexts, hcontexts, root, hroot, conditions, hconditions, rfl⟩ := h
    have htable : (Decode.Slot.given (Ident.jsonMap Context.json
        (contexts.mapValues fun k c => c.dress (flag k c) (edges k c)).entries)).required
        (Table.read Context.read) 126 = some ((contexts.mapValues fun k c =>
          c.dress (flag k c) (edges k c)).mapValues fun _ => Context.bare) := by
      obtain ⟨v, hv⟩ := required_eq_some hcontexts
      obtain ⟨d, hd, hentries⟩ := Table.read_eq_some hv
      obtain rfl : d = 125 := by omega
      refine Table.read_jsonMap fun e he => ?_
      obtain ⟨⟨k, c⟩, hc, rfl⟩ := List.mem_map.1 he
      obtain ⟨hbound, v, hv⟩ := hentries (k, c) hc
      refine ⟨hbound, ?_⟩
      rw [Context.json_dress (hedges k c), Context.reads hv, Context.bare_dress (hedges k c)]
    rw [Program.read, record, json, slots_obj]
    · simp [MemoryObject.restores.identMap.required hobjects (show 4 ≤ 126 by decide), dress,
        htable, Restores.ident.required hroot (Nat.zero_le 126),
        PathCondition.restores.list.withDefault (gives_nil _) hconditions (show 7 ≤ 126 by decide),
        bare]
      rfl
    · rfl
    · rfl
  · cases h

/-! ### Linking again -/

theorem bare_withPreds : (p.withPreds l).bare = p.bare := by
  rw [withPreds_eq_dress, bare, bare]
  simp only [dress, Context.dress, Table.mapValues_mapValues]
  rfl

theorem edges_bare : p.bare.edges l = p.edges l := by
  simp only [edges, bare, dress, Context.dress, Block.dress, Table.values, Table.mapValues,
    List.map_map, List.flatMap_map, Function.comp_def]

theorem withPreds_bare : p.bare.withPreds l = p.withPreds l := by
  simp only [withPreds, edges_bare]
  simp only [bare, isTaken_dress]
  simp only [dress, Context.dress, Block.dress, Table.mapValues_mapValues]
  rfl

/-- Flags are inherited once and for all. -/
theorem inheritFlags_inheritFlags : p.inheritFlags.inheritFlags = p.inheritFlags := by
  have hhidden : p.inheritFlags.hiddenIterations = p.hiddenIterations := by
    rw [inheritFlags_eq_dress, hiddenIterations_dress]
  rw [inheritFlags, hhidden]
  simp only [inheritFlags, Table.mapValues_mapValues]
  congr 2
  funext k c
  split <;> rfl

/-- What linking fills in follows from the rest. -/
theorem link_bare (h : q.link = .ok p) : p.bare.link = .ok p := by
  obtain ⟨hnames, l, hl, rfl, hshape⟩ := link_iff.1 h
  have hflags : (q.inheritFlags.withPreds l).bare.inheritFlags = q.inheritFlags.bare := by
    rw [bare_withPreds, bare, inheritFlags_dress, inheritFlags_inheritFlags]
  refine link_iff.2 ⟨?_, l, ?_, ?_, hshape⟩
  · rw [bare, checkNames_dress, withPreds_eq_dress, checkNames_dress, inheritFlags_eq_dress,
      checkNames_dress, hnames]
  · rw [hflags, bare, Layout.ofProgram_dress, hl]
  · rw [hflags, withPreds_bare]

/-- Linking changes flags and predecessors only. -/
theorem link_eq_dress (h : q.link = .ok p) : ∃ flag edges, p = q.dress flag edges ∧
    ∀ k c b, (edges k c b).1 = b.succs := by
  obtain ⟨-, l, -, rfl, -⟩ := link_iff.1 h
  rw [withPreds_eq_dress, inheritFlags_eq_dress, dress_dress]
  exact ⟨_, _, rfl, fun _ _ _ => rfl⟩

theorem load_eq_ok {text : String} :
    load text = .ok p ↔ ∃ q, ofText? text = some q ∧ q.link = .ok p := by
  rw [load]
  cases ofText? text with
  | none => simp
  | some q => cases hq : q.link <;> simp [hq]

/-- **Round trip.** A program that was read from a text and linked is written as a text that is
read and linked to the same program. -/
theorem load_compact {text : String} (h : load text = .ok p) : load p.json.compact = .ok p := by
  obtain ⟨q, hq, hlink⟩ := load_eq_ok.1 h
  obtain ⟨j, -, hread⟩ := Option.bind_eq_some_iff.1 hq
  obtain ⟨flag, edges, hdress, hedges⟩ := link_eq_dress hlink
  have hbare : ofText? p.json.compact = some p.bare := by
    rw [ofText?, parse?_compact (written_json p), hdress]
    exact reads hread hedges
  exact load_eq_ok.2 ⟨p.bare, hbare, link_bare hlink⟩

/-- A text that leaves out what it can, lists a block as a predecessor that is none, and has a loop
whose unrolled iteration is not emitted. -/
def sparse : String :=
  "\x7b\"objects\": \x7b\x7d, \"contexts\": \x7b\"7\": \x7b\"id\": 7,
    \"kind\": \x7b\"function\": [0, \"m\\u0061in\"]\x7d,
    \"blocks\": \x7b\"4\": \x7b\"id\": 4, \"succs\": [[2]], \"preds\": [9]\x7d,
    \"2\": \x7b\"id\": 2, \"succs\": [[2, false], [9]]\x7d,
    \"9\": \x7b\"id\": 9, \"terminator\": \"return\"\x7d\x7d,
    \"regions\": [\x7b\"block\": 4\x7d,
    \x7b\"loop\": [0, 4, 2, 2, [2], [\x7b\"block\": 2\x7d], [[5], false, false]]\x7d,
    \x7b\"block\": 9\x7d], \"entry\": 4\x7d,
    \"5\": \x7b\"id\": 5, \"kind\": \x7b\"iteration\": [0, 0, 1, 1]\x7d, \"parent\": 7,
    \"blocks\": \x7b\"1\": \x7b\"id\": 1, \"succs\": [[1]]\x7d\x7d,
    \"regions\": [\x7b\"block\": 1\x7d], \"entry\": 1\x7d\x7d, \"root\": 7\x7d"

/-- The contexts in their order, each with its flag and the predecessors of its blocks. -/
def outline (p : Program) : List (ContextId × Bool × List (List BlockId)) :=
  p.contexts.entries.map fun e => (e.1, e.2.materialized, e.2.blocks.values.map Block.preds)

theorem load_compact_sparse : ∃ p, load sparse = .ok p ∧
    p.outline = [(⟨7⟩, true, [[], [⟨4⟩, ⟨2⟩], [⟨2⟩]]), (⟨5⟩, false, [[⟨1⟩]])] ∧
    load p.json.compact = .ok p := by
  have houtline : ((ofText? sparse).bind fun q => q.link.toOption).map outline =
      some [(⟨7⟩, true, [[], [⟨4⟩, ⟨2⟩], [⟨2⟩]]), (⟨5⟩, false, [[⟨1⟩]])] := by
    rw [ofText?, parse?, tokens?, sparse, String.toList_ofList]
    decide +kernel
  obtain ⟨p, hp, houtline⟩ := Option.map_eq_some_iff.1 houtline
  obtain ⟨q, hq, hlink⟩ := Option.bind_eq_some_iff.1 hp
  have hload : load sparse = .ok p := by
    refine load_eq_ok.2 ⟨q, hq, ?_⟩
    cases hr : q.link with
    | error fault =>
      rw [hr] at hlink
      cases hlink
    | ok p' =>
      rw [hr] at hlink
      cases hlink
      rfl
  exact ⟨p, hload, houtline, load_compact hload⟩

end Program

end ByteTrust
