import ByteTrust.Proofs.Json.Restores
import ByteTrust.Program.Decode

/-!
# Objects and instructions are read back

Objects, values and instructions nest to a fixed depth, so each of their readers restores what is
written with a fixed number of levels left.
-/

namespace ByteTrust

open Json Json.Decode

/-! ## Objects and values -/

theorem ObjectKind.restores : Restores ObjectKind.read ObjectKind.json 2 where
  written
    | .stack owner => written_tagged rfl <|
      written_record ["owner"] rfl rfl (by simpa using Restores.ident.written owner)
    | .heap => written_name rfl
    | .global constant => written_tagged rfl <|
      written_record ["constant"] rfl rfl
        (by simpa using Restores.bool.written constant)
    | .descriptor => written_name rfl
  reads := by
    rintro kind ⟨d, j, h⟩
    obtain ⟨d, name, content, h⟩ := choice_eq_some h
    split at h
    · exact readsAs_tagged_record h [.required "owner" Restores.ident le_rfl] ObjectKind.stack
        ⟨rfl, rfl, fun _ _ => rfl⟩ rfl (fun _ _ => rfl) fun _ => rfl
    · obtain rfl := bare_eq_some h
      exact (readsAs_name rfl fun _ => rfl).mono (by decide)
    · exact readsAs_tagged_record h [.required "constant" Restores.bool le_rfl] ObjectKind.global
        ⟨rfl, rfl, fun _ _ => rfl⟩ rfl (fun _ _ => rfl) fun _ => rfl
    · obtain rfl := bare_eq_some h
      exact (readsAs_name rfl fun _ => rfl).mono (by decide)
    · cases h

theorem MemoryObject.restores : Restores MemoryObject.read MemoryObject.json 3 :=
  Restores.record
    [.required "id" Restores.ident (by decide), .required "kind" ObjectKind.restores le_rfl,
      .optional "size" Restores.size (by decide) nofun,
      .withDefault "name" Restores.textOption (by decide) (gives_none _)]
    MemoryObject.mk ⟨rfl, rfl, fun _ _ _ _ _ => rfl⟩ (fun _ _ _ _ => rfl)
    fun o => ⟨o.id, o.kind, o.size, o.name, rfl⟩

theorem Pointer.restores : Restores Pointer.read Pointer.json 1 :=
  Restores.record
    [.required "object" Restores.ident le_rfl, .required "offset" Restores.offset le_rfl]
    Pointer.mk ⟨rfl, rfl, fun _ _ _ => rfl⟩ (fun _ _ => rfl) fun p => ⟨p.object, p.offset, rfl⟩

theorem PointerValue.restores : Restores PointerValue.read PointerValue.json 3 where
  written
    | .unknown => written_name rfl
    | .null => written_name rfl
    | .targets ps => written_tagged rfl (Pointer.restores.list.written ps)
  reads := by
    rintro v ⟨d, j, h⟩
    obtain ⟨d, name, content, h⟩ := choice_eq_some h
    split at h
    · obtain rfl := bare_eq_some h
      exact (readsAs_name rfl fun _ => rfl).mono (by decide)
    · obtain rfl := bare_eq_some h
      exact (readsAs_name rfl fun _ => rfl).mono (by decide)
    · obtain ⟨ps, hps, rfl⟩ := Option.map_eq_some_iff.1 h
      exact readsAs_tagged rfl
        ((Pointer.restores.list.reads ⟨_, _, hps⟩).map PointerValue.targets)
    · cases h

theorem SpecValue.restores : Restores SpecValue.read SpecValue.json 2 where
  written
    | .scalar n => written_tagged rfl (Restores.size.written n)
    | .pointer p => written_tagged rfl (Pointer.restores.written p)
    | .descriptor o => written_tagged rfl (Restores.ident.written o)
  reads := by
    rintro v ⟨d, j, h⟩
    obtain ⟨d, name, content, h⟩ := choice_eq_some h
    split at h
    · obtain ⟨n, hn, rfl⟩ := Option.map_eq_some_iff.1 h
      exact (readsAs_tagged rfl
        ((Restores.size.reads ⟨_, _, hn⟩).map SpecValue.scalar)).mono (by decide)
    · obtain ⟨p, hp, rfl⟩ := Option.map_eq_some_iff.1 h
      exact readsAs_tagged rfl
        ((Pointer.restores.reads ⟨_, _, hp⟩).map SpecValue.pointer)
    · obtain ⟨o, ho, rfl⟩ := Option.map_eq_some_iff.1 h
      exact (readsAs_tagged rfl
        ((Restores.ident.reads ⟨_, _, ho⟩).map SpecValue.descriptor)).mono (by decide)
    · cases h

theorem SpecValue.json_ne_null (v : SpecValue) : v.json ≠ .null := by cases v <;> nofun

theorem ValuePiece.restores : Restores ValuePiece.read ValuePiece.json 3 :=
  Restores.record
    [.required "start" Restores.size (by decide), .required "stop" Restores.size (by decide),
      .optional "value" SpecValue.restores le_rfl SpecValue.json_ne_null]
    ValuePiece.mk ⟨rfl, rfl, fun _ _ _ _ => rfl⟩ (fun _ _ _ => rfl)
    fun p => ⟨p.start, p.stop, p.value, rfl⟩

theorem ReadValue.restores : Restores ReadValue.read ReadValue.json 5 where
  written
    | .unknown => written_name rfl
    | .known v => written_tagged rfl (SpecValue.restores.written v)
    | .pieces ps => written_tagged rfl (ValuePiece.restores.list.written ps)
  reads := by
    rintro v ⟨d, j, h⟩
    obtain ⟨d, name, content, h⟩ := choice_eq_some h
    split at h
    · obtain rfl := bare_eq_some h
      exact (readsAs_name rfl fun _ => rfl).mono (by decide)
    · obtain ⟨v, hv, rfl⟩ := Option.map_eq_some_iff.1 h
      exact (readsAs_tagged rfl
        ((SpecValue.restores.reads ⟨_, _, hv⟩).map ReadValue.known)).mono (by decide)
    · obtain ⟨ps, hps, rfl⟩ := Option.map_eq_some_iff.1 h
      exact readsAs_tagged rfl
        ((ValuePiece.restores.list.reads ⟨_, _, hps⟩).map ReadValue.pieces)
    · cases h

theorem ReadValue.gives_unknown : ReadValue.read.Gives .unknown := ⟨0, .str "unknown", rfl⟩

/-! ## Instructions -/

theorem AccessOrdering.restores : Restores AccessOrdering.read AccessOrdering.json 0 :=
  Restores.oneOf rfl fun
    | .plain => ⟨("plain", .plain), by decide, rfl, rfl⟩
    | .ordered => ⟨("ordered", .ordered), by decide, rfl, rfl⟩
    | .orderedSimple => ⟨("ordered_simple", .orderedSimple), by decide, rfl, rfl⟩

theorem CallEffect.restores : Restores CallEffect.read CallEffect.json 0 :=
  Restores.oneOf rfl fun
    | .known => ⟨("known", .known), by decide, rfl, rfl⟩
    | .unknown => ⟨("opaque", .unknown), by decide, rfl, rfl⟩
    | .yields => ⟨("yield", .yields), by decide, rfl, rfl⟩

theorem RefSummary.restores : Restores RefSummary.read RefSummary.json 2 where
  written
    | .unknown => written_name rfl
    | .objects os => written_tagged rfl (Restores.identList.written os)
  reads := by
    rintro v ⟨d, j, h⟩
    obtain ⟨d, name, content, h⟩ := choice_eq_some h
    split at h
    · obtain rfl := bare_eq_some h
      exact (readsAs_name rfl fun _ => rfl).mono (by decide)
    · obtain ⟨os, hos, rfl⟩ := Option.map_eq_some_iff.1 h
      exact readsAs_tagged rfl
        ((Restores.identList.reads ⟨_, _, hos⟩).map RefSummary.objects)
    · cases h

theorem RefSummary.gives_unknown : RefSummary.read.Gives .unknown := ⟨0, .str "unknown", rfl⟩

theorem CallSite.restores : Restores CallSite.read CallSite.json 6 := by
  have hknown : CallEffect.read.Gives .known := ⟨0, .str "known", rfl⟩
  exact Restores.record
    [.withDefault "callee" Restores.identOption (by decide) (gives_none _),
      .withDefault "effect" CallEffect.restores (by decide) hknown,
      .withDefault "domain" (Restores.identList.option nofun) (by decide) (gives_none _),
      .withDefault "pessimistic" Restores.bool (by decide) (gives_bool _),
      .withDefault "refs" RefSummary.restores (by decide) RefSummary.gives_unknown,
      .withDefault "result" ReadValue.restores le_rfl ReadValue.gives_unknown]
    CallSite.mk ⟨rfl, rfl, fun _ _ _ _ _ _ _ => rfl⟩ (fun _ _ _ _ _ _ => rfl)
    fun c => ⟨c.callee, c.effect, c.domain, c.pessimistic, c.refs, c.result, rfl⟩

namespace Operation

/-- The fields of an access. -/
def accessFields : List (RecordField 5) :=
  [.required "ptr" PointerValue.restores (by decide), .required "size" Restores.size (by decide),
    .withDefault "ordering" AccessOrdering.restores (by decide) ⟨0, .str "plain", rfl⟩,
    .withDefault "result" ReadValue.restores le_rfl ReadValue.gives_unknown]

/-- The fields of a write of a length that may be unknown. -/
def fillFields (lengthName : String) : List (RecordField 5) :=
  [.required "dest" PointerValue.restores (by decide),
    .optional lengthName Restores.size (by decide) nofun]

/-- The last fields of a copy. -/
def copiedFields : List (RecordField 5) :=
  [.optional "len" Restores.size (by decide) nofun,
    .withDefault "copied" ValuePiece.restores.list (by decide) (gives_nil _)]

theorem written_access (ptr : PointerValue) (size : Nat) (ordering : AccessOrdering)
    (result : ReadValue) : (Json.obj [("ptr", ptr.json), ("size", .ofNat size),
      ("ordering", ordering.json), ("result", result.json)]).Written := by
  refine written_record ["ptr", "size", "ordering", "result"] rfl rfl ?_
  simpa using ⟨PointerValue.restores.written ptr, Restores.size.written size,
    AccessOrdering.restores.written ordering, ReadValue.restores.written result⟩

theorem written_json (op : Operation) : op.json.Written := by
  cases op with
  | load ptr size ordering result =>
    exact written_tagged rfl (written_access ptr size ordering result)
  | store ptr size =>
    refine written_tagged rfl ?_
    refine written_record ["ptr", "size"] rfl rfl ?_
    simpa using ⟨PointerValue.restores.written ptr, Restores.size.written size⟩
  | atomic ptr size ordering result =>
    exact written_tagged rfl (written_access ptr size ordering result)
  | fence => exact written_name rfl
  | memset dest len =>
    refine written_tagged rfl ?_
    refine written_record ["dest", "len"] rfl rfl ?_
    simpa using ⟨PointerValue.restores.written dest, Restores.sizeOption.written len⟩
  | memcpy dest src len copied =>
    refine written_tagged rfl ?_
    refine written_record ["dest", "src", "len", "copied"] rfl rfl ?_
    simpa using ⟨PointerValue.restores.written dest, PointerValue.restores.written src,
      Restores.sizeOption.written len, ValuePiece.restores.list.written copied⟩
  | readFile dest size =>
    refine written_tagged rfl ?_
    refine written_record ["dest", "size"] rfl rfl ?_
    simpa using ⟨PointerValue.restores.written dest, Restores.sizeOption.written size⟩
  | alloc object =>
    refine written_tagged rfl ?_
    refine written_record ["object"] rfl rfl ?_
    simpa using Restores.ident.written object
  | realloc object source len copied =>
    refine written_tagged rfl ?_
    refine written_record ["object", "source", "len", "copied"] rfl rfl ?_
    simpa using ⟨Restores.ident.written object, PointerValue.restores.written source,
      Restores.sizeOption.written len, ValuePiece.restores.list.written copied⟩
  | free ptr =>
    refine written_tagged rfl ?_
    refine written_record ["ptr"] rfl rfl ?_
    simpa using PointerValue.restores.written ptr
  | call site => exact written_tagged rfl (CallSite.restores.written site)
  | phi value =>
    refine written_tagged rfl ?_
    refine written_record ["value"] rfl rfl ?_
    simpa using ReadValue.restores.written value
  | other => exact written_name rfl

theorem restores : Restores read json 7 where
  written := written_json
  reads := by
    rintro op ⟨d, j, h⟩
    obtain ⟨d, name, content, h⟩ := choice_eq_some h
    split at h
    · exact readsAs_tagged_record h accessFields load ⟨rfl, rfl, fun _ _ _ _ _ => rfl⟩ rfl
        (fun _ _ => rfl) fun _ _ _ _ => rfl
    · exact readsAs_tagged_record h
        [.required "ptr" PointerValue.restores (by decide),
          .required "size" Restores.size (by decide)] store
        ⟨rfl, rfl, fun _ _ _ => rfl⟩ rfl (fun _ _ => rfl) fun _ _ => rfl
    · exact readsAs_tagged_record h accessFields atomic ⟨rfl, rfl, fun _ _ _ _ _ => rfl⟩ rfl
        (fun _ _ => rfl) fun _ _ _ _ => rfl
    · obtain rfl := bare_eq_some h
      exact (readsAs_name rfl fun _ => rfl).mono (by decide)
    · exact readsAs_tagged_record h (fillFields "len") memset ⟨rfl, rfl, fun _ _ _ => rfl⟩ rfl
        (fun _ _ => rfl) fun _ _ => rfl
    · exact readsAs_tagged_record h
        (.required "dest" PointerValue.restores (by decide) ::
          .required "src" PointerValue.restores (by decide) :: copiedFields) memcpy
        ⟨rfl, rfl, fun _ _ _ _ _ => rfl⟩ rfl (fun _ _ => rfl) fun _ _ _ _ => rfl
    · exact readsAs_tagged_record h (fillFields "size") readFile ⟨rfl, rfl, fun _ _ _ => rfl⟩ rfl
        (fun _ _ => rfl) fun _ _ => rfl
    · exact readsAs_tagged_record h [.required "object" Restores.ident (by decide)] alloc
        ⟨rfl, rfl, fun _ _ => rfl⟩ rfl (fun _ _ => rfl) fun _ => rfl
    · exact readsAs_tagged_record h
        (.required "object" Restores.ident (by decide) ::
          .required "source" PointerValue.restores (by decide) :: copiedFields) realloc
        ⟨rfl, rfl, fun _ _ _ _ _ => rfl⟩ rfl (fun _ _ => rfl) fun _ _ _ _ => rfl
    · exact readsAs_tagged_record h [.required "ptr" PointerValue.restores (by decide)] free
        ⟨rfl, rfl, fun _ _ => rfl⟩ rfl (fun _ _ => rfl) fun _ => rfl
    · obtain ⟨site, hsite, rfl⟩ := Option.map_eq_some_iff.1 h
      exact readsAs_tagged rfl
        ((CallSite.restores.reads ⟨_, _, hsite⟩).map Operation.call)
    · exact readsAs_tagged_record h
        [.withDefault "value" ReadValue.restores le_rfl ReadValue.gives_unknown] phi
        ⟨rfl, rfl, fun _ _ => rfl⟩ rfl (fun _ _ => rfl) fun _ => rfl
    · obtain rfl := bare_eq_some h
      exact (readsAs_name rfl fun _ => rfl).mono (by decide)
    · cases h

end Operation

theorem RuntimeCheck.restores : Restores RuntimeCheck.read RuntimeCheck.json 0 :=
  Restores.oneOf rfl fun
    | .none => ⟨("none", .none), by decide, rfl, rfl⟩
    | .asExpected => ⟨("as_expected", .asExpected), by decide, rfl, rfl⟩
    | .fileRead => ⟨("read_lliowd", .fileRead), by decide, rfl, rfl⟩
    | .comparison => ⟨("read_memcmp", .comparison), by decide, rfl, rfl⟩

theorem Instr.restores : Restores Instr.read Instr.json 8 := by
  have hnone : RuntimeCheck.read.Gives .none := ⟨0, .str "none", rfl⟩
  exact Restores.record
    [.required "id" Restores.ident (by decide), .required "kind" Operation.restores le_rfl,
      .withDefault "thread_local" Restores.bool (by decide) (gives_bool _),
      .withDefault "runtime_check" RuntimeCheck.restores (by decide) hnone,
      .withDefault "reached" Restores.bool (by decide) (gives_bool _)]
    Instr.mk ⟨rfl, rfl, fun _ _ _ _ _ _ => rfl⟩ (fun _ _ _ _ _ => rfl)
    fun i => ⟨i.id, i.op, i.threadLocal, i.runtimeCheck, i.reached, rfl⟩

end ByteTrust
