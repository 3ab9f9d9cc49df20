import ByteTrust.Proofs.Interference.Completes
import ByteTrust.Proofs.Interference.Sound
import ByteTrust.Proofs.Interference.Structured

/-!
# One walk for every path

The walk through a program in which control moves forward covers all paths, of any length and with
any number of turns around each loop. In its second pass a loop is entered with an invariant: what
comes around again trusts all that entered (`loopEntries_inductive`). When all references survive
and each function is called from one place, the need recorded for a read is at least as strong as
on each path that comes to it, and the exit trusts no byte that some path to it has lost
(`run_covers_paths`).

A callee that is not emitted may turn out to need a check in the second pass only, and then takes
trust away that the first pass left (`second_pass_loses_trust`). And where two peels share an
iteration, only one of them is walked (`path_missed_by_twin_peels`).
-/

namespace ByteTrust

namespace Walk

open Snapshot Region

variable {w : Setting} {plain : Prop} {q q' : InstId → Bool} {s' : State} {x y z : Snapshot}
  {out : Option Snapshot} {H : List Snapshot} {inst : Instr} {now : Stamp}
  {references : References}

/-! ## A fresh walk is tame -/

theorem noted_fresh (hplain : plain → references.missing = ∅) :
    Noted w plain { clock := now, references := references } where
  calls hg := by simp at hg
  own _ _ _ _ hneed := by simp at hneed
  must _ _ hneed := by simp at hneed
  missing := hplain
  never _ _ _ hneed := by simp at hneed

/-- Before the root is entered no function is being walked. -/
theorem enters_root (hl : w.program.Linked w.layout) (F : Frames) (cs : List ContextId) :
    ∃ c, Enters w (fun _ => False) F (fun _ => False) [] cs w.program.root c := by
  obtain ⟨c, hc, hfun⟩ := hl.root
  exact ⟨c, hc, hfun, id, False.elim, False.elim, nofun, nofun⟩

/-- A run is a tame walk of the root. -/
theorem tame_of_run (plain : Prop) (hl : w.program.Linked w.layout)
    (ho : w.program.Orderly w.layout) (hplain : plain → references.missing = ∅)
    (hH : History now H) (hx : x ∈ H)
    (h : run w x { clock := now, references := references } = .ok (out, s')) :
    Tame w plain (fun _ => False) (fun _ => []) (.function w.program.root [] false x)
      { clock := now, references := references } out s' ∧
      Tidy w plain (fun _ => False) (fun _ => []) s' ∧ ∀ y ∈ out, Fits x.owners y := by
  have hkept := kept_fresh hH references
  obtain ⟨⟨c, hc, hwalk⟩, -⟩ := walks_of_run h hkept hx
  have hc' := Program.context_eq_ok.1 hc
  rw [hl.own _ _ hc', ho.emitted hc'] at hwalk
  obtain ⟨d, henters⟩ := enters_root hl (fun _ => []) x.owners
  have hframed : Framed w x.owners (fun f => False ∨ f = w.program.root)
      (Function.update (fun _ => []) w.program.root (w.program.root :: x.owners))
      { clock := now, references := references } :=
    Framed.enter (fun _ => False.elim) id .root
  obtain ⟨htame, htidy, -, hout⟩ := tame_of_walks hl ho hwalk rfl henters hframed
    ⟨hkept.canonical hx, rfl⟩ ⟨noted_fresh hplain, fun hy => by simp [bin_fresh] at hy⟩
  exact ⟨htame, htidy, hout⟩

/-! ## What is quiet anyway -/

/-- The instructions of a part of a path belong to the program. -/
def Leg.Known (p : Program) : Leg → Prop
  | .instrs insts => ∀ inst ∈ insts, inst ∈ p.instrs
  | .way .. => True

/-- Two ways to silence reads and calls that make no difference to any instruction of the
program. -/
structure Alike (w : Setting) (q q' : InstId → Bool) : Prop where
  reads : ∀ inst ∈ w.program.instrs, inst.op.callee? = none → ∀ x,
    replayNeed w (q inst.id) inst x = replayNeed w (q' inst.id) inst x
  calls : ∀ inst ∈ w.program.instrs, ∀ g, inst.op.callee? = some g → q inst.id = q' inst.id

theorem Alike.replay (h : Alike w q q') (hinst : inst ∈ w.program.instrs)
    (hcallee : inst.op.callee? = none) (now : Stamp) (x : Snapshot) :
    replay w (q inst.id) now inst x = replay w (q' inst.id) now inst x := by
  rw [Walk.replay, Walk.replay, h.reads inst hinst hcallee]

theorem Alike.path (h : Alike w q q') (hown : w.program.OwnNames) {leg : Leg}
    (hpath : Path w q leg x y) (hleg : leg.Known w.program) : Path w q' leg x y := by
  have hblock {k : ContextId} {c : Context} {b : BlockId} {block : Block}
      (hc : w.program.contexts.get? k = some c) (hb : c.blocks.get? b = some block) :
      (Leg.instrs block.insts).Known w.program := fun inst hinst =>
    (Program.mem_instrs hown).2 ⟨k, c, b, block, hc, hb, hinst⟩
  induction hpath with
  | done => exact .done
  | @instr inst insts x y now hcallee _ ih =>
    obtain ⟨hinst, hinsts⟩ := List.forall_mem_cons.1 hleg
    rw [h.replay hinst hcallee] at ih
    exact .instr now hcallee (ih hinsts)
  | call now hcallee hloud hd _ _ ihcall ihrest =>
    obtain ⟨hinst, hinsts⟩ := List.forall_mem_cons.1 hleg
    exact .call now hcallee ((h.calls _ hinst _ hcallee).symm.trans hloud) hd (ihcall trivial)
      (ihrest hinsts)
  | passed now hcallee hquiet _ ih =>
    obtain ⟨hinst, hinsts⟩ := List.forall_mem_cons.1 hleg
    exact .passed now hcallee ((h.calls _ hinst _ hcallee).symm.trans hquiet) (ih hinsts)
  | here => exact .here
  | edge _ hc hb hconds hvouch _ hend ht hleads hR ihway ihinsts =>
    exact .edge (ihway trivial) hc hb hconds hvouch (ihinsts (hblock hc hb)) hend ht hleads hR
  | ret _ hc hb hconds hvouch _ hend hpop ihway ihinsts =>
    exact .ret (ihway trivial) hc hb hconds hvouch (ihinsts (hblock hc hb)) hend hpop
  | first _ hfirst hd ihway => exact .first (ihway trivial) hfirst hd
  | next _ hnext hd ihway => exact .next (ihway trivial) hnext hd

/-- The instructions where a path starts belong to the program. -/
def Origin.Known (p : Program) : Origin → Prop
  | .instrs insts => ∀ inst ∈ insts, inst ∈ p.instrs
  | .function _ => True

theorem Alike.meets (h : Alike w q q') (hown : w.program.OwnNames) {origin : Origin}
    (hmeets : Meets w q origin x inst z) (horigin : origin.Known w.program) :
    Meets w q' origin x inst z := by
  induction hmeets with
  | here => exact .here
  | @instr inst inst' insts x z now hcallee _ ih =>
    obtain ⟨hinst, hinsts⟩ := List.forall_mem_cons.1 horigin
    rw [h.replay hinst hcallee] at ih
    exact .instr now hcallee (ih hinsts)
  | past now hcallee hloud hd hcall _ ih =>
    obtain ⟨hinst, hinsts⟩ := List.forall_mem_cons.1 horigin
    exact .past now hcallee ((h.calls _ hinst _ hcallee).symm.trans hloud) hd
      (h.path hown hcall trivial) (ih hinsts)
  | passed now hcallee hquiet _ ih =>
    obtain ⟨hinst, hinsts⟩ := List.forall_mem_cons.1 horigin
    exact .passed now hcallee ((h.calls _ hinst _ hcallee).symm.trans hquiet) (ih hinsts)
  | into hcallee hloud _ ih =>
    have hinst := (List.forall_mem_cons.1 horigin).1
    exact .into hcallee ((h.calls _ hinst _ hcallee).symm.trans hloud) (ih trivial)
  | @function inst g k c d b block conds x y y₁ z now hd hway hc hb hconds hvouch _ ih =>
    have hknown : (Origin.instrs block.insts).Known w.program := fun inst hinst =>
      (Program.mem_instrs hown).2 ⟨k, c, b, block, hc, hb, hinst⟩
    exact .function now hd (h.path hown hway trivial) hc hb hconds hvouch (ih hknown)

/-- In a plain walk, the reads that have no need are those that never have one, and no call is
passed over where each function is called from one place. -/
theorem Noted.alike (hl : w.program.Linked w.layout) (hs : w.program.Structured w.layout)
    (h : Noted w True s') : Alike w (fun _ => false) (silenced w s' s') where
  reads inst hinst hcallee x := by
    unfold replayNeed
    by_cases hnever : s'.findings.needs.get? inst.id = some .never
    · rcases h.never trivial inst hinst hnever with hlocal | hneed
      · simp [hlocal]
      · simp [hneed]
    · have hloud : silenced w s' s' inst.id = false :=
        Bool.eq_false_iff.2 fun hquiet => hnever ((silenced_read hl.names hinst hcallee).1 hquiet)
      rw [hloud]
  calls inst hinst g hcallee := by
    refine (Bool.eq_false_iff.2 fun hquiet => ?_).symm
    obtain ⟨i, hi, hne⟩ := (silenced_call hl.names hinst hcallee).1 hquiet
    obtain ⟨inst', hinst', hcallee', rfl⟩ := h.calls hi
    exact hne (congrArg Instr.id (hs.calledOnce inst' hinst' inst hinst g hcallee' hcallee))

/-! ## Paths through a program -/

/-- The need of a read on a path is recorded, or a stronger one. -/
def Recorded (w : Setting) (s : State) (inst : Instr) (z : Snapshot) : Prop :=
  inst.op.readsMemory = true →
    ∃ n, s.findings.needs.get? inst.id = some n ∧ replayNeed w false inst z ≤ n

theorem replayNeed_le_needNow {before : Option Need}
    (hbefore : before = some .never → ∀ x, replayNeed w false inst x = .never) :
    replayNeed w false inst x ≤ needNow w inst x before := by
  unfold needNow
  split
  · next hnever =>
    have hnone : replayNeed w false inst x = .never := by
      rcases hnever with hlocal | hnever
      · simp [replayNeed, hlocal]
      · exact hbefore hnever x
    rw [hnone]
    exact Need.le_refl _
  · next hloud =>
    rw [not_or, Bool.not_eq_true] at hloud
    rw [replayNeed, hloud.1, Bool.or_false]
    exact Need.le_max_right _ _

theorem replayNeed_antitone (h : Below x z) (hx : x.Canonical) (hz : z.Canonical)
    (hop : inst.op.ReadsBytes) : replayNeed w false inst z ≤ replayNeed w false inst x := by
  unfold replayNeed
  split
  · exact Need.le_refl _
  · exact Program.need_antitone h hx hz hop

/-- While all references survive, the visits of reads settle the needs on all paths that they
cover. -/
theorem watches_recorded (hbytes : ∀ inst ∈ w.program.instrs, inst.op.ReadsBytes) :
    Watches w True (Recorded w s') s' where
  seen := by
    rintro inst x z ⟨scope, t, y, t', hvisit, hinst, hnoted, hlater⟩ hx hz hbelow hread
    cases hvisit with
    | own hread' => cases hread.symm.trans hread'
    | other hread' => cases hread.symm.trans hread'
    | @read need recorded now _ _ hneed _ hmissing hstill =>
      have hall := hnoted.missing trivial
      have hget : t'.findings.needs.get? inst.id = some recorded := by
        rw [hstill.needs, State.record, IdentMap.get?_insert, if_pos rfl]
      obtain ⟨n, hn, hle⟩ := (hlater.grows (hstill.missing hall)).2 hget
      refine ⟨n, hn, ?_⟩
      have hnow : replayNeed w false inst x ≤ recorded := by
        rw [hmissing hall, hneed]
        refine replayNeed_le_needNow fun hnever x => ?_
        rcases hnoted.never trivial inst hinst hnever with hlocal | hnone
        · simp [replayNeed, hlocal]
        · simp [replayNeed, hnone]
      have hanti := replayNeed_antitone (w := w) hbelow hx.canonical hz.canonical
        (hbytes inst hinst)
      exact Need.le_trans (Need.le_trans hanti hnow) hle
  call := by
    intro inst g z hcallee hread
    cases hop : inst.op with
    | call => simp [hop, Operation.readsMemory] at hread
    | _ => simp [hop, Operation.callee?] at hcallee

/-! ## A loop to go around -/

/-- A block without path conditions, as the path finds it. -/
def FindsBlock (w : Setting) (k : ContextId) (b : BlockId) (block : Block) : Prop :=
  Yields (w.program.block k b) (· = block) ∧ Yields (conditionsAt w k b) (· = [])

instance (w : Setting) (k : ContextId) (b : BlockId) (block : Block) :
    Decidable (FindsBlock w k b block) :=
  inferInstanceAs (Decidable (_ ∧ _))

theorem FindsBlock.spec {k : ContextId} {b : BlockId} {block : Block} (h : FindsBlock w k b block) :
    ∃ c, w.program.contexts.get? k = some c ∧ c.blocks.get? b = some block ∧
      conditionsAt w k b = .ok [] := by
  obtain ⟨⟨_, hblock, rfl⟩, _, hconds, rfl⟩ := h
  obtain ⟨c, hc, hb⟩ := Program.block_eq_ok.1 hblock
  exact ⟨c, hc, hb, hconds⟩

theorem leads_block {k o : ContextId} {b t : BlockId}
    (h : Yields (w.program.context k) (isBackEdge · b t = false))
    (howner : w.layout.edgeOwner? w.program k t = some o) {c : Context}
    (hc : w.program.contexts.get? k = some c) : Leads w k c b t (.block o t) := by
  obtain ⟨c', hc', hback⟩ := h
  cases hc.symm.trans (Program.context_eq_ok.1 hc')
  exact .block hback howner

theorem leads_back {k : ContextId} {b t : BlockId}
    (h : Yields (w.program.context k) (isBackEdge · b t = true)) {c : Context}
    (hc : w.program.contexts.get? k = some c) : Leads w k c b t (.back k) := by
  obtain ⟨c', hc', hback⟩ := h
  cases hc.symm.trans (Program.context_eq_ok.1 hc')
  exact .back hback

/-- A path goes on over an edge. -/
theorem Path.go {i j : Bin} {k : ContextId} {b t : BlockId} {block : Block}
    (hway : Path w q (.way (fun _ _ => True) i (.block k b)) x y) (hblock : FindsBlock w k b block)
    (hinsts : Path w q (.instrs block.insts) y z) (hend : block.terminator = .branch)
    (ht : t ∈ block.liveSuccs)
    (hleads : ∀ {c}, w.program.contexts.get? k = some c → Leads w k c b t j) :
    Path w q (.way (fun _ _ => True) i j) x z := by
  obtain ⟨c, hc, hb, hconds⟩ := hblock.spec
  exact .edge hway hc hb hconds .nil hinsts hend ht (hleads hc) trivial

/-- A path goes on through a call of a function of one block. -/
theorem Path.callOnce {g f : ContextId} {b : BlockId} {block : Block} {now' : Stamp}
    (hcallee : inst.op.callee? = some g) (hloud : q inst.id = false)
    (hentry : Yields (w.program.context g) (·.entry = b))
    (hroot : w.layout.functionRoot g = g) (hblock : FindsBlock w g b block)
    (hend : block.terminator = .ret)
    (hinsts : Path w q (.instrs block.insts) (x.pushFrame now g) y)
    (hpop : y.popFrame now' = .ok (f, z)) : Path w q (.instrs [inst]) x z := by
  obtain ⟨d, hd, rfl⟩ := hentry
  obtain ⟨c, hc, hb, hconds⟩ := hblock.spec
  have hret := Path.ret (R := fun _ _ => True) .here hc hb hconds .nil hinsts hend hpop
  rw [hroot] at hret
  exact .call now hcallee hloud (Program.context_eq_ok.1 hd) hret .done

/-- To see that a program is advancing once it is linked, it is enough to evaluate this. -/
theorem advancing_linkedSetting {p : Program}
    (hyields : Yields p.link fun q => Yields (Layout.ofProgram q) fun _ => True)
    (hnames : ∀ e ∈ (linkedSetting p).program.contexts.entries, e.2.id = e.1)
    (horder : ∀ e ∈ (linkedSetting p).program.contexts.entries,
      (linkedSetting p).program.InOrder (linkedSetting p).layout e.1 e.2)
    (hconds : (linkedSetting p).program.pathConditions = []) :
    (linkedSetting p).program.OwnNames ∧
      (linkedSetting p).program.Advancing (linkedSetting p).layout := by
  obtain ⟨hlink, hlayout⟩ := linkedSetting_spec hyields
  have hown : (linkedSetting p).program.OwnNames := fun k c hc =>
    hnames (k, c) (Table.mem_entries.2 hc)
  refine ⟨hown, (Program.linked_of_link hlink hlayout hown).advancing horder ?_⟩
  rw [hconds]
  nofun

/-- Other threads may change some objects here. -/
def yieldOf (id : Nat) (objects : List ObjectId) : Instr :=
  ⟨⟨id⟩, .call { effect := .yields, domain := some objects }, false, .none, true⟩

/-- A loop that loads an object and calls a function where the object may be changed. -/
def turning : Program :=
  looping [loadAll 0 (.known (.scalar 1)), callOf 1 ⟨1⟩] [oneBlock 1 [yieldOf 2 [⟨0⟩]]]

theorem turning_spec :
    (turning.link = .ok (linkedSetting turning).program ∧
      Layout.ofProgram (linkedSetting turning).program = .ok (linkedSetting turning).layout) ∧
    ((linkedSetting turning).program.OwnNames ∧
      (linkedSetting turning).program.Structured (linkedSetting turning).layout) ∧
    (linkedSetting turning).program.PeelsApart := by
  obtain ⟨hown, hs⟩ := advancing_linkedSetting (p := turning) (by decide +kernel)
    (by decide +kernel) (by decide +kernel) (by decide +kernel)
  exact ⟨linkedSetting_spec (by decide +kernel),
    ⟨hown, hs.structured (by decide +kernel) (by decide +kernel)⟩,
    Program.peelsApart_of_entries (by decide +kernel)⟩

/-- On its second turn around the loop a path comes to the load after the change. -/
theorem meets_turning : ∃ z,
    Meets (linkedSetting turning) (fun _ => false) (.function ⟨0⟩) (.trusting 0)
      (loadAll 0 (.known (.scalar 1))) z ∧
    replayNeed (linkedSetting turning) false (loadAll 0 (.known (.scalar 1))) z = .must := by
  let w := linkedSetting turning
  let load := loadAll 0 (.known (.scalar 1))
  let x := (Snapshot.trusting 0).pushFrame 1 ⟨0⟩
  have hentry : FindsBlock w ⟨0⟩ ⟨0⟩ { id := ⟨0⟩, succs := [⟨⟨1⟩, true⟩] } := by decide +kernel
  have hbody : FindsBlock w ⟨0⟩ ⟨1⟩
      { id := ⟨1⟩, insts := [load, callOf 1 ⟨1⟩], succs := [⟨⟨1⟩, true⟩, ⟨⟨2⟩, true⟩]
        preds := [⟨0⟩, ⟨1⟩] } := by
    decide +kernel
  have hcallee : FindsBlock w ⟨1⟩ ⟨0⟩
      { id := ⟨0⟩, insts := [yieldOf 2 [⟨0⟩]], terminator := .ret } := by
    decide +kernel
  obtain ⟨⟨f, z⟩, hpop, hmust⟩ : Yields
      ((replay w false 4 (yieldOf 2 [⟨0⟩]) ((replay w false 2 load x).pushFrame 3 ⟨1⟩)).popFrame 5)
      fun r => replayNeed w false load r.2 = .must := by
    decide +kernel
  have hfirst : Path w (fun _ => false)
      (.way (fun _ _ => True) (.block ⟨0⟩ ⟨0⟩) (.block ⟨0⟩ ⟨1⟩)) x x :=
    Path.here.go (t := ⟨1⟩) hentry .done rfl (by decide)
      (leads_block (by decide +kernel) (by decide +kernel))
  have hturn : Path w (fun _ => false) (.instrs [load, callOf 1 ⟨1⟩]) x z :=
    .instr 2 rfl (.callOnce rfl rfl (by decide +kernel) (by decide +kernel) hcallee rfl
      (.instr 4 rfl .done) hpop)
  have hsecond := hfirst.go (t := ⟨1⟩) hbody hturn rfl (by decide)
    (leads_block (o := ⟨0⟩) (by decide +kernel) (by decide +kernel))
  obtain ⟨d, hd, hat⟩ : Yields (w.program.context ⟨0⟩) (·.entry = ⟨0⟩) := by decide +kernel
  obtain ⟨c, hc, hb, hconds⟩ := hbody.spec
  rw [← hat] at hsecond
  exact ⟨z, .function 1 (Program.context_eq_ok.1 hd) hsecond hc hb hconds .nil .here, hmust⟩

/-! ## Loops are entered with an invariant -/

/-- In its second pass, every loop of an advancing program is entered with an invariant: what comes
over the back edge trusts every byte that entered, so a meet with it would take no byte away.
Functions may be called from many places and call each other in circles, but for the root. -/
theorem loopEntries_inductive {p₀ : Program} (hlink : p₀.link = .ok w.program)
    (hlayout : Layout.ofProgram w.program = .ok w.layout) (hown : w.program.OwnNames)
    (hs : w.program.Advancing w.layout) (hpeels : w.program.PeelsApart)
    (hroot : ¬ Relation.TransGen (w.program.Inlines w.layout) w.program.root w.program.root)
    (hH : History now H) (hx : x ∈ H)
    (h : run w x { clock := now, references := references } = .ok (out, s')) :
    ∀ e ∈ s'.findings.loopEntries, (∀ y ∈ e.closing, Below e.second y) ∧
      ∀ m, IsMeet (e.second :: e.closing) m →
        ∀ ℓ o b, m.TrustsAt ℓ o b ↔ e.second.TrustsAt ℓ o b := by
  have hl := Program.linked_of_link hlink hlayout hown
  have ho := hs.orderly hpeels hl hroot
  obtain ⟨htame, -⟩ := tame_of_run False hl ho False.elim hH hx h
  have hsettles : Settles s' := htame.settles hl ho nofun
  intro e he
  refine ⟨hsettles e he, fun m hm ℓ o b => ?_⟩
  rw [hm.trusts, List.forall_mem_cons]
  exact ⟨And.left, fun hb => ⟨hb, fun y hy => (hsettles e he y hy).trusts ℓ o b hb⟩⟩

/-- The same loop, with one more call of the function behind it. -/
def turningShared : Program :=
  let last : Block := { id := ⟨2⟩, insts := [callOf 3 ⟨1⟩], preds := [⟨1⟩], terminator := .ret }
  { turning with
    contexts := .ofList (turning.contexts.entries.map fun e =>
      if e.1 = turning.root then (e.1, { e.2 with blocks := e.2.blocks.insert ⟨2⟩ last }) else e) }

/-- The object that is not changed stays trusted all around the loop. -/
theorem loopEntries_inductive_shared :
    Yields (run (linkedSetting turningShared) (.trusting 0) { clock := 1 }) fun r =>
      ∃ e ∈ r.2.findings.loopEntries, e.second.othersClobbered = false ∧
        ∃ y ∈ e.closing, Below e.second y := by
  obtain ⟨hlink, hlayout⟩ := linkedSetting_spec (p := turningShared) (by decide +kernel)
  obtain ⟨hown, hs⟩ := advancing_linkedSetting (p := turningShared) (by decide +kernel)
    (by decide +kernel) (by decide +kernel) (by decide +kernel)
  have hpeels : (linkedSetting turningShared).program.PeelsApart :=
    Program.peelsApart_of_entries (by decide +kernel)
  have hyields : Yields (run (linkedSetting turningShared) (.trusting 0) { clock := 1 }) fun r =>
      ∃ e ∈ r.2.findings.loopEntries, e.second.othersClobbered = false ∧
        ∃ y ∈ e.closing, y.othersClobbered = false :=
    yields_run 4 (by decide +kernel)
  obtain ⟨⟨out, s'⟩, hrun, e, he, hflag, y, hy, -⟩ := hyields
  have hinductive := loopEntries_inductive hlink hlayout hown hs hpeels
    (Program.not_inlines_root hown (by decide +kernel)) ((History.start 0).next .trusting)
    List.mem_cons_self hrun
  exact ⟨_, hrun, e, he, hflag, y, hy, (hinductive e he).1 y hy⟩

/-- A callee that is not emitted reads an object that the loop yields. In the first pass its read is
safe. In the second pass it needs a check, and since the callee is not emitted all trust is lost at
the call: the other object, trusted when the loop was entered, is not trusted at the back edge. -/
theorem second_pass_loses_trust :
    let peek : Context :=
      { (oneBlock 1 [loadAll 3 (.known (.scalar 1))]).2 with materialized := false }
    let p := looping [callOf 1 ⟨1⟩, yieldOf 2 [⟨0⟩]] [(⟨1⟩, peek)]
    Yields p.link (fun q => Yields (Layout.ofProgram q) fun _ => True) ∧
      Yields (run (linkedSetting p) (.trusting 0) { clock := 1 }) fun r =>
        ∃ e ∈ r.2.findings.loopEntries, ∃ y ∈ e.closing, e.second.isBelow y = false :=
  ⟨by decide +kernel, yields_run 4 (by decide +kernel)⟩

/-! ## Every path is covered -/

/-- A fresh walk through a structured program with all references covers every path: a read that a
path comes to has a need recorded that is at least as strong as there, and where a path leaves the
root the exit trusts no more bytes than it. -/
theorem run_covers_paths {p₀ : Program} (hlink : p₀.link = .ok w.program)
    (hlayout : Layout.ofProgram w.program = .ok w.layout) (hown : w.program.OwnNames)
    (hs : w.program.Structured w.layout) (hpeels : w.program.PeelsApart)
    (hbytes : ∀ inst ∈ w.program.instrs, inst.op.ReadsBytes) (hH : History now H) (hx : x ∈ H) :
    ∃ out s', run w x { clock := now } = .ok (out, s') ∧
      (∀ inst z, Meets w (fun _ => false) (.function w.program.root) x inst z →
        Recorded w s' inst z) ∧
      ∀ d now' z, w.program.contexts.get? w.program.root = some d →
        Path w (fun _ => false) (.through w.program.root d) (x.pushFrame now' w.program.root) z →
          ∃ y ∈ out, Below y z := by
  have hl := Program.linked_of_link hlink hlayout hown
  have ho := hs.orderly hpeels hl
  obtain ⟨out, s', hrun, -⟩ := Regular.run_eq_ok ⟨hl, hs.rootNotCalled, hs.noChecker⟩ hx
    (kept_fresh hH {}) (bin_fresh now {}) rfl
  obtain ⟨htame, htidy, hout⟩ := tame_of_run True hl ho (fun _ => rfl) hH hx hrun
  have hsound : SoundCall w (silenced w s' s') (Recorded w s') w.program.root x out :=
    htame.sound hl ho (quiets_silenced hl (.refl s')) (watches_recorded hbytes)
  have halike := htidy.noted.alike hl hs
  have hfits : Fits x.owners x := ⟨hH.coherent.1.canonical x hx, rfl⟩
  refine ⟨out, s', hrun, fun inst z hmeets => ?_, fun d now' z hd hpath => ?_⟩
  · exact hsound.meets hfits (.refl x) (halike.meets hown hmeets trivial)
  · obtain ⟨y, hy, hunder⟩ := hsound.trusts (fun _ => id) hd hfits (.refl _ x)
      (halike.path hown hpath trivial)
    have hz : Fits x.owners z := hpath.fits nofun (hfits.pushFrame now' _)
    exact ⟨y, hy, hunder.below (hout y hy).owners hz.owners⟩

/-- The need of the load is that of a path with a second turn. -/
theorem run_covers_paths_turning :
    Yields (run (linkedSetting turning) (.trusting 0) { clock := 1 }) fun r =>
      r.2.findings.needs.get? ⟨0⟩ = some .must := by
  obtain ⟨⟨hlink, hlayout⟩, ⟨hown, hs⟩, hpeels⟩ := turning_spec
  have hinstrs : (linkedSetting turning).program.instrs =
      [loadAll 0 (.known (.scalar 1)), callOf 1 ⟨1⟩, yieldOf 2 [⟨0⟩]] := by
    decide +kernel
  have hbytes : ∀ inst ∈ (linkedSetting turning).program.instrs, inst.op.ReadsBytes := by
    rw [hinstrs]
    simp [loadAll, callOf, yieldOf, Operation.ReadsBytes]
  obtain ⟨out, s', hrun, hmeets, -⟩ := run_covers_paths hlink hlayout hown hs hpeels hbytes
    ((History.start 0).next .trusting) List.mem_cons_self
  obtain ⟨z, hz, hmust⟩ := meets_turning
  obtain ⟨n, hn, hle⟩ := hmeets _ z hz rfl
  rw [hmust] at hle
  refine ⟨_, hrun, ?_⟩
  cases n with
  | must => exact hn
  | _ => cases hle

/-- An iteration of one block, named as the context is. -/
def iterationOf (n index : Nat) (insts : List Instr) (again : Bool) : ContextId × Context :=
  (⟨n⟩,
    { id := ⟨n⟩
      kind := .iteration ⟨0⟩ index ⟨n⟩ ⟨n⟩
      parent := some ⟨0⟩
      blocks := .ofList [(⟨n⟩, { id := ⟨n⟩, insts := insts, succs := [⟨⟨n⟩, again⟩, ⟨⟨4⟩, true⟩] })]
      regions := [.block ⟨n⟩]
      entry := ⟨n⟩ })

/-- A loop that was unrolled twice: after the same first iteration, one peel goes on with the
context 2 and the other one with the context 3. -/
def twinPeels : Program where
  objects := .ofList [(⟨0⟩, ⟨⟨0⟩, .heap, some 8, none⟩)]
  contexts := .ofList [
    (⟨0⟩,
      { id := ⟨0⟩
        kind := .function ⟨0⟩ "main" []
        blocks := .ofList [
          (⟨0⟩, { id := ⟨0⟩, succs := [⟨⟨1⟩, true⟩] }), (⟨4⟩, { id := ⟨4⟩, terminator := .ret })]
        regions := [.block ⟨0⟩,
          .loop { id := ⟨0⟩, preheader := ⟨0⟩, header := ⟨1⟩, latch := ⟨1⟩,
                  peel := some ⟨[⟨1⟩, ⟨2⟩], true, true⟩ } [],
          .loop { id := ⟨0⟩, preheader := ⟨0⟩, header := ⟨1⟩, latch := ⟨1⟩,
                  peel := some ⟨[⟨1⟩, ⟨3⟩], true, true⟩ } [],
          .block ⟨4⟩]
        entry := ⟨0⟩ }),
    iterationOf 1 0 [] true, iterationOf 2 1 [] false,
    iterationOf 3 1 [⟨⟨0⟩, .fence, false, .none, true⟩, loadAll 1 (.known (.scalar 1))] false]
  root := ⟨0⟩

/-- A path goes from the first iteration to the one that only the second peel lists. -/
theorem meets_twinPeels : ∃ z,
    Meets (linkedSetting twinPeels) (fun _ => false) (.function ⟨0⟩) (.trusting 0)
      (loadAll 1 (.known (.scalar 1))) z ∧
    replayNeed (linkedSetting twinPeels) false (loadAll 1 (.known (.scalar 1))) z = .must := by
  let w := linkedSetting twinPeels
  let fence : Instr := ⟨⟨0⟩, .fence, false, .none, true⟩
  let load := loadAll 1 (.known (.scalar 1))
  let x := (Snapshot.trusting 0).pushFrame 1 ⟨0⟩
  have hentry : FindsBlock w ⟨0⟩ ⟨0⟩ { id := ⟨0⟩, succs := [⟨⟨1⟩, true⟩] } := by decide +kernel
  have hbody : FindsBlock w ⟨1⟩ ⟨1⟩
      { id := ⟨1⟩, succs := [⟨⟨1⟩, true⟩, ⟨⟨4⟩, true⟩], preds := [⟨0⟩, ⟨1⟩] } := by
    decide +kernel
  have hlast : FindsBlock w ⟨3⟩ ⟨3⟩
      { id := ⟨3⟩, insts := [fence, load], succs := [⟨⟨3⟩, false⟩, ⟨⟨4⟩, true⟩]
        preds := [⟨3⟩] } := by
    decide +kernel
  -- the second peel
  obtain ⟨c₀, hc₀, hat₀, info, hinfo, hpeel, hheader⟩ : Yields (w.program.context ⟨0⟩) fun c =>
      c.entry = ⟨0⟩ ∧ ∃ info ∈ c.loops,
        info.terminatedPeel? = some ⟨[⟨1⟩, ⟨3⟩], true, true⟩ ∧ info.header = ⟨1⟩ := by
    decide +kernel
  obtain ⟨c₁, hc₁, hat₁⟩ : Yields (w.program.context ⟨1⟩) (·.entry = ⟨1⟩) := by decide +kernel
  obtain ⟨c₃, hc₃, hat₃⟩ : Yields (w.program.context ⟨3⟩) (·.entry = ⟨3⟩) := by decide +kernel
  rw [Program.context_eq_ok] at hc₀ hc₁ hc₃
  have hheads : Path w (fun _ => false)
      (.way (fun _ _ => True) (.block ⟨0⟩ ⟨0⟩) (.block ⟨0⟩ ⟨1⟩)) x x :=
    Path.here.go (t := ⟨1⟩) hentry .done rfl (by decide)
      (leads_block (by decide +kernel) (by decide +kernel))
  have hfirst := hheads.first ⟨c₀, hc₀, info, hinfo, _, hpeel, hheader, rfl⟩ hc₁
  rw [hat₁] at hfirst
  have hback := hfirst.go (t := ⟨1⟩) hbody .done rfl (by decide) (leads_back (by decide +kernel))
  have hnext := hback.next ⟨⟨0⟩, c₀, hc₀, info, hinfo, _, 0, hpeel, rfl, rfl⟩ hc₃
  rw [hat₃, ← hat₀] at hnext
  obtain ⟨c, hc, hb, hconds⟩ := hlast.spec
  exact ⟨_, .function 1 hc₀ hnext hc hb hconds .nil (.instr 2 rfl .here), by decide +kernel⟩

/-- Of two peels that share their first iteration only one is walked. The load in the second
iteration of the other one, after a fence, needs a check on the path that leads there, and no need
is recorded for it. -/
theorem path_missed_by_twin_peels :
    let w := linkedSetting twinPeels
    (twinPeels.link = .ok w.program ∧ Layout.ofProgram w.program = .ok w.layout) ∧
      (w.program.OwnNames ∧ w.program.Structured w.layout) ∧
      (∀ inst ∈ w.program.instrs, inst.op.ReadsBytes) ∧
      (∃ z, Meets w (fun _ => false) (.function ⟨0⟩) (.trusting 0)
          (loadAll 1 (.known (.scalar 1))) z ∧
        replayNeed w false (loadAll 1 (.known (.scalar 1))) z = .must) ∧
      Yields (run w (.trusting 0) { clock := 1 }) fun r => r.2.findings.needs.get? ⟨1⟩ = none := by
  intro w
  have hinstrs : w.program.instrs =
      [⟨⟨0⟩, .fence, false, .none, true⟩, loadAll 1 (.known (.scalar 1))] := by
    decide +kernel
  obtain ⟨hown, hs⟩ := advancing_linkedSetting (p := twinPeels) (by decide +kernel)
    (by decide +kernel) (by decide +kernel) (by decide +kernel)
  refine ⟨linkedSetting_spec (by decide +kernel),
    ⟨hown, hs.structured (by decide +kernel) (by decide +kernel)⟩, ?_, meets_twinPeels,
    yields_run 4 (by decide +kernel)⟩
  rw [hinstrs]
  simp [loadAll, Operation.ReadsBytes]

end Walk

end ByteTrust
