import ByteTrust.Proofs.DeadStore.Answers
import ByteTrust.Proofs.Interference.EdgeOrder
import ByteTrust.Proofs.Interference.Promotions
import ByteTrust.Report

/-!
# The order of edges in an analysis

A search for readers follows the edges out of a block in the order in which they are listed, and
remembers what it has seen on the way. Its answer does not depend on either: it is right whenever
there is one, and the paths through two programs that differ in the order of edges are the same.
With this, and as the walks find the same, the whole analysis of the two gives one report
(`analyze_reordered`).
-/

namespace ByteTrust

/-- The block has the instructions of `b`, ends like it and has its edges. -/
structure Block.Resembles (b b' : Block) : Prop where
  insts : b'.insts = b.insts
  terminator : b'.terminator = b.terminator
  liveSuccs : b.liveSuccs ⊆ b'.liveSuccs

/-- The context is like `c`, with blocks that are like those of `c`. -/
structure Context.Resembles (c c' : Context) : Prop where
  kind : c'.kind = c.kind
  parent : c'.parent = c.parent
  entry : c'.entry = c.entry
  materialized : c'.materialized = c.materialized
  block : ∀ {b block}, c.blocks.get? b = some block →
    ∃ block', c'.blocks.get? b = some block' ∧ block.Resembles block'

namespace DeadStore

open Relation

/-! ## Paths -/

/-- The paths of `q` are paths of `q'`. -/
structure Retraces (q q' : Setting) : Prop where
  layout : q'.layout = q.layout
  verdicts : q'.verdicts = q.verdicts
  checked : q'.checked = q.checked
  context : ∀ {k c}, q.program.contexts.get? k = some c →
    ∃ c', q'.program.contexts.get? k = some c' ∧ c.Resembles c'

namespace Retraces

variable {q q' : Setting} {w : Write} {k k' : Cursor} {c : Context} {block : Block}

theorem stands (h : Retraces q q') (hk : Stands q k c block) :
    ∃ c' block', Stands q' k c' block' ∧ c.Resembles c' ∧ block.Resembles block' := by
  obtain ⟨c', hc', hcc'⟩ := h.context hk.found
  obtain ⟨block', hb', hbb'⟩ := hcc'.block hk.holds
  exact ⟨c', block', ⟨hc', hb'⟩, hcc', hbb'⟩

theorem function (h : Retraces q q') (k : Cursor) : k.function q' = k.function q := by
  rw [Cursor.function, Cursor.function, h.layout]

theorem leaves {t : Terminator} (h : Retraces q q') (hk : Leaves q w k c block t) :
    ∃ c' block', Leaves q' w k c' block' t ∧ c.Resembles c' ∧ block.Resembles block' := by
  obtain ⟨c', block', hk', hcc', hbb'⟩ := h.stands hk.stands
  refine ⟨c', block', ⟨hk', ?_, hbb'.terminator.trans hk.terminator, ?_⟩, hcc', hbb'⟩
  · rw [hbb'.insts]
    exact hk.finished
  · rw [h.function]
    exact hk.outlives

theorem reads {c' : Context} {inst : Instr} (h : Retraces q q') (hcc' : c.Resembles c') :
    Reads q' w c' inst ↔ Reads q w c inst := by
  constructor
  · intro hread
    cases hread with
    | load hop halias hkept =>
      exact .load hop halias (hcc'.materialized ▸ h.checked ▸ hkept)
    | memcpy hop halias hlive => exact .memcpy hop halias (h.verdicts ▸ hlive)
    | atomic hop halias => exact .atomic hop halias
    | realloc hop halias => exact .realloc hop halias
    | call hop hcallee href => exact .call hop hcallee href
  · intro hread
    cases hread with
    | load hop halias hkept =>
      exact .load hop halias (by rwa [hcc'.materialized, h.checked])
    | memcpy hop halias hlive => exact .memcpy hop halias (by rwa [h.verdicts])
    | atomic hop halias => exact .atomic hop halias
    | realloc hop halias => exact .realloc hop halias
    | call hop hcallee href => exact .call hop hcallee href

theorem moves (h : Retraces q q') (hmove : Moves q w k k') : Moves q' w k k' := by
  cases hmove with
  | past hk hinst hread hfree henter hwrite =>
    obtain ⟨c', block', hk', hcc', hbb'⟩ := h.stands hk
    exact .past hk' (hbb'.insts ▸ hinst) (fun hread' => hread ((h.reads hcc').1 hread')) hfree
      henter hwrite
  | enter hk hinst hcall hcallee =>
    obtain ⟨c', block', hk', -, hbb'⟩ := h.stands hk
    obtain ⟨d', hd', hdd'⟩ := h.context hcallee
    exact hdd'.entry ▸ .enter hk' (hbb'.insts ▸ hinst) hcall hd'
  | resume hk hstack =>
    obtain ⟨c', block', hk', -, -⟩ := h.leaves hk
    exact .resume hk' hstack
  | toCaller hk hstack hroot hi hplace =>
    obtain ⟨c', block', hk', -, -⟩ := h.leaves hk
    obtain ⟨d', hd', hdd'⟩ := h.context hroot
    refine .toCaller hk' hstack (by rwa [h.function]) ?_ (by rwa [h.layout])
    rwa [Context.callers, hdd'.kind]
  | branch hk htarget hedge howner =>
    obtain ⟨c', block', hk', hcc', hbb'⟩ := h.leaves hk
    refine .branch hk' (hbb'.liveSuccs htarget) (by rwa [hcc'.kind]) ?_
    rwa [h.function, h.layout]
  | again hk htarget hkind hparent hnext hd =>
    obtain ⟨c', block', hk', hcc', hbb'⟩ := h.leaves hk
    obtain ⟨d', hd', hdd'⟩ := h.context hd
    exact hdd'.entry ▸ .again hk' (hbb'.liveSuccs htarget) (hcc'.kind ▸ hkind)
      (hcc'.parent ▸ hparent) (h.layout ▸ hnext) hd'

theorem observes (h : Retraces q q') (hobs : Observes q w k) : Observes q' w k := by
  cases hobs with
  | read hk hinst hread =>
    obtain ⟨c', block', hk', hcc', hbb'⟩ := h.stands hk
    exact .read hk' (hbb'.insts ▸ hinst) ((h.reads hcc').2 hread)
  | escape hk hstack hroot hcallers =>
    obtain ⟨c', block', hk', -, -⟩ := h.leaves hk
    obtain ⟨d', hd', hdd'⟩ := h.context hroot
    refine .escape hk' hstack (by rwa [h.function]) ?_
    rwa [Context.callers, hdd'.kind]
  | beyond hk htarget hkind hparent hnext =>
    obtain ⟨c', block', hk', hcc', hbb'⟩ := h.leaves hk
    exact .beyond hk' (hbb'.liveSuccs htarget) (hcc'.kind ▸ hkind) (hcc'.parent ▸ hparent)
      (h.layout ▸ hnext)

/-- A write that may be read along a path of `q` is not dead in `q'`. -/
theorem isDead (h : Retraces q q') (hq : Rooted q) {place : Place}
    (hlive : DeadStore.isDead q w place = .ok false) : DeadStore.isDead q' w place ≠ .ok true := by
  intro hdead
  obtain ⟨k, hpath, hobs⟩ := leaks_of_isDead hq hlive
  refine not_leaks_of_isDead hdead ⟨k, ?_, h.observes hobs⟩
  exact ReflTransGen.mono (fun _ _ => h.moves) _ _ hpath

end Retraces

/-! ## Searches -/

variable {p : Program} {σ : EdgeOrder} {l : Layout} {verdicts : IdentMap .inst Verdict}
  {checked : IdentSet .inst} {w : Write} {place : Place}

theorem resembles_reorder (k : ContextId) (c : Context) :
    c.Resembles (c.reorder σ k) ∧ (c.reorder σ k).Resembles c := by
  have hperm (block : Block) := Program.liveSuccs_reorder (σ := σ) (k := k) block
  have hget (b : BlockId) :
      (c.reorder σ k).blocks.get? b = (c.blocks.get? b).map (Block.reorder σ k) :=
    Table.get?_mapValues _ _ b
  constructor <;> refine ⟨rfl, rfl, rfl, rfl, fun {b block} hb => ?_⟩
  · refine ⟨block.reorder σ k, ?_, rfl, rfl, (hperm block).symm.subset⟩
    rw [hget, hb, Option.map_some]
  · rw [hget, Option.map_eq_some_iff] at hb
    obtain ⟨block₁, hb, rfl⟩ := hb
    exact ⟨block₁, hb, rfl, rfl, (hperm block₁).subset⟩

theorem retraces_reorder (p : Program) (σ : EdgeOrder) (l : Layout)
    (verdicts : IdentMap .inst Verdict) (checked : IdentSet .inst) :
    Retraces ⟨p, l, verdicts, checked⟩ ⟨p.reorder σ, l, verdicts, checked⟩ ∧
      Retraces ⟨p.reorder σ, l, verdicts, checked⟩ ⟨p, l, verdicts, checked⟩ := by
  have hget (k : ContextId) :
      (p.reorder σ).contexts.get? k = (p.contexts.get? k).map (Context.reorder σ k) :=
    Table.get?_mapValues _ _ k
  refine ⟨⟨rfl, rfl, rfl, fun {k c} hc => ?_⟩, ⟨rfl, rfl, rfl, fun {k c} hc => ?_⟩⟩
  · exact ⟨c.reorder σ k, by rw [hget, hc, Option.map_some], (resembles_reorder k c).1⟩
  · rw [hget, Option.map_eq_some_iff] at hc
    obtain ⟨c₁, hc, rfl⟩ := hc
    exact ⟨c₁, hc, (resembles_reorder k c₁).2⟩

/-! ## The sweep -/

mutual

theorem events_reorder (k : ContextId) (c : Context) :
    ∀ r : Region, events (c.reorder σ k) r = events c r
  | .block b => by
    rw [events, events, Context.reorder, Context.block_dress]
    cases c.block b <;> rfl
  | .loop info body => by rw [events, events, eventsAll_reorder k c body]

theorem eventsAll_reorder (k : ContextId) (c : Context) :
    ∀ rs : List Region, eventsAll (c.reorder σ k) rs = eventsAll c rs
  | [] => rfl
  | r :: rs => by
    rw [eventsAll, eventsAll, events_reorder k c r, eventsAll_reorder k c rs]

end

theorem collectCopies_reorder (fuel : Nat) (found : Found) (c : ContextId) :
    collectCopies (p.reorder σ) fuel found c = collectCopies p fuel found c := by
  induction fuel generalizing found c with
  | zero => rfl
  | succ fuel ih =>
    simp only [collectCopies, Program.context_reorder, ih]
    cases p.context c with
    | error fault => rfl
    | ok context =>
      have hevents : eventsAll (context.reorder σ c) (context.reorder σ c).regions =
          eventsAll context context.regions := eventsAll_reorder c context context.regions
      simp only [Except.map, ok_bind, hevents]
      rfl

theorem collect_reorder (wanted : Operation → Bool) :
    collect (p.reorder σ) l wanted = collect p l wanted := by
  unfold collect
  congr 2
  funext c
  rw [Program.context_reorder]
  cases p.context c with
  | error fault => rfl
  | ok context =>
    have hinstrs : (context.reorder σ c).instructions = context.instructions :=
      Context.instructions_dress ..
    simp only [Except.map, ok_bind, hinstrs]
    rfl

/-- Both computations give the same result, if they succeed. -/
def Concurs {α : Type} (m n : Except Fault α) : Prop := ∀ a b, m = .ok a → n = .ok b → b = a

theorem concurs_self {α : Type} (m : Except Fault α) : Concurs m m := fun _ _ ha hb =>
  Except.ok.inj (hb.symm.trans ha)

theorem Concurs.bind {α β : Type} {m n : Except Fault α} {f g : α → Except Fault β}
    (h : Concurs m n) (hf : ∀ a, Concurs (f a) (g a)) : Concurs (m >>= f) (n >>= g) := by
  intro b b' hb hb'
  obtain ⟨a, ha, hb⟩ := bind_eq_ok.1 hb
  obtain ⟨a', ha', hb'⟩ := bind_eq_ok.1 hb'
  obtain rfl := h a a' ha ha'
  exact hf _ b b' hb hb'

/-- Two searches that answer give the same answer. -/
theorem isDead_reorder (hp : Rooted ⟨p, l, verdicts, checked⟩) (w : Write) (place : Place) :
    Concurs (isDead ⟨p, l, verdicts, checked⟩ w place)
      (isDead ⟨p.reorder σ, l, verdicts, checked⟩ w place) := by
  intro dead dead' h h'
  obtain ⟨hforth, hback⟩ := retraces_reorder p σ l verdicts checked
  have hp' : Rooted ⟨p.reorder σ, l, verdicts, checked⟩ := fun k c hc hparent => by
    obtain ⟨c', hc', hcc'⟩ := hback.context hc
    have hfun := hp k c' hc' (hcc'.parent.trans hparent)
    rwa [Context.isFunction, hcc'.kind] at hfun
  cases dead <;> cases dead'
  · rfl
  · exact absurd h' (hforth.isDead hp h)
  · exact absurd h (hback.isDead hp' h')
  · rfl

/-- Every iteration of the program has a context around it. -/
theorem rooted_of_checkNames (h : p.checkNames = .ok ()) (l : Layout)
    (verdicts : IdentMap .inst Verdict) (checked : IdentSet .inst) :
    Rooted ⟨p, l, verdicts, checked⟩ := fun k c hc hparent =>
  ((Program.checkNames_eq_ok h).2 c (Table.mem_values.2 ⟨k, hc⟩)).top hparent

theorem judge_reorder (hp : p.checkNames = .ok ()) (verdicts : IdentMap .inst Verdict)
    (inst : InstId) :
    Concurs (judge p l checked verdicts inst) (judge (p.reorder σ) l checked verdicts inst) := by
  have hinstr : (p.reorder σ).instruction = p.instruction := funext Program.instruction_dress
  have hobjects : (p.reorder σ).objects = p.objects := rfl
  have hwrite : Write.ofInstr? (p.reorder σ) = Write.ofInstr? p := by
    funext i
    rw [Write.ofInstr?, Write.ofInstr?, hobjects]
  unfold judge
  rw [hinstr, hwrite]
  refine (concurs_self _).bind fun place => (concurs_self _).bind fun instr => ?_
  cases Write.ofInstr? p instr with
  | none => exact concurs_self _
  | some w =>
    have hdead := isDead_reorder (σ := σ) (rooted_of_checkNames hp l verdicts checked) w place
    exact hdead.bind fun _ => concurs_self _

theorem foldlM_judge_reorder (hp : p.checkNames = .ok ()) (verdicts : IdentMap .inst Verdict)
    (insts : List InstId) : Concurs (insts.foldlM (judge p l checked) verdicts)
      (insts.foldlM (judge (p.reorder σ) l checked) verdicts) := by
  induction insts generalizing verdicts with
  | nil =>
    rw [List.foldlM_nil, List.foldlM_nil]
    exact concurs_self _
  | cons inst insts ih =>
    rw [List.foldlM_cons, List.foldlM_cons]
    exact (judge_reorder hp verdicts inst).bind ih

theorem sweep_reorder (hp : p.checkNames = .ok ()) (settings : DeadStoreSettings) :
    Concurs (sweep p l settings checked) (sweep (p.reorder σ) l settings checked) := by
  have hbound : (p.reorder σ).climbBound = p.climbBound := Program.climbBound_dress
  have hroot : (p.reorder σ).root = p.root := rfl
  have hjudge (verdicts : IdentMap .inst Verdict) (insts : List InstId) :
      Concurs (insts.foldlM (judge p l checked) verdicts)
        (insts.foldlM (judge (p.reorder σ) l checked) verdicts) := foldlM_judge_reorder hp _ _
  unfold sweep
  simp only [collectCopies_reorder, collect_reorder, hbound, hroot]
  split
  · exact concurs_self _
  have hrest (copies : List InstId) : Concurs
      (do
        let verdicts ← copies.foldlM (judge p l checked) ∅
        let verdicts ← (← collect p l isPlainWrite).foldlM (judge p l checked) verdicts
        if settings.allocations then (← collect p l isAlloc).foldlM (judge p l checked) verdicts
        else return verdicts)
      (do
        let verdicts ← copies.foldlM (judge (p.reorder σ) l checked) ∅
        let verdicts ← (← collect p l isPlainWrite).foldlM (judge (p.reorder σ) l checked) verdicts
        if settings.allocations then
          (← collect p l isAlloc).foldlM (judge (p.reorder σ) l checked) verdicts
        else return verdicts) := by
    refine (hjudge ∅ copies).bind fun v => (concurs_self _).bind fun writes =>
      (hjudge v writes).bind fun v => ?_
    split
    · exact (concurs_self _).bind fun allocs => hjudge v allocs
    · exact concurs_self _
  split
  · exact (concurs_self _).bind hrest
  · exact (concurs_self _).bind hrest

end DeadStore

/-! ## The analysis -/

/-- The order of edges does not matter: two programs that differ in nothing else have the same
report, and leave the same references. -/
theorem analyze_reordered {p p' q q' : Program} {settings : Settings} {references : References}
    {r r' : Report × References} (h : p.Reordered p') (hq : p.link = .ok q) (hq' : p'.link = .ok q')
    (hr : analyze q settings references = .ok r) (hr' : analyze q' settings references = .ok r') :
    r' = r := by
  obtain ⟨σ, rfl⟩ := h.link hq hq'
  obtain ⟨hnames, -⟩ := Program.link_eq_ok hq
  simp only [analyze, bind_eq_ok, pure_eq_ok, Except.ok.injEq] at hr hr'
  obtain ⟨l, hl, ⟨out, s⟩, hrun, checked, hchecked, counts, hcounts, verdicts, hverdicts, rfl⟩ := hr
  obtain ⟨l', hl', ⟨out', s'⟩, hrun', checked', hchecked', counts', hcounts', verdicts',
    hverdicts', rfl⟩ := hr'
  rw [Program.reorder, Layout.ofProgram_dress, hl] at hl'
  cases hl'
  obtain ⟨-, hsame⟩ := Walk.mimics_run _ _ _ _ _ _ _ (.refl _) hrun hrun'
  have hfindings : s'.findings = s.findings := hsame.findings.symm
  dsimp only at hchecked hchecked' hcounts hcounts'
  rw [hfindings] at hchecked' hcounts'
  cases hchecked.symm.trans (Walk.runtimeChecks_reorder.symm.trans hchecked')
  cases hcounts.symm.trans (Walk.checkCounts_reorder.symm.trans hcounts')
  obtain rfl := DeadStore.sweep_reorder hnames _ _ _ hverdicts hverdicts'
  rw [hfindings, hsame.references]

namespace DeadStore

/-- Where only one write is tried. -/
theorem sweep_single {inst : InstId} {v : IdentMap .inst Verdict}
    (hcopies : Yields (collectCopies p p.climbBound {} p.root) fun found => found.copies = [])
    (hwrites : collect p l isPlainWrite = .ok [inst]) (hallocs : collect p l isAlloc = .ok [])
    (hjudge : judge p l checked ∅ inst = .ok v) : sweep p l {} checked = .ok v := by
  obtain ⟨⟨seen, copies⟩, hcopies, rfl⟩ := hcopies
  refine bind_eq_ok.2 ⟨[], by rw [hcopies]; rfl, bind_eq_ok.2 ⟨∅, rfl, ?_⟩⟩
  refine bind_eq_ok.2 ⟨_, hwrites, bind_eq_ok.2 ⟨v, ?_, bind_eq_ok.2 ⟨_, hallocs, rfl⟩⟩⟩
  rw [List.foldlM_cons, hjudge, ok_bind, List.foldlM_nil, pure_eq_ok]

theorem judge_of_answer? {inst : InstId} {instr : Instr} {n : Nat} {dead : Bool}
    (hplace : l.place inst = .ok place) (hinstr : p.instruction place = .ok instr)
    (hwrite : Write.ofInstr? p instr = some w)
    (h : State.answer? ⟨p, l, verdicts, checked⟩ w n
      { work := [⟨{ place with index := place.index + 1 }, [], w.fresh⟩] } = some dead) :
    judge p l checked verdicts inst =
      .ok (verdicts.insert inst (if dead then .dead else .live)) := by
  have hdead : isDead ⟨p, l, verdicts, checked⟩ w place = .ok dead := by
    rw [isDead, State.run_of_answer? h, Option.getD_some]
  refine bind_eq_ok.2 ⟨place, hplace, bind_eq_ok.2 ⟨instr, hinstr, ?_⟩⟩
  rw [hwrite]
  exact bind_eq_ok.2 ⟨dead, hdead, rfl⟩

end DeadStore

/-- A store, a fork with a fence in the one branch, and a load where the branches join. -/
def forked (succs : List Successor) : Program where
  objects := .ofList [(⟨0⟩, ⟨⟨0⟩, .heap, some 8, none⟩)]
  contexts := .ofList [(⟨0⟩,
    { id := ⟨0⟩
      kind := .function ⟨0⟩ "f" []
      blocks := .ofList [
        (⟨0⟩, { id := ⟨0⟩, insts := [⟨⟨0⟩, .store (.single ⟨0⟩ 0) 8, false, .none, true⟩]
                succs := succs }),
        (⟨1⟩, { id := ⟨1⟩, insts := [Walk.fenceAt 1], succs := [⟨⟨3⟩, true⟩] }),
        (⟨2⟩, { id := ⟨2⟩, succs := [⟨⟨3⟩, true⟩] }),
        (⟨3⟩, { id := ⟨3⟩, insts := [Walk.loadAll 3 (.known (.scalar 1))], terminator := .ret })]
      regions := [.block ⟨0⟩, .block ⟨1⟩, .block ⟨2⟩, .block ⟨3⟩]
      entry := ⟨0⟩ })]
  root := ⟨0⟩

/-- The store. -/
def forkedWrite : DeadStore.Write := ⟨⟨0⟩, ⟨⟨0⟩, 0⟩, some 8, .heap⟩

/-- What an analysis finds in such a program: the load needs a check, and it reads the store. -/
structure Forks (w : Walk.Setting) : Prop where
  layout : Layout.ofProgram w.program = .ok w.layout
  settings : w.settings = {}
  walk : Yields (Walk.run w (.trusting 0) { clock := 1 }) fun r =>
    Yields (Walk.runtimeChecks w r.2.findings) fun checked =>
      Yields (Walk.checkCounts w r.2.findings) fun _ =>
        r.2.findings.needs.get? ⟨3⟩ = some .must ∧
          DeadStore.State.answer? ⟨w.program, w.layout, ∅, checked⟩ forkedWrite 8
            { work := [⟨⟨⟨0⟩, ⟨0⟩, 1⟩, [], forkedWrite.fresh⟩] } = some false
  copies : Yields (DeadStore.collectCopies w.program w.program.climbBound {} w.program.root)
    fun found => found.copies = []
  writes : Yields (DeadStore.collect w.program w.layout DeadStore.isPlainWrite) (· = [⟨0⟩])
  allocs : Yields (DeadStore.collect w.program w.layout DeadStore.isAlloc) (· = [])
  place : Yields (w.layout.place ⟨0⟩) (· = ⟨⟨0⟩, ⟨0⟩, 0⟩)
  write : Yields (w.program.instruction ⟨⟨0⟩, ⟨0⟩, 0⟩) fun inst =>
    DeadStore.Write.ofInstr? w.program inst = some forkedWrite

theorem Forks.analyze {w : Walk.Setting} (h : Forks w) :
    Yields (analyze w.program {} {}) fun r =>
      r.1.needs.get? ⟨3⟩ = some .must ∧ r.1.deadStores.get? ⟨0⟩ = some .live := by
  obtain ⟨p, l, settings⟩ := w
  obtain ⟨hl, rfl, hwalk, hcopies, ⟨_, hwrites, rfl⟩, ⟨_, hallocs, rfl⟩, ⟨_, hplace, rfl⟩, inst,
    hinst, hwrite⟩ := h
  obtain ⟨⟨out, s⟩, hrun, checked, hchecked, counts, hcounts, hneed, hanswer⟩ := hwalk
  have hsweep := DeadStore.sweep_single hcopies hwrites hallocs
    (DeadStore.judge_of_answer? hplace hinst hwrite hanswer)
  refine ⟨_, bind_eq_ok.2 ⟨l, hl, bind_eq_ok.2 ⟨_, hrun, bind_eq_ok.2 ⟨_, hchecked,
    bind_eq_ok.2 ⟨_, hcounts, bind_eq_ok.2 ⟨_, hsweep, rfl⟩⟩⟩⟩⟩, hneed, ?_⟩
  exact IdentMap.get?_insert ..

/-- Whichever edge comes first, the load needs a check and keeps the store alive. -/
theorem analyze_reordered_forked :
    let p := forked [⟨⟨1⟩, true⟩, ⟨⟨2⟩, true⟩]
    let p' := forked [⟨⟨2⟩, true⟩, ⟨⟨1⟩, true⟩]
    Yields p.link fun q => Yields p'.link fun q' =>
      Yields (analyze q {} {}) fun r => Yields (analyze q' {} {}) fun r' =>
        r.1.needs.get? ⟨3⟩ = some .must ∧ r.1.deadStores.get? ⟨0⟩ = some .live ∧ r' = r := by
  have hforks (succs : List Successor) (h : succs = [⟨⟨1⟩, true⟩, ⟨⟨2⟩, true⟩] ∨
      succs = [⟨⟨2⟩, true⟩, ⟨⟨1⟩, true⟩]) : Forks (Walk.linkedSetting (forked succs)) := by
    rcases h with rfl | rfl <;>
      exact ⟨(Walk.linkedSetting_spec (by decide +kernel)).2, rfl,
        Walk.yields_run 3 (by decide +kernel), by decide +kernel, by decide +kernel,
        by decide +kernel, by decide +kernel, by decide +kernel⟩
  intro p p'
  obtain ⟨hlink, -⟩ := Walk.linkedSetting_spec (p := p) (by decide +kernel)
  obtain ⟨hlink', -⟩ := Walk.linkedSetting_spec (p := p') (by decide +kernel)
  obtain ⟨r, hr, hneed, hlive⟩ := (hforks _ (.inl rfl)).analyze
  obtain ⟨r', hr', -⟩ := (hforks _ (.inr rfl)).analyze
  have hreordered : p.Reordered p' := by
    refine ⟨.cons ⟨rfl, ?_, rfl⟩ .nil, rfl⟩
    refine .cons ⟨rfl, .swap .., rfl⟩ (.cons ⟨rfl, .refl _, rfl⟩ (.cons ⟨rfl, .refl _, rfl⟩
      (.cons ⟨rfl, .refl _, rfl⟩ .nil)))
  exact ⟨_, hlink, _, hlink', r, hr, r', hr', hneed, hlive,
    analyze_reordered hreordered hlink hlink' hr hr'⟩

end ByteTrust
