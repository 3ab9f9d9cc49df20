import ByteTrust.Proofs.Interference.EveryPath

/-!
# What a run leaves over

The walk takes the regions of a context in order and never turns back, so what is left for a block
is picked up only if the turn of the block is still to come. Control goes `Astray` at a block where
this fails: an edge leads to it against the order of regions, or past the header into a loop, or the
context itself starts there. Whatever a run leaves over waits for such a block; no back edge of an
iteration and no return is ever left over (`leftover_astray`).

Every task is given the bins `W` that are open when it ends (`Outlets`). Walks of one function may
run within each other here: the outer one only has more open bins.
-/

namespace ByteTrust

namespace Program

open Region

variable {p : Program} {l : Layout} {o k : ContextId} {t : BlockId}

/-- What is left for the block `t` of `o` may come after its turn. -/
inductive Astray (p : Program) (l : Layout) (o : ContextId) (t : BlockId) : Prop
  /-- The context starts there, and no region does. -/
  | entry {d : Context} (hd : p.contexts.get? o = some d) (ht : d.entry = t)
      (hstart : t ∉ d.regions.map start)
  /-- An edge leads there, no region that comes after it starts there, and it is not the back edge
  of a loop around. -/
  | edge {d : Context} {b : BlockId} {block : Block} {rs : List Region} {later : List BlockId}
      {around : List Loop} (hd : p.contexts.get? o = some d)
      (hcut : Cut d (.block b :: rs) later around) (hb : d.blocks.get? b = some block)
      (ht : t ∈ block.liveSuccs) (hback : Walk.isBackEdge d b t = false)
      (howner : l.edgeOwner? p o t = some o) (hlater : t ∉ rs.map start ++ later)
      (haround : ∀ info ∈ around, b = info.latch → t ≠ info.header)
  /-- An edge leads there out of an iteration, and no region that comes after the loop of the
  iteration starts there. -/
  | leave {k child : ContextId} {c d : Context} {b : BlockId} {block : Block} {info : Loop}
      {body rs : List Region} {later : List BlockId} {around : List Loop} {peel : PeelAttempt}
      (hc : p.contexts.get? k = some c) (hb : c.blocks.get? b = some block)
      (ht : t ∈ block.liveSuccs) (hback : Walk.isBackEdge c b t = false)
      (howner : l.edgeOwner? p k t = some o) (hwithin : p.Within k child)
      (henc : p.Encloses child o) (hd : p.contexts.get? o = some d)
      (hcut : Cut d (.loop info body :: rs) later around)
      (hpeel : info.terminatedPeel? = some peel) (hchild : child ∈ peel.iterations)
      (hlater : t ∉ rs.map start ++ later)

/-- In an orderly program nothing goes astray. -/
theorem Orderly.not_astray (ho : p.Orderly l) : ¬ p.Astray l o t := by
  rintro (⟨hd, rfl, hstart⟩ | ⟨hd, hcut, hb, ht, hback, howner, hlater, haround⟩ |
    ⟨hc, hb, ht, hback, howner, hwithin, henc, hd, hcut, hpeel, hchild, hlater⟩)
  · exact hstart (ho.entered hd)
  · rcases ho.forward hd hcut hb ht hback howner with hmem | ⟨info, hinfo, hlatch, hheader⟩
    · exact hlater hmem
    · exact haround info hinfo hlatch hheader
  · exact hlater (ho.leaving hc hb ht hback howner hwithin henc hd hcut hpeel hchild)

/-- Checker functions are functions. -/
theorem checkNames_checker (h : p.checkNames = .ok ()) {cond : PathCondition}
    (hcond : cond ∈ p.pathConditions) (hfact : cond.fact = .checker k) :
    ∃ c, p.contexts.get? k = some c ∧ c.isFunction = true := by
  rw [checkNames, bind_eq_ok] at h
  obtain ⟨⟨⟩, -, h⟩ := h
  rw [bind_eq_ok] at h
  obtain ⟨⟨⟩, -, h⟩ := h
  have hchecked := forM_eq_ok.1 h cond hcond
  simp only [hfact] at hchecked
  exact checkFunction_eq_ok hchecked

end Program

namespace Walk

open Snapshot Region

variable {w : Setting} {W W' : Bin → Prop} {scope : Scope} {c d : Context} {s s' s₁ s₂ s₃ : State}
  {x y : Snapshot} {out : Option Snapshot} {k : Bin} {g it : ContextId} {b t : BlockId}
  {block : Block} {r : Region} {rs body : List Region} {later : List BlockId} {around : List Loop}
  {info : Loop} {peel : PeelAttempt} {loops : List ActiveLoop} {inst : Instr}

/-! ## Where snapshots wait -/

/-- Snapshots wait in the bins `W` only. -/
def WaitsIn (W : Bin → Prop) (s : State) : Prop := ∀ k, s.bin k ≠ [] → W k

namespace WaitsIn

theorem mono (h : WaitsIn W s) (hW : ∀ k, W k → W' k) : WaitsIn W' s := fun k hk => hW k (h k hk)

theorem of_bin (h : WaitsIn W s) (hbin : ∀ k, s'.bin k = s.bin k) : WaitsIn W s' :=
  fun k hk => h k (hbin k ▸ hk)

theorem still (h : WaitsIn W s) (hstill : Still s s') : WaitsIn W s' := h.of_bin hstill.bin

theorem leave (h : WaitsIn W s) (hk : W k) : WaitsIn W (s.leave x k) := by
  intro j hj
  rw [bin_leave] at hj
  split at hj
  · next heq => exact heq ▸ hk
  · exact h j hj

theorem clear (h : WaitsIn W' s) (hW : ∀ j, W' j → W j ∨ j = k) : WaitsIn W (s.clear k) := by
  intro j hj
  rw [bin_clear] at hj
  split at hj
  · exact (hj rfl).elim
  · next hne => exact (hW j (h j hj)).resolve_right hne

/-- A bin that is picked up is closed. -/
theorem pick (h : WaitsIn W' s) (hpick : Picks s k out s') (hW : ∀ j, W' j → W j ∨ j = k) :
    WaitsIn W s' :=
  (h.clear hW).still hpick.still

theorem pick_start (h : WaitsIn (Opens W g [b]) s) (hpick : Picks s (.block g b) out s') :
    WaitsIn W s' :=
  h.pick hpick fun j hj => hj.imp id fun ⟨t, ht, hj⟩ => by rw [hj, List.mem_singleton.1 ht]

theorem foldl_leave {ds : List Destination} (h : WaitsIn W s) (hds : ∀ d ∈ ds, W d.bin) :
    WaitsIn W (ds.foldl (fun s d => s.leave x d.bin) s) := by
  induction ds generalizing s with
  | nil => exact h
  | cons d ds ih =>
    rw [List.forall_mem_cons] at hds
    exact ih (h.leave hds.1) hds.2

end WaitsIn

/-- Nothing is pending when nothing waits for a block, at a back edge or at a return. -/
theorem pending_eq_zero (hblock : ∀ g b, s.bin (.block g b) = [])
    (hback : ∀ g, s.bin (.back g) = []) (hreturns : ∀ g, s.bin (.returns g) = []) :
    s.pending = 0 := by
  have hnone {α : Type} [DecidableEq α] (t : Table α (List Snapshot))
      (ht : ∀ a, (t.get? a).getD [] = []) : t.values.flatten.length = 0 := by
    rw [List.length_eq_zero_iff, List.flatten_eq_nil_iff]
    intro ys hys
    obtain ⟨a, ha⟩ := Table.mem_values.1 hys
    have hempty := ht a
    rwa [ha] at hempty
  rw [State.pending, hnone s.incoming fun a => hblock a.1 a.2, hnone s.backEdges hback,
    hnone s.returns hreturns]

/-! ## Open bins -/

/-- The bins of blocks where control goes astray are open, and those of back edges of loops, which
the walk drops. -/
structure Catches (w : Setting) (W : Bin → Prop) : Prop where
  astray : ∀ {o t}, w.program.Astray w.layout o t → W (.block o t)
  closing : ∀ o t, W (.closing o t)

theorem Catches.mono (h : Catches w W) (hW : ∀ k, W k → W' k) : Catches w W' :=
  ⟨fun ha => hW _ (h.astray ha), fun o t => hW _ (h.closing o t)⟩

/-- A context is entered at the start of a region, unless control goes astray there. -/
theorem Catches.entry (h : Catches w W) (hd : w.program.contexts.get? g = some d) :
    Opens W g (d.regions.map start) (.block g d.entry) := by
  by_cases hstart : d.entry ∈ d.regions.map start
  · exact .inr ⟨_, hstart, rfl⟩
  · exact .inl (h.astray (.entry hd rfl hstart))

/-- The walk stands in the context `c`, with the places `later` still to come after the task at hand
and the loops `around` it. Every way out leads to an open bin. -/
structure Outlets (w : Setting) (W : Bin → Prop) (scope : Scope) (c : Context)
    (later : List BlockId) (around : List Loop) : Prop extends Catches w W where
  found : w.program.contexts.get? scope.context = some c
  returns : W (.returns (w.layout.functionRoot scope.context))
  back : c.isFunction = false → W (.back scope.context)
  leaving : ∀ {child o d}, w.program.Within scope.context child → w.program.Encloses child o →
    w.program.contexts.get? o = some d → ∃ info body rs later around peel,
      Cut d (.loop info body :: rs) later around ∧ info.terminatedPeel? = some peel ∧
        child ∈ peel.iterations ∧ ∀ t ∈ rs.map start ++ later, W (.block o t)
  later : ∀ t ∈ later, W (.block scope.context t)
  /-- A back edge of a loop around is dropped, or leads to an open header, or is never taken. -/
  heads : ∀ info ∈ around,
    (∃ a ∈ scope.loops, a.context = scope.context ∧ a.pass = .second ∧ a.header = info.header ∧
      a.latch = info.latch) ∨
    W (.block scope.context info.header) ∨
    ∀ block, c.blocks.get? info.latch = some block → block.hasLiveEdgeTo info.header = false

namespace Outlets

theorem mono (h : Outlets w W scope c later around) (hW : ∀ k, W k → W' k) :
    Outlets w W' scope c later around where
  toCatches := h.toCatches.mono hW
  found := h.found
  returns := hW _ h.returns
  back hc := hW _ (h.back hc)
  leaving hchild ho hd := by
    obtain ⟨info, body, rs, later, around, peel, hcut, hpeel, hmem, hopen⟩ :=
      h.leaving hchild ho hd
    exact ⟨info, body, rs, later, around, peel, hcut, hpeel, hmem, fun t ht => hW _ (hopen t ht)⟩
  later t ht := hW _ (h.later t ht)
  heads info hinfo := (h.heads info hinfo).imp id (.imp (hW _) id)

/-- Before the regions `rs` of a list, their starts are open. -/
theorem before (h : Outlets w W scope c later around) (rs : List Region) :
    Outlets w (Opens W scope.context (rs.map start)) scope c (rs.map start ++ later) around :=
  { h.mono fun _ => .inl with
    later := fun t ht => (List.mem_append.1 ht).elim (fun ht => .inr ⟨t, ht, rfl⟩)
      fun ht => .inl (h.later t ht) }

/-- The body of a loop whose back edge is never taken. -/
theorem once (h : Outlets w W scope c later around)
    (hdead : ∀ block, c.blocks.get? info.latch = some block →
      block.hasLiveEdgeTo info.header = false) : Outlets w W scope c later (info :: around) :=
  { h with heads := List.forall_mem_cons.2 ⟨.inr (.inr hdead), h.heads⟩ }

/-- The first pass over a loop leaves what comes over the back edge at the header. -/
theorem first (h : Outlets w W scope c later around) :
    Outlets w (Opens W scope.context [info.header]) (scope.over info body .first) c later
      (info :: around) where
  toCatches := h.toCatches.mono fun _ => .inl
  found := h.found
  returns := .inl h.returns
  back hc := .inl (h.back hc)
  leaving := (h.mono fun _ => .inl).leaving
  later t ht := .inl (h.later t ht)
  heads := by
    refine List.forall_mem_cons.2 ⟨.inr (.inl (.inr ⟨_, List.mem_singleton.2 rfl, rfl⟩)), ?_⟩
    intro info' hinfo'
    rcases h.heads info' hinfo' with ⟨a, ha, hact⟩ | hopen | hdead
    · exact .inl ⟨a, List.mem_cons_of_mem _ ha, hact⟩
    · exact .inr (.inl (.inl hopen))
    · exact .inr (.inr hdead)

/-- The second pass over a loop drops what comes over the back edge. -/
theorem second (h : Outlets w W scope c later around) :
    Outlets w W (scope.over info body .second) c later (info :: around) where
  toCatches := h.toCatches
  found := h.found
  returns := h.returns
  back := h.back
  leaving := h.leaving
  later := h.later
  heads := by
    refine List.forall_mem_cons.2 ⟨.inl ⟨_, List.mem_cons_self, rfl, rfl, rfl, rfl⟩, ?_⟩
    intro info' hinfo'
    exact (h.heads info' hinfo').imp
      (fun ⟨a, ha, hact⟩ => ⟨a, List.mem_cons_of_mem _ ha, hact⟩) id

/-- A function that is entered. -/
theorem function (hl : w.program.Linked w.layout) (h : Catches w W)
    (hd : w.program.contexts.get? g = some d) (hfun : d.isFunction = true)
    (loops : List ActiveLoop) (suppressed : Bool) :
    Outlets w (fun j => W j ∨ j = .returns g) ⟨g, loops, suppressed⟩ d [] [] where
  toCatches := h.mono fun _ => .inl
  found := hd
  returns := .inr (congrArg Bin.returns (hl.functionRoot_of_isFunction hd hfun))
  back hnot := by
    rw [hfun] at hnot
    cases hnot
  leaving {child o d'} hchild ho hd' := by
    have hnone {o : ContextId} : ¬ w.program.Encloses g o :=
      Program.not_encloses_of_isFunction hd hfun
    rcases Relation.ReflTransGen.cases_head hchild with rfl | ⟨o', hstep, -⟩
    · exact (hnone ho).elim
    · exact (hnone hstep).elim
  later := by simp
  heads := by simp

/-- An iteration of a loop in the present context. -/
theorem iteration (hl : w.program.Linked w.layout)
    (h : Outlets w W scope c (rs.map start ++ later) around)
    (hcut : Cut c (.loop info body :: rs) later around) (hpeel : info.terminatedPeel? = some peel)
    (hmem : it ∈ peel.iterations) (hd : w.program.contexts.get? it = some d) (suppressed : Bool) :
    Outlets w (fun j => W j ∨ j = .back it) ⟨it, scope.loops, suppressed⟩ d [] [] := by
  obtain ⟨i, hi⟩ := List.mem_iff_getElem?.1 hmem
  have hit := hl.iteration_encloses h.found (Program.Linked.cut_mem_loops hcut) hpeel hi
  have hwide : Outlets w (fun j => W j ∨ j = .back it) scope c (rs.map start ++ later) around :=
    h.mono fun _ => .inl
  refine ⟨hwide.toCatches, hd, hl.functionRoot_of_encloses hit ▸ hwide.returns,
    fun _ => .inr rfl, ?_, by simp, by simp⟩
  intro child o e hchild ho he
  rcases Relation.ReflTransGen.cases_head hchild with rfl | ⟨k, hstep, hchild⟩
  · obtain rfl := ho.unique hit
    cases h.found.symm.trans he
    exact ⟨info, body, rs, later, around, peel, hcut, hpeel, hmem, hwide.later⟩
  · obtain rfl := hstep.unique hit
    exact hwide.leaving hchild ho he

/-- What leaves a block goes to an open bin. -/
theorem route (hl : w.program.Linked w.layout)
    (h : Outlets w W scope c (rs.map start ++ later) around)
    (hcut : Cut c (.block b :: rs) later around) (hb : c.blocks.get? b = some block)
    (ht : t ∈ block.liveSuccs) {dest : Destination}
    (hroute : Walk.route w scope b t = .ok (some dest)) : W dest.bin := by
  cases route_spec hroute h.found with
  | back hback =>
    refine h.back ?_
    cases hkind : c.kind <;> simp_all [isBackEdge, Context.isFunction]
  | closing => exact h.closing _ _
  | @block o hback howner hkept =>
    rcases Program.Linked.edgeOwnerFrom_within howner with rfl | ⟨child, hchild, hlast⟩
    · by_cases hlater : t ∈ rs.map start ++ later
      · exact h.later t hlater
      by_cases haround : ∀ info ∈ around, b = info.latch → t ≠ info.header
      · exact h.astray (.edge h.found hcut hb ht hback howner hlater haround)
      · push Not at haround
        obtain ⟨info, hinfo, rfl, rfl⟩ := haround
        rcases h.heads info hinfo with ⟨a, ha, hctx, hpass, hheader, hlatch⟩ | hopen | hdead
        · refine (hkept ⟨a, ha, hctx, ?_⟩).elim
          simp [ActiveLoop.drops, hpass, hheader, hlatch]
        · exact hopen
        · cases (hdead block hb).symm.trans (hasLiveEdgeTo_of_mem ht)
    · obtain ⟨-, ⟨d, hd⟩, -⟩ := hl.edgeOwnerFrom_spec h.found howner
      obtain ⟨info, body, rs', later', around', peel, hcut', hpeel, hmem, hopen⟩ :=
        h.leaving hchild hlast hd
      by_cases hlater : t ∈ rs'.map start ++ later'
      · exact hopen t hlater
      · exact h.astray (.leave h.found hb ht hback howner hchild hlast hd hcut' hpeel hmem hlater)

/-- The end of a block leaves snapshots in open bins. -/
theorem finish (hl : w.program.Linked w.layout)
    (h : Outlets w W scope c (rs.map start ++ later) around)
    (hcut : Cut c (.block b :: rs) later around) (hb : c.blocks.get? b = some block)
    (hs : WaitsIn W s) (hfinish : Finishes w scope block out s s') : WaitsIn W s' := by
  cases hfinish with
  | stuck | unreachable | dropped => exact hs
  | ret _ _ _ hstill => exact (hs.leave h.returns).still hstill
  | branch _ _ hds =>
    refine hs.foldl_leave fun dest hdest => ?_
    obtain ⟨target, htarget, hroute⟩ := (hds dest).1 hdest
    rw [hl.block_id h.found hb] at hroute
    exact h.route hl hcut hb htarget hroute

end Outlets

/-! ## Walks empty the bins -/

/-- What a walk does to the bins: when it ends, snapshots wait in open bins only. -/
def Empties (w : Setting) : Task → State → State → Prop
  | .regions scope rs, s, s' => ∀ W c later around, Cut c rs later around →
      Outlets w W scope c later around → WaitsIn (Opens W scope.context (rs.map start)) s →
      WaitsIn W s'
  | .region scope r, s, s' => ∀ W c rs later around, Cut c (r :: rs) later around →
      Outlets w W scope c (rs.map start ++ later) around →
      WaitsIn (Opens W scope.context [r.start]) s → WaitsIn W s'
  | .iterations scope its _, s, s' => ∀ W c info body rs later around peel,
      Cut c (.loop info body :: rs) later around → info.terminatedPeel? = some peel →
      its ⊆ peel.iterations → Outlets w W scope c (rs.map start ++ later) around → WaitsIn W s →
      WaitsIn W s'
  | .conditions _ conds _, s, s' => ∀ W, conds ⊆ w.program.pathConditions → Catches w W →
      WaitsIn W s → WaitsIn W s'
  | .instrs _ _ insts _, s, s' => ∀ W, insts ⊆ w.program.instrs → Catches w W → WaitsIn W s →
      WaitsIn W s'
  | .function g _ _ _, s, s' => ∀ W d, w.program.contexts.get? g = some d → d.isFunction = true →
      Catches w W → WaitsIn W s → WaitsIn W s'

theorem empties_cons (hr : Empties w (.region scope r) s s₁)
    (hrs : Empties w (.regions scope rs) s₁ s') : Empties w (.regions scope (r :: rs)) s s' := by
  intro W c later around hcut hout hs
  refine hrs W c later around hcut.next hout (hr _ c rs later around hcut (hout.before rs) ?_)
  refine hs.mono fun j hj => ?_
  rcases hj with hj | ⟨t, ht, hj⟩
  · exact .inl (.inl hj)
  · rcases List.mem_cons.1 ht with rfl | ht
    · exact .inr ⟨_, List.mem_singleton.2 rfl, hj⟩
    · exact .inl (.inr ⟨t, ht, hj⟩)

section Linked

variable (hl : w.program.Linked w.layout)

include hl

theorem empties_block {conds : List PathCondition} {x₁ : Snapshot}
    (hblock : w.program.block scope.context b = .ok block)
    (hpick : Picks s (.block scope.context b) (some x) s₁)
    (hconds : conditionsAt w scope.context b = .ok conds)
    (hcond : Empties w (.conditions scope conds x) s₁ s₂)
    (hinsts : Empties w (.instrs scope block.certain block.insts x₁) s₂ s₃)
    (hfinish : Finishes w scope block out s₃ s') :
    Empties w (.region scope (.block b)) s s' := by
  intro W c rs later around hcut hout hs
  obtain ⟨c', hc', hb⟩ := Program.block_eq_ok.1 hblock
  cases hout.found.symm.trans hc'
  have hs₂ := hcond W (conditionsAt_subset hconds) hout.toCatches (hs.pick_start hpick)
  have hs₃ := hinsts W (fun inst hinst => (Program.mem_instrs hl.own).2
    ⟨_, c, b, block, hout.found, hb, hinst⟩) hout.toCatches hs₂
  exact hout.finish hl hcut hb hs₃ hfinish

/-- A pass over a loop begins with what is left at the header. -/
theorem waitsIn_pass {V : Bin → Prop} (hc : w.program.contexts.get? scope.context = some c)
    (hcut : Cut c (.loop info body :: rs) later around) (hpeel : info.terminatedPeel? = none)
    (hs : WaitsIn V s) :
    WaitsIn (Opens V scope.context (body.map start))
      (s.leave x (.block scope.context info.header)) := by
  obtain ⟨⟨rest, rfl⟩, -⟩ := hl.cut_body hc hcut hpeel
  exact (hs.mono fun _ => .inl).leave (.inr ⟨_, List.mem_cons_self, rfl⟩)

theorem empties_once {latch : Block} (hpeel : info.terminatedPeel? = none)
    (hpick : Picks s (.block scope.context info.header) (some x) s₁)
    (hlatch : w.program.block scope.context info.latch = .ok latch)
    (hback : latch.hasLiveEdgeTo info.header = false)
    (hbody : Empties w (.regions scope body) (s₁.leave x (.block scope.context info.header)) s') :
    Empties w (.region scope (.loop info body)) s s' := by
  intro W c rs later around hcut hout hs
  obtain ⟨c', hc', hget⟩ := Program.block_eq_ok.1 hlatch
  cases hout.found.symm.trans hc'
  refine hbody W c _ _ (hcut.body hpeel) (hout.once fun block hblock => ?_)
    (waitsIn_pass hl hout.found hcut hpeel (hs.pick_start hpick))
  cases hget.symm.trans hblock
  exact hback

theorem empties_twice {first second : Snapshot} {again : Option Snapshot} {s₄ s₅ : State}
    (hpeel : info.terminatedPeel? = none)
    (hpick : Picks s (.block scope.context info.header) (some first) s₁)
    (hfirst : Empties w (.regions (scope.over info body .first) body)
      (s₁.leave first (.block scope.context info.header)) s₂)
    (hagain : Picks s₂ (.block scope.context info.header) again s₃) (hstill : Still s₃ s₄)
    (hsecond : Empties w (.regions (scope.over info body .second) body)
      (s₄.leave second (.block scope.context info.header)) s₅) :
    Empties w (.region scope (.loop info body)) s (s₅.close scope.context info first second) := by
  intro W c rs later around hcut hout hs
  have hs₁ : WaitsIn (Opens W scope.context [info.header]) s₁ :=
    (hs.pick_start hpick).mono fun _ => .inl
  have hs₂ : WaitsIn (Opens W scope.context [info.header]) s₂ :=
    hfirst _ c _ _ (hcut.body hpeel) hout.first (waitsIn_pass hl hout.found hcut hpeel hs₁)
  have hs₄ : WaitsIn W s₄ := (hs₂.pick_start hagain).still hstill
  have hs₅ : WaitsIn W s₅ :=
    hsecond W c _ _ (hcut.body hpeel) hout.second (waitsIn_pass hl hout.found hcut hpeel hs₄)
  exact (hs₅.clear fun _ => .inl).of_bin fun j => bin_close j

theorem empties_iteration {ks : List ContextId} {y : Option Snapshot}
    (hd : w.program.context it = .ok d) (hstill : Still s s₁)
    (hbody : Empties w (.regions ⟨it, scope.loops, scope.suppressed || !d.materialized⟩ d.regions)
      (s₁.leave x (.block it d.entry)) s₂)
    (hpick : Picks s₂ (.back it) y s₃) (hrest : Empties w (.iterations scope ks y) s₃ s') :
    Empties w (.iterations scope (it :: ks) (some x)) s s' := by
  intro W c info body rs later around peel hcut hpeel hks hout hs
  obtain ⟨hit, hks⟩ := List.cons_subset.1 hks
  rw [Program.context_eq_ok] at hd
  have hin := hout.iteration hl hcut hpeel hit hd (scope.suppressed || !d.materialized)
  have hs₂ := hbody _ d [] [] .top hin
    (((hs.still hstill).mono fun _ hj => .inl (.inl hj)).leave (hin.entry hd))
  exact hrest W c info body rs later around peel hcut hpeel hks hout (hs₂.pick hpick fun _ => id)

theorem empties_function {suppressed : Bool} {now : Stamp} (hd : w.program.context g = .ok d)
    (hstill : Still s s₁)
    (hbody : Empties w (.regions ⟨g, loops, suppressed⟩ d.regions)
      (s₁.leave (x.pushFrame now g) (.block g d.entry)) s₂)
    (hpick : Picks s₂ (.returns g) out s') : Empties w (.function g loops suppressed x) s s' := by
  intro W d' hd' hfun hW hs
  rw [Program.context_eq_ok] at hd
  cases hd.symm.trans hd'
  have hin := Outlets.function hl hW hd hfun loops suppressed
  have hs₂ := hbody _ d [] [] .top hin
    (((hs.still hstill).mono fun _ hj => .inl (.inl hj)).leave (hin.entry hd))
  exact hs₂.pick hpick fun _ => id

/-- A callee is a function. -/
theorem empties_callee {suppressed : Bool} (hinst : inst ∈ w.program.instrs)
    (hcallee : inst.op.callee? = some g)
    (hfunction : Empties w (.function g loops suppressed x)
      { s with firstCalls := s.firstCalls.insert g inst.id } s')
    (hW : Catches w W) (hs : WaitsIn W s) : WaitsIn W s' := by
  obtain ⟨k, c, b, block, hc, hb, hmem⟩ := (Program.mem_instrs hl.own).1 hinst
  obtain ⟨d, hd, hfun⟩ := hl.callee hc hb hmem hcallee
  exact hfunction W d hd hfun hW (hs.of_bin fun j => by cases j <;> rfl)

end Linked

/-- When a walk ends, snapshots wait in open bins only. -/
theorem Walks.empties (hl : w.program.Linked w.layout)
    (hcheckers : ∀ cond ∈ w.program.pathConditions, ∀ g, cond.fact = .checker g →
      ∃ d, w.program.contexts.get? g = some d ∧ d.isFunction = true)
    {task : Task} (h : Walks w task s out s') : Empties w task s s' := by
  induction h with
  | nil => exact fun W c later around _ _ hs => hs.mono fun j hj => by simpa [Opens] using hj
  | cons _ _ hr hrs => exact empties_cons hr hrs
  | skip hpick => exact fun W c rs later around _ _ hs => hs.pick_start hpick
  | block hblock hpick hconds _ _ hfinish hcond hinsts =>
    exact empties_block hl hblock hpick hconds hcond hinsts hfinish
  | peel hpeel hpick _ hiterations =>
    intro W c rs later around hcut hout hs
    exact hiterations W c _ _ rs later around _ hcut hpeel (List.Subset.refl _) hout
      (hs.pick_start hpick)
  | pass _ hpick => exact fun W c rs later around _ _ hs => hs.pick_start hpick
  | once hpeel hpick hlatch hback _ hbody => exact empties_once hl hpeel hpick hlatch hback hbody
  | twice hpeel hpick _ _ _ hagain _ hstill _ hfirst hsecond =>
    exact empties_twice hl hpeel hpick hfirst hagain hstill hsecond
  | lastIteration | noIteration => exact fun _ _ _ _ _ _ _ _ _ _ _ _ hs => hs
  | iteration hc hstill _ hpick _ hbody hrest =>
    exact empties_iteration hl hc hstill hbody hpick hrest
  | noCondition => exact fun _ _ _ hs => hs
  | bytes _ hstill _ hrest =>
    exact fun W hconds hW hs => hrest W (List.cons_subset.1 hconds).2 hW (hs.still hstill)
  | checker hfact _ _ hstill _ hchecker hrest =>
    intro W hconds hW hs
    obtain ⟨hcond, hconds⟩ := List.cons_subset.1 hconds
    obtain ⟨d, hd, hfun⟩ := hcheckers _ hcond _ hfact
    exact hrest W hconds hW ((hchecker W d hd hfun hW hs).still hstill)
  | noInstr => exact fun _ _ _ hs => hs
  | instr _ hvisit _ hrest =>
    exact fun W hinsts hW hs => hrest W (List.cons_subset.1 hinsts).2 hW (hs.of_bin hvisit.bin)
  | shared _ _ _ hstill _ hrest =>
    exact fun W hinsts hW hs => hrest W (List.cons_subset.1 hinsts).2 hW (hs.still hstill)
  | stuck hcallee _ _ _ hfunction =>
    exact fun W hinsts hW hs =>
      empties_callee hl (List.cons_subset.1 hinsts).1 hcallee hfunction hW hs
  | call hcallee _ _ _ _ hstill _ hfunction hrest =>
    intro W hinsts hW hs
    obtain ⟨hinst, hinsts⟩ := List.cons_subset.1 hinsts
    exact hrest W hinsts hW ((empties_callee hl hinst hcallee hfunction hW hs).still hstill)
  | function hc hstill _ hpick hbody => exact empties_function hl hc hstill hbody hpick

/-! ## Runs -/

/-- The bins of blocks where control goes astray, and those of back edges of loops. -/
def AstrayBin (w : Setting) : Bin → Prop
  | .block o t => w.program.Astray w.layout o t
  | .closing _ _ => True
  | .back _ | .returns _ => False

/-- A fresh walk that succeeds picks up every back edge of an iteration and every return. What it
leaves over waits for a block where control goes astray; where control never does, nothing is
pending. -/
theorem leftover_astray {p₀ : Program} {now : Stamp} {H : List Snapshot} {references : References}
    (hlink : p₀.link = .ok w.program) (hlayout : Layout.ofProgram w.program = .ok w.layout)
    (hown : w.program.OwnNames) (hH : History now H) (hx : x ∈ H)
    (h : run w x { clock := now, references := references } = .ok (out, s')) :
    (∀ g, s'.bin (.back g) = []) ∧ (∀ g, s'.bin (.returns g) = []) ∧
      (∀ g b, s'.bin (.block g b) ≠ [] → w.program.Astray w.layout g b) ∧
      ((∀ g b, ¬ w.program.Astray w.layout g b) → s'.pending = 0) := by
  have hl := Program.linked_of_link hlink hlayout hown
  have hcheckers : ∀ cond ∈ w.program.pathConditions, ∀ g, cond.fact = .checker g →
      ∃ d, w.program.contexts.get? g = some d ∧ d.isFunction = true := fun cond hcond g hfact =>
    Program.checkNames_checker (Program.link_eq_ok hlink).1 hcond hfact
  obtain ⟨⟨c, hc, hwalk⟩, -⟩ := walks_of_run h (kept_fresh hH references) hx
  obtain ⟨c', hroot, hfun⟩ := hl.root
  cases (Program.context_eq_ok.1 hc).symm.trans hroot
  have hs : WaitsIn (AstrayBin w) { clock := now, references := references } := fun j hj =>
    (hj (bin_fresh now references j)).elim
  have hleft : WaitsIn (AstrayBin w) s' := hwalk.empties hl hcheckers _ c
    ((hl.own _ _ hroot).symm ▸ hroot) hfun ⟨id, fun _ _ => trivial⟩ hs
  have hback (g : ContextId) : s'.bin (.back g) = [] := by_contra (hleft (.back g))
  have hreturns (g : ContextId) : s'.bin (.returns g) = [] := by_contra (hleft (.returns g))
  refine ⟨hback, hreturns, fun g b => hleft (.block g b), fun hno => ?_⟩
  exact pending_eq_zero (fun g b => by_contra fun hne => hno g b (hleft (.block g b) hne)) hback
    hreturns

/-- Both passes over a loop with a call in it leave nothing over. -/
theorem leftover_astray_turning :
    Yields (run (linkedSetting turning) (.trusting 0) { clock := 1 }) fun r =>
      r.1.isSome = true ∧ r.2.findings.loopEntries.length = 1 ∧ r.2.pending = 0 := by
  obtain ⟨⟨hlink, hlayout⟩, ⟨hown, hs⟩, hpeels⟩ := turning_spec
  have hl := Program.linked_of_link hlink hlayout hown
  have hyields : Yields (run (linkedSetting turning) (.trusting 0) { clock := 1 }) fun r =>
      r.1.isSome = true ∧ r.2.findings.loopEntries.length = 1 :=
    yields_run 4 (by decide +kernel)
  obtain ⟨⟨out, s'⟩, hrun, hout, hentries⟩ := hyields
  obtain ⟨-, -, -, hpending⟩ := leftover_astray hlink hlayout hown
    ((History.start 0).next .trusting) List.mem_cons_self hrun
  exact ⟨_, hrun, hout, hentries, hpending fun _ _ => (hs.orderly hpeels hl).not_astray⟩

/-- A block that returns stands before another one that leads to it. -/
def againstOrder : Program where
  objects := .ofList []
  contexts := .ofList [
    (⟨0⟩,
      { id := ⟨0⟩
        kind := .function ⟨0⟩ "main" []
        blocks := .ofList [
          (⟨0⟩, { id := ⟨0⟩, succs := [⟨⟨1⟩, true⟩, ⟨⟨2⟩, true⟩] }),
          (⟨1⟩, { id := ⟨1⟩, succs := [⟨⟨2⟩, true⟩] }), (⟨2⟩, { id := ⟨2⟩, terminator := .ret })]
        regions := [.block ⟨0⟩, .block ⟨2⟩, .block ⟨1⟩]
        entry := ⟨0⟩ })]
  root := ⟨0⟩

/-- An iteration that returns bears the name of the function around it. -/
def misnamedIteration : Program where
  objects := .ofList []
  contexts := .ofList [
    (⟨0⟩,
      { id := ⟨0⟩
        kind := .function ⟨0⟩ "main" []
        blocks := .ofList [
          (⟨0⟩, { id := ⟨0⟩, succs := [⟨⟨1⟩, true⟩, ⟨⟨2⟩, true⟩] }),
          (⟨2⟩, { id := ⟨2⟩, terminator := .ret })]
        regions := [.block ⟨0⟩,
          .loop { id := ⟨0⟩, preheader := ⟨0⟩, header := ⟨1⟩, latch := ⟨1⟩,
                  peel := some ⟨[⟨1⟩], true, true⟩ } [],
          .block ⟨2⟩]
        entry := ⟨0⟩ }),
    (⟨1⟩,
      { id := ⟨0⟩
        kind := .iteration ⟨0⟩ 0 ⟨1⟩ ⟨1⟩
        parent := some ⟨0⟩
        blocks := .ofList [(⟨1⟩, { id := ⟨1⟩, succs := [⟨⟨1⟩, true⟩], terminator := .ret })]
        regions := [.block ⟨1⟩]
        entry := ⟨1⟩ })]
  root := ⟨0⟩

/-- Linked programs where a snapshot is left over: for a block whose turn has passed, though every
context has its own name, and at the return of an iteration that has not. -/
theorem snapshot_left_over :
    (Yields againstOrder.link (fun q => Yields (Layout.ofProgram q) fun _ => True) ∧
      (linkedSetting againstOrder).program.OwnNames ∧
      Yields (run (linkedSetting againstOrder) (.trusting 0) { clock := 1 }) fun r =>
        (r.2.bin (.block ⟨0⟩ ⟨2⟩)).length = 1 ∧ r.2.pending = 1) ∧
    Yields misnamedIteration.link (fun q => Yields (Layout.ofProgram q) fun _ => True) ∧
      Yields (run (linkedSetting misnamedIteration) (.trusting 0) { clock := 1 }) fun r =>
        (r.2.bin (.returns ⟨1⟩)).length = 1 ∧ r.2.pending = 1 :=
  ⟨⟨by decide +kernel, Program.ownNames_iff.2 (by decide +kernel),
    yields_run 4 (by decide +kernel)⟩, by decide +kernel, yields_run 4 (by decide +kernel)⟩

end Walk

end ByteTrust
