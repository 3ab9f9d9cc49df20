import ByteTrust.Proofs.Interference.Covers

/-!
# Tame walks cover all paths

By induction on the rules of tame walks, the visits of a walk cover the paths of what it walked
(`Tame.sound`). The heart of the matter is a loop: its visits are those of the second pass, and
they are covered because the back edge of the second pass brings nothing new (`second_inductive`).
That holds since the second pass loses a byte only on some path (`Tame.explained`), and every such
path was covered by the first pass (`Covers.retrace`).
-/

namespace ByteTrust

/-- What came over the back edge in the second pass over a loop trusts every byte that entered it. -/
def LoopEntry.Inductive (e : LoopEntry) : Prop := ∀ y ∈ e.closing, Snapshot.Below e.second y

namespace Walk

open Snapshot Region

/-- The reads without a need are quiet, and so are the calls whose callee belongs to another one. -/
structure Quiets (w : Setting) (q : InstId → Bool) (s : State) : Prop where
  reads : ∀ inst ∈ w.program.instrs, inst.op.callee? = none →
    s.findings.needs.get? inst.id = some .never → q inst.id = true
  calls : QuietCalls w q s

/-- The instruction was visited with `x` at some time before `s`. -/
def Seen (w : Setting) (plain : Prop) (s : State) (inst : Instr) (x : Snapshot) : Prop :=
  ∃ scope t y t', Visits w scope inst x t y t' ∧ inst ∈ w.program.instrs ∧ Noted w plain t ∧
    Later t' s

/-- Instructions that are visited with `x` before `s` are `Ok` on paths that trust more. -/
structure Watches (w : Setting) (plain : Prop) (Ok : Instr → Snapshot → Prop) (s : State) :
    Prop where
  seen : ∀ {inst x z}, Seen w plain s inst x → Fits x.owners x → Fits x.owners z → Below x z →
    Ok inst z
  call : ∀ {inst g z}, inst.op.callee? = some g → Ok inst z

variable {w : Setting} {scope : Scope} {plain : Prop} {W : Bin → Prop} {F : Frames}
  {q : InstId → Bool} {Ok : Instr → Snapshot → Prop} {s s' s₁ s₂ : State} {x y : Snapshot}
  {out : Option Snapshot} {c : Context} {b : BlockId} {block : Block} {r : Region}
  {rs body : List Region} {info : Loop} {cs : List ContextId}

theorem Quiets.before (h : Quiets w q s') (hlater : Later s s') : Quiets w q s :=
  ⟨fun inst hinst hcallee hi => h.reads inst hinst hcallee (hlater.never hi), h.calls.before hlater⟩

theorem Watches.before (h : Watches w plain Ok s') (hlater : Later s s') : Watches w plain Ok s where
  seen := by
    rintro inst x z ⟨scope, t, y, t', hvisit, hinst, hnoted, hlater'⟩
    exact h.seen ⟨scope, t, y, t', hvisit, hinst, hnoted, hlater'.trans hlater⟩
  call := h.call

theorem watches_true : Watches w plain (fun _ _ => True) s :=
  ⟨fun _ _ _ _ => trivial, fun _ => trivial⟩

/-- The visits `V` in a scope cover all paths, up to what waits at `s`. -/
abbrev Covered (w : Setting) (q : InstId → Bool) (Ok : Instr → Snapshot → Prop)
    (loops : List ActiveLoop) (cs : List ContextId) (W : Bin → Prop) (s : State)
    (V : Bin → Snapshot → Prop) : Prop :=
  Covers w q Ok loops cs (Reached V) (Lands W V s) V

/-- What a tame walk does, in terms of all paths. -/
def Sound (w : Setting) (q : InstId → Bool) (Ok : Instr → Snapshot → Prop)
    (W : Bin → Prop) (F : Frames) : Task → State → Option Snapshot → State → Prop
  | .regions scope rs, s, _, s' => ∃ V,
      Covered w q Ok scope.loops (F (w.layout.functionRoot scope.context)) W s' V ∧
        ∀ t ∈ rs.map start, ∀ y ∈ s.bin (.block scope.context t), Reached V (.block scope.context t) y
  | .region scope r, s, _, s' => ∃ V,
      Covered w q Ok scope.loops (F (w.layout.functionRoot scope.context)) W s' V ∧
        ∀ y ∈ s.bin (.block scope.context r.start), Reached V (.block scope.context r.start) y
  | .iterations scope ks x, _, _, s' => ∃ V,
      Covered w q Ok scope.loops (F (w.layout.functionRoot scope.context)) W s' V ∧
        ∀ {it d y}, ks[0]? = some it → w.program.contexts.get? it = some d → y ∈ x →
          Reached V (.block it d.entry) y
  | .conditions .., _, _, _ => True
  | .instrs _ _ insts x, _, out, _ => SoundInstrs w q Ok insts x out
  | .function g _ _ x, _, out, _ => SoundCall w q Ok g x out

theorem Picks.below {k : Bin} (h : Picks s k (some x) s') (hy : y ∈ s.bin k) : Below x y :=
  h.meet.2.1.below hy

theorem Picks.empty {k : Bin} (h : Picks s k none s') : s.bin k = [] := h.meet

theorem Picks.exists {k : Bin} (h : Picks s k out s') (hy : y ∈ s.bin k) :
    ∃ x, out = some x ∧ Below x y := by
  cases out with
  | none =>
    rw [h.empty] at hy
    cases hy
  | some x => exact ⟨x, rfl, h.below hy⟩

theorem mem_foldl_leave {ds : List Destination} {d : Destination} (hd : d ∈ ds) :
    x ∈ (ds.foldl (fun s d => s.leave x d.bin) s).bin d.bin := by
  have hkeep {ds : List Destination} {s : State} {k : Bin} (hx : x ∈ s.bin k) :
      x ∈ (ds.foldl (fun s d => s.leave x d.bin) s).bin k := by
    induction ds generalizing s with
    | nil => exact hx
    | cons d ds ih => exact ih (mem_bin_leave.2 (.inl hx))
  induction ds generalizing s with
  | nil => cases hd
  | cons d' ds ih =>
    rcases List.mem_cons.1 hd with rfl | hd
    · exact hkeep (s := s.leave x d.bin) (mem_bin_leave.2 (.inr ⟨rfl, rfl⟩))
    · exact ih hd

/-! ## Blocks -/

/-- What a block leaves lands. -/
theorem ends_of_finish {V : Bin → Snapshot → Prop}
    (hc : w.program.contexts.get? scope.context = some c) (hid : block.id = b)
    (hfinish : Finishes w scope block (some x) s s')
    (hreturns : W (.returns (w.layout.functionRoot scope.context)))
    (hopen : ∀ t ∈ block.liveSuccs, ∀ d, route w scope block.id t = .ok (some d) → W d.bin) :
    Ends w scope.loops (Lands W V s') scope.context c b block x := by
  -- an edge that is routed somewhere has left the snapshot there
  have hlands {t : BlockId} {d : Destination} (hend : block.terminator = .branch)
      (ht : t ∈ block.liveSuccs) (hr : route w scope b t = .ok (some d)) :
      Lands W V s' d.bin x := by
    rw [← hid] at hr
    refine .open (hopen t ht d hr) ?_
    cases hfinish with
    | branch _ _ hds => exact mem_foldl_leave ((hds d).2 ⟨t, ht, hr⟩)
    | _ => simp_all
  have hroute (hend : block.terminator = .branch) {t : BlockId} (ht : t ∈ block.liveSuccs) :
      ∃ d, route w scope b t = .ok d ∧ Routes w scope c b t d := by
    cases hfinish with
    | branch _ hroute =>
      obtain ⟨d, hd⟩ := hroute t ht
      rw [hid] at hd
      exact ⟨d, hd, route_spec hd hc⟩
    | _ => simp_all
  refine ⟨fun hend t ht hback => ?_, fun hend t ht hback o howner hkept => ?_,
    fun hend t ht hback o howner hcloses => ?_, fun hend hfirst => ?_⟩
  · obtain ⟨d, hr, hroutes⟩ := hroute hend ht
    cases hroutes with
    | back => exact hlands hend ht hr
    | _ => simp_all
  · obtain ⟨d, hr, hroutes⟩ := hroute hend ht
    cases hroutes with
    | back hback' => simp_all
    | closing _ howner' hcloses =>
      cases howner.symm.trans howner'
      obtain ⟨a, ha, hctx, hdrops, -⟩ := hcloses
      exact (hkept ⟨a, ha, hctx, hdrops⟩).elim
    | block _ howner' =>
      cases howner.symm.trans howner'
      exact hlands hend ht hr
    | dropped _ howner' hdropped =>
      cases howner.symm.trans howner'
      exact (hkept hdropped).elim
  · obtain ⟨d, hr, hroutes⟩ := hroute hend ht
    cases hroutes with
    | back hback' => simp_all
    | closing _ howner' =>
      cases howner.symm.trans howner'
      exact hlands hend ht hr
    | block _ howner' hkept =>
      cases howner.symm.trans howner'
      obtain ⟨a, ha, hctx, hdrops, -⟩ := hcloses
      exact (hkept ⟨a, ha, hctx, hdrops⟩).elim
    | dropped _ howner' _ hnot =>
      cases howner.symm.trans howner'
      exact (hnot hcloses).elim
  · cases hfinish with
    | @ret _ y f now _ _ _ _ hpop hstill =>
      refine ⟨now, f, y, hpop, .open hreturns ?_⟩
      rw [hstill.bin]
      exact mem_bin_leave.2 (.inr ⟨rfl, rfl⟩)
    | dropped _ hin =>
      simp only [inFirstPassOf, List.any_eq_true, Bool.and_eq_true, decide_eq_true_eq] at hin
      obtain ⟨a, ha, hpass, hroot⟩ := hin
      exact (hfirst a ha hpass hroot).elim
    | _ => simp_all

theorem sound_block (hl : w.program.Linked w.layout) (ho : w.program.Orderly w.layout)
    {conds : List PathCondition} {x₁ : Snapshot} {s₃ : State}
    (hc : w.program.contexts.get? scope.context = some c) (hb : c.blocks.get? b = some block)
    (hpick : Picks s (.block scope.context b) (some x) s₁)
    (hx : Fits (F (w.layout.functionRoot scope.context)) x)
    (hconds : conditionsAt w scope.context b = .ok conds) (hvouch : Vouches w conds x x₁)
    (hinsts : SoundInstrs w q Ok block.insts x₁ out)
    (hout : ∀ z ∈ out, Fits (F (w.layout.functionRoot scope.context)) z)
    (hfinish : Finishes w scope block out s₃ s')
    (hreturns : W (.returns (w.layout.functionRoot scope.context)))
    (hopen : ∀ t ∈ block.liveSuccs, ∀ d, route w scope block.id t = .ok (some d) → W d.bin) :
    Sound w q Ok W F (.region scope (.block b)) s none s' := by
  have hid : block.id = b := hl.block_id hc hb
  refine ⟨fun j X => j = .block scope.context b ∧ X = x, ⟨?_, ?_, ?_, nofun⟩, fun y hy =>
    ⟨x, ⟨rfl, rfl⟩, hpick.below hy⟩⟩
  · rintro j X ⟨-, rfl⟩
    exact hx
  · rintro k c' b' block' X ⟨hj, rfl⟩ hc' hb'
    cases hj
    cases hc.symm.trans hc'
    cases hb.symm.trans hb'
    refine ⟨conds, x₁, out, hconds, hvouch, hinsts, fun Y hY => ⟨hout Y hY, ?_⟩⟩
    cases hY
    exact ends_of_finish hc hid hfinish hreturns hopen
  · rintro k b' it d X ⟨hj, -⟩ hfirst -
    cases hj
    exact (hl.not_firstOf ho hc hb hfirst).elim

/-! ## Regions in order -/

theorem sound_cons
    (hr : Sound w q Ok (Opens W scope.context (rs.map start)) F (.region scope r) s none s₁)
    (hrs : Sound w q Ok W F (.regions scope rs) s₁ none s')
    (hwait : ∀ t ∈ rs.map start, s.bin (.block scope.context t) ⊆ s₁.bin (.block scope.context t))
    (hkeep : ∀ j, W j → s₁.bin j ⊆ s'.bin j) :
    Sound w q Ok W F (.regions scope (r :: rs)) s none s' := by
  obtain ⟨V₁, hV₁, hstart⟩ := hr
  obtain ⟨V₂, hV₂, hstarts⟩ := hrs
  have hleft {j : Bin} {y : Snapshot} (h : Reached V₁ j y) :
      Reached (fun j X => V₁ j X ∨ V₂ j X) j y := h.mono .inl
  have hright {j : Bin} {y : Snapshot} (h : Reached V₂ j y) :
      Reached (fun j X => V₁ j X ∨ V₂ j X) j y := h.mono .inr
  refine ⟨_, (hV₁.mono hleft ?_).union (hV₂.mono hright fun h => ⟨h.1, fun hj => hright (h.2 hj)⟩),
    fun t ht y hy => ?_⟩
  · intro j y h
    refine ⟨fun hj => hkeep j hj (h.1 (.inl hj)), fun hj => ?_⟩
    by_cases hopen : Opens W scope.context (rs.map start) j
    · -- what the first region left for the rest
      obtain ⟨t, ht, rfl⟩ := hopen.resolve_left hj
      exact hright (hstarts t ht y (h.1 hopen))
    · exact hleft (h.2 hopen)
  · rcases List.mem_cons.1 ht with rfl | ht
    · exact hleft (hstart y hy)
    · exact hright (hstarts t ht y (hwait t ht hy))

/-! ## Peeled loops -/

theorem sound_peel (hl : w.program.Linked w.layout) (ho : w.program.Orderly w.layout)
    {peel : PeelAttempt} {x : Option Snapshot}
    (hpick : Picks s (.block scope.context info.header) x s₁)
    (hx : ∀ y ∈ x, Fits (F (w.layout.functionRoot scope.context)) y)
    (hfirst : ∀ it, w.program.FirstOf scope.context info.header it ↔ peel.iterations[0]? = some it)
    (hne : ∃ it, peel.iterations[0]? = some it)
    (hiterations : Sound w q Ok W F (.iterations scope peel.iterations x) s₁ none s') :
    Sound w q Ok W F (.region scope (.loop info body)) s none s' := by
  obtain ⟨V, hV, hentry⟩ := hiterations
  let V' : Bin → Snapshot → Prop := fun j X => j = .block scope.context info.header ∧ X ∈ x
  have hleft {j : Bin} {y : Snapshot} (h : Reached V j y) :
      Reached (fun j X => V j X ∨ V' j X) j y := h.mono .inl
  have hV' : Covers w q Ok scope.loops (F (w.layout.functionRoot scope.context))
      (Reached fun j X => V j X ∨ V' j X) (Lands W (fun j X => V j X ∨ V' j X) s') V' := by
    refine ⟨fun h => hx _ h.2, ?_, ?_, nofun⟩
    · -- the header of a peeled loop is no block of its own
      rintro k c b block X ⟨hj, -⟩ hc hb
      cases hj
      obtain ⟨it, hit⟩ := hne
      exact (hl.not_firstOf ho hc hb ((hfirst it).2 hit)).elim
    · rintro k b it d X ⟨hj, hX⟩ hit hd
      cases hj
      exact hleft (hentry ((hfirst it).1 hit) hd hX)
  refine ⟨_, (hV.mono hleft fun h => ⟨h.1, fun hj => hleft (h.2 hj)⟩).union hV', fun y hy => ?_⟩
  obtain ⟨X, hX, hbelow⟩ := hpick.exists hy
  exact ⟨X, .inr ⟨rfl, hX⟩, hbelow⟩

theorem sound_iteration {it : ContextId} {ks : List ContextId} {y : Option Snapshot} {s₃ : State}
    (hc : w.program.contexts.get? it = some c)
    (hroot : w.layout.functionRoot it = w.layout.functionRoot scope.context)
    (hentry : c.entry ∈ c.regions.map start)
    (hbody : Sound w q Ok (fun j => W j ∨ j = .back it) F
      (.regions ⟨it, scope.loops, false⟩ c.regions) (s₁.leave x (.block it c.entry)) none s₂)
    (hpick : Picks s₂ (.back it) y s₃)
    (hy : ∀ z ∈ y, Fits (F (w.layout.functionRoot it)) z)
    (hnext : ∀ next, w.program.NextOf it next ↔ ks[0]? = some next)
    (hrest : Sound w q Ok W F (.iterations scope ks y) s₃ none s')
    (hkeep : ∀ j, W j → s₂.bin j ⊆ s'.bin j) :
    Sound w q Ok W F (.iterations scope (it :: ks) (some x)) s none s' := by
  obtain ⟨V₁, hV₁, hstarts⟩ := hbody
  obtain ⟨V₂, hV₂, hnextEntry⟩ := hrest
  rw [hroot] at hy
  rw [show (⟨it, scope.loops, false⟩ : Scope).context = it from rfl, hroot] at hV₁
  let V₃ : Bin → Snapshot → Prop := fun j X => j = .back it ∧ X ∈ y
  let V : Bin → Snapshot → Prop := fun j X => (V₁ j X ∨ V₂ j X) ∨ V₃ j X
  have hbodyV {j : Bin} {z : Snapshot} (h : Reached V₁ j z) : Reached V j z :=
    h.mono fun h => .inl (.inl h)
  have hrestV {j : Bin} {z : Snapshot} (h : Reached V₂ j z) : Reached V j z :=
    h.mono fun h => .inl (.inr h)
  have hback : Covers w q Ok scope.loops (F (w.layout.functionRoot scope.context)) (Reached V)
      (Lands W V s') V₃ := by
    refine ⟨fun h => hy _ h.2, nofun, nofun, ?_⟩
    rintro it' next d X ⟨hj, hX⟩ hnextOf hd
    cases hj
    exact hrestV (hnextEntry ((hnext next).1 hnextOf) hd hX)
  refine ⟨V, ((hV₁.mono hbodyV ?_).union
    (hV₂.mono hrestV fun h => ⟨h.1, fun hj => hrestV (h.2 hj)⟩)).union hback, ?_⟩
  · intro j z h
    refine ⟨fun hj => hkeep j hj (h.1 (.inl hj)), fun hj => ?_⟩
    by_cases hopen : W j ∨ j = .back it
    · obtain rfl := hopen.resolve_left hj
      obtain ⟨X, hX, hbelow⟩ := hpick.exists (h.1 hopen)
      exact ⟨X, .inr ⟨rfl, hX⟩, hbelow⟩
    · exact hbodyV (h.2 hopen)
  · rintro it' d z hit hd ⟨⟩
    cases hit
    cases hc.symm.trans hd
    exact hbodyV (hstarts c.entry hentry x (mem_bin_leave.2 (.inr ⟨rfl, rfl⟩)))

/-! ## Loops -/

theorem sound_once {rest : List Region}
    (hpick : Picks s (.block scope.context info.header) (some x) s₁)
    (hbody : Sound w q Ok W F (.regions scope (.block info.header :: rest))
      (s₁.leave x (.block scope.context info.header)) none s') :
    Sound w q Ok W F (.region scope (.loop info (.block info.header :: rest))) s none s' := by
  obtain ⟨V, hV, hstarts⟩ := hbody
  have hheader := hstarts info.header List.mem_cons_self x (mem_bin_leave.2 (.inr ⟨rfl, rfl⟩))
  exact ⟨V, hV, fun y hy => hheader.trans (hpick.below hy)⟩

/-- The reads that have no need at `s`, and the calls whose callee belongs to another one at `s'`. -/
def silenced (w : Setting) (s s' : State) (i : InstId) : Bool :=
  w.program.instrs.any fun inst => inst.id = i &&
    inst.op.callee?.elim (decide (s.findings.needs.get? i = some .never)) fun g =>
      (s'.firstCalls.get? g).any (· ≠ i)

section Silenced

variable {inst : Instr}

theorem silenced_eq (hnames : (w.program.instrs.map Instr.id).Nodup)
    (hinst : inst ∈ w.program.instrs) :
    silenced w s s' inst.id =
      inst.op.callee?.elim (decide (s.findings.needs.get? inst.id = some .never)) fun g =>
        (s'.firstCalls.get? g).any (· ≠ inst.id) := by
  rw [Bool.eq_iff_iff, silenced, List.any_eq_true]
  constructor
  · rintro ⟨inst', hinst', h⟩
    obtain ⟨hid, h⟩ := Bool.and_eq_true_iff.1 h
    rwa [instr_ext hnames hinst' hinst (of_decide_eq_true hid)] at h
  · exact fun h => ⟨inst, hinst, Bool.and_eq_true_iff.2 ⟨decide_eq_true rfl, h⟩⟩

theorem silenced_read (hnames : (w.program.instrs.map Instr.id).Nodup)
    (hinst : inst ∈ w.program.instrs) (hcallee : inst.op.callee? = none) :
    silenced w s s' inst.id = true ↔ s.findings.needs.get? inst.id = some .never := by
  rw [silenced_eq hnames hinst, hcallee, Option.elim_none, decide_eq_true_iff]

theorem silenced_call (hnames : (w.program.instrs.map Instr.id).Nodup)
    (hinst : inst ∈ w.program.instrs) {g : ContextId} (hcallee : inst.op.callee? = some g) :
    silenced w s s' inst.id = true ↔ ∃ i, s'.firstCalls.get? g = some i ∧ i ≠ inst.id := by
  rw [silenced_eq hnames hinst, hcallee, Option.elim_some]
  cases s'.firstCalls.get? g <;> simp

end Silenced

theorem settled_silenced (hl : w.program.Linked w.layout) : Settled w (silenced w s s') s :=
  fun _ hinst hcallee hquiet => (silenced_read hl.names hinst hcallee).1 hquiet

theorem quietCalls_silenced (hl : w.program.Linked w.layout) :
    QuietCalls w (silenced w s s') s' := by
  intro inst hinst g i hcallee hi
  rw [silenced_call hl.names hinst hcallee]
  constructor
  · rintro ⟨j, hj, hne⟩
    rwa [Option.some.inj (hi.symm.trans hj)]
  · exact fun hne => ⟨i, hi, hne⟩

theorem quiets_silenced (hl : w.program.Linked w.layout) (hlater : Later s s') :
    Quiets w (silenced w s s') s :=
  ⟨fun _ hinst hcallee => (silenced_read hl.names hinst hcallee).2,
    (quietCalls_silenced hl).before hlater⟩

section Twice

variable {first second : Snapshot} {again : Option Snapshot} {rest : List Region} {s₃ s₄ s₅ : State}

/-- The second pass follows the edges that `SecondPass` allows. -/
theorem admits_second (hbusy : ∃ j, W j ∧ j.context = scope.context)
    (hclosed : ∀ t ∈ placesAll body, ¬ W (.block scope.context t) ∧ ¬ W (.closing scope.context t)) :
    Admits W (SecondPass W scope info body) (fun j => W j ∨ j = .closing scope.context info.header)
      (scope.over info body .second) (placesAll body) where
  sub := .inl
  taken := by
    rintro b j hj hW -
    obtain rfl := hj.resolve_left hW
    exact ⟨hW, nofun, nofun⟩
  places t ht := by
    refine ⟨(hclosed t ht).1, fun b hkept => ⟨(hclosed t ht).1, ?_, ?_⟩⟩
    · rintro _ ⟨⟩
      exact ht
    · rintro _ _ ⟨⟩
      exact hkept
  fresh := by
    intro k hk b t hkept
    refine ⟨fun hW => hk _ hW rfl, ?_, ?_⟩
    · rintro _ ⟨⟩
      obtain ⟨j, hj, hctx⟩ := hbusy
      exact (hk j hj hctx).elim
    · rintro _ _ ⟨⟩
      exact hkept
  back hW := ⟨hW, nofun, nofun⟩
  closing hW := ⟨hW, nofun, nofun⟩

/-- What comes over the back edge in the second pass trusts every byte that entered it. -/
theorem second_inductive (hl : w.program.Linked w.layout) (hrest : body = .block info.header :: rest)
    (hfirst : Sound w (silenced w s₂ s₅) (fun _ _ => True) (Opens W scope.context [info.header]) F
      (.regions (scope.over info body .first) body)
      (s₁.leave first (.block scope.context info.header)) none s₂)
    (hagain : Picks s₂ (.block scope.context info.header) again s₃)
    (hmeet : IsPickUp (first :: again.toList) (some second)) (hstill : Still s₃ s₄)
    (hx : Fits (F (w.layout.functionRoot scope.context)) second) (htidy : Tidy w plain W F s₄)
    (hsecond : Tame w plain (fun j => W j ∨ j = .closing scope.context info.header) F
      (.regions (scope.over info body .second) body)
      (s₄.leave second (.block scope.context info.header)) none s₅)
    (htidy' : Tidy w plain (fun j => W j ∨ j = .closing scope.context info.header) F s₅)
    (hbusy : ∃ j, W j ∧ j.context = scope.context)
    (hclosed : ∀ t ∈ placesAll body, ¬ W (.block scope.context t) ∧ ¬ W (.closing scope.context t))
    (hmembers : ∀ t ∈ placesAll body, t ∈ info.blocks.union (.ofList (peelHeaders (loopsAll body))))
    (houter : ∀ b, ¬ Dropped scope.loops scope.context b info.header)
    (hy : y ∈ s₅.bin (.closing scope.context info.header)) : Below second y := by
  have hplace : info.header ∈ placesAll body := hrest ▸ List.mem_cons_self
  have hbelow : ∀ z ∈ s₂.bin (.block scope.context info.header), Below second z := by
    intro z hz
    obtain ⟨z', rfl, hz'⟩ := hagain.exists hz
    exact (hmeet.2.1.below (List.mem_cons_of_mem _ List.mem_cons_self)).trans hz'
  have hyfits : Fits (F (w.layout.functionRoot scope.context)) y := (htidy'.bins hy).2
  refine ⟨hx.owners.trans hyfits.owners.symm, fun ℓ o b hb => ?_⟩
  -- follow the byte: a path of the second pass explains why `y` lacks it, if it does
  let a : Cell := ⟨ℓ, o, b⟩
  have ha : second.Holds a := hb
  have hlit : Lit a (fun j y => ∃ x, x = second ∧ Path w (silenced w s₂ s₅)
      (.way (SecondPass W scope info body) (.block scope.context info.header) j) x y)
      W (s₄.leave second (.block scope.context info.header)) := by
    refine Lit.leave (fun j hj z hz => ?_) fun _ =>
      ⟨second, ⟨second, rfl, .here⟩, ⟨hx.canonical, rfl⟩, .refl _ _⟩
    rw [htidy.empty hj] at hz
    cases hz
  have hsettled : Settled w (silenced w s₂ s₅)
      (s₄.leave second (.block scope.context info.header)) :=
    (settled_silenced hl).later (.again hagain hstill)
  obtain ⟨y', ⟨_, rfl, hpath⟩, -, hunder⟩ := hsecond.explained hl (quietCalls_silenced hl)
    (spreads_way _ _) (admits_second hbusy hclosed) (hx.owners ▸ ha.within) hsettled hlit _
    (hclosed _ hplace).2 y hy
  -- the first pass has seen such a path, and what it left at the header trusts the byte
  obtain ⟨V, hcovers, hstarts⟩ := hfirst
  obtain ⟨X, hX, -⟩ := hstarts _ (hrest ▸ List.mem_cons_self) _ (mem_bin_leave.2 (.inr ⟨rfl, rfl⟩))
  obtain ⟨z, hz, hzy⟩ :=
    hcovers.retrace hplace hmembers houter hbelow ⟨X, hX⟩ hx ha hpath rfl rfl
  exact hunder a rfl (hzy a rfl ((hbelow z hz).under (· = a) a rfl ha))

theorem sound_twice (hrest : body = .block info.header :: rest)
    (hpick : Picks s (.block scope.context info.header) (some first) s₁)
    (hmeet : IsPickUp (first :: again.toList) (some second))
    (hsecond : Sound w q Ok (fun j => W j ∨ j = .closing scope.context info.header) F
      (.regions (scope.over info body .second) body)
      (s₄.leave second (.block scope.context info.header)) none s₅)
    (hinductive : ∀ y ∈ s₅.bin (.closing scope.context info.header), Below second y)
    (hclosed : ∀ t ∈ placesAll body, ¬ W (.block scope.context t) ∧ ¬ W (.closing scope.context t))
    (houter : ∀ b, ¬ Dropped scope.loops scope.context b info.header) :
    Sound w q Ok W F (.region scope (.loop info body)) s none
      (s₅.close scope.context info first second) := by
  obtain ⟨V, hV, hstarts⟩ := hsecond
  have hclosed := hclosed info.header (hrest ▸ List.mem_cons_self)
  have hheader : Reached V (.block scope.context info.header) second :=
    hstarts info.header (hrest ▸ List.mem_cons_self) second (mem_bin_leave.2 (.inr ⟨rfl, rfl⟩))
  refine ⟨V, hV.imp id fun hends => hends.imp ?_ ?_ ?_ ?_ ?_, fun y hy =>
    hheader.trans ((hmeet.2.1.below List.mem_cons_self).trans (hpick.below hy))⟩
  · intro j y hcloses h
    have hne : j ≠ .closing scope.context info.header := by
      rintro rfl
      obtain ⟨a, ha, hctx, hdrops, -⟩ := hcloses _ _ rfl
      exact houter _ ⟨a, ha, hctx, hdrops⟩
    refine ⟨fun hj => ?_, fun hj => h.2 (not_or.2 ⟨hj, hne⟩)⟩
    rw [bin_close, bin_clear, if_neg hne]
    exact h.1 (.inl hj)
  · -- the back edge of this loop
    rintro o t hkept ⟨a, ha, hctx, hdrops⟩ h
    rcases List.mem_cons.1 ha with rfl | ha
    · simp only [ActiveLoop.drops, Bool.and_eq_true, decide_eq_true_eq] at hdrops
      obtain rfl := hctx
      obtain rfl := hdrops.2
      exact ⟨fun hW => (hclosed.1 hW).elim, fun _ => hheader.trans (hinductive _ (h.1 (.inr rfl)))⟩
    · exact (hkept ⟨a, ha, hctx, hdrops⟩).elim
  · rintro o t hkept ⟨a, ha, hctx, hdrops⟩
    rcases List.mem_cons.1 ha with rfl | ha
    · exact ⟨_, List.mem_cons_self, hctx, hdrops, rfl⟩
    · exact (hkept ⟨a, ha, hctx, hdrops⟩).elim
  · rintro o t ⟨a, ha, hcloses⟩
    exact ⟨a, List.mem_cons_of_mem _ ha, hcloses⟩
  · intro a ha hpass
    rcases List.mem_cons.1 ha with rfl | ha
    · cases hpass
    · exact ha

end Twice

/-! ## Instructions and calls -/

section Instrs

variable {inst : Instr} {insts : List Instr} {g : ContextId}

theorem sound_noInstr : SoundInstrs w q Ok [] x (some x) where
  trusts := by
    intro B _ x' y' _ hunder hpath
    cases hpath
    exact ⟨x, rfl, hunder⟩
  meets := by
    intro x' _ _ inst z hmeets
    cases hmeets

theorem sound_instr (hcallee : inst.op.callee? = none) (hinst : inst ∈ w.program.instrs)
    (hemitted : scope.suppressed = false) (hnoted : Noted w plain s) (hx : Fits cs x)
    (hvisit : Visits w scope inst x s y s₁) (hlater : Later s₁ s') (hquiets : Quiets w q s')
    (hwatches : Watches w plain Ok s') (hrest : SoundInstrs w q Ok insts y out) :
    SoundInstrs w q Ok (inst :: insts) x out := by
  have hflow : Flows cs fun now x => replay w (q inst.id) now inst x := replay_flows _ _
  have hreplay (now : Stamp) : Below y (replay w (q inst.id) now inst x) :=
    hvisit.below_replay hemitted hx ((hquiets.before
      ((Later.visit hvisit hnoted hinst).trans hlater)).reads inst hinst hcallee) now
  have hy : Fits cs y := hx.visit hvisit
  constructor
  · intro B hB x' y' hx' hunder hpath
    rw [hx.owners] at hB hx'
    cases hpath with
    | instr now _ hpath =>
      exact hrest.trusts (hy.owners.symm ▸ hB) (hy.owners.symm ▸ hx'.flow hflow now)
        (((hreplay now).under B).trans
          (hunder.flow hflow hx.canonical hx'.canonical hx.owners hx'.owners now now)) hpath
    | call _ hcallee' => cases hcallee.symm.trans hcallee'
    | passed _ hcallee' => cases hcallee.symm.trans hcallee'
  · intro x' hx' hbelow inst' z hmeets
    cases hmeets with
    | here =>
      exact hwatches.seen ⟨scope, s, y, s₁, hvisit, hinst, hnoted, hlater⟩
        ⟨hx.canonical, rfl⟩ hx' hbelow
    | instr now _ hmeets =>
      rw [hx.owners] at hx'
      exact hrest.meets (hy.owners.symm ▸ hx'.flow hflow now)
        ((hreplay now).trans (hflow.below hx.canonical hx'.canonical hx.owners hbelow)) hmeets
    | past _ hcallee' => cases hcallee.symm.trans hcallee'
    | passed _ hcallee' => cases hcallee.symm.trans hcallee'
    | into hcallee' => cases hcallee.symm.trans hcallee'

theorem sound_shared {now : Stamp} (hcallee : inst.op.callee? = some g) (hquiet : q inst.id = true)
    (hOk : ∀ z, Ok inst z) (hx : Fits cs x)
    (hrest : SoundInstrs w q Ok insts (x.clobberAll now) out) :
    SoundInstrs w q Ok (inst :: insts) x out := by
  have hclobbered := hx.flow flows_clobberAll now
  constructor
  · intro B hB x' y' hx' hunder hpath
    rw [hx.owners] at hB hx'
    cases hpath with
    | instr _ hcallee' => cases hcallee.symm.trans hcallee'
    | call _ _ hloud => cases hquiet.symm.trans hloud
    | passed now' _ _ hpath =>
      exact hrest.trusts (hclobbered.owners.symm ▸ hB)
        (hclobbered.owners.symm ▸ hx'.flow flows_clobberAll now')
        (hunder.flow flows_clobberAll hx.canonical hx'.canonical hx.owners hx'.owners now now') hpath
  · intro x' hx' hbelow inst' z hmeets
    cases hmeets with
    | here => exact hOk _
    | instr _ hcallee' => cases hcallee.symm.trans hcallee'
    | past _ _ hloud => cases hquiet.symm.trans hloud
    | passed now' _ _ hmeets =>
      rw [hx.owners] at hx'
      exact hrest.meets (hclobbered.owners.symm ▸ hx'.flow flows_clobberAll now')
        (flows_clobberAll.below hx.canonical hx'.canonical hx.owners hbelow) hmeets
    | into _ hloud => cases hquiet.symm.trans hloud

theorem sound_stuck (hcallee : inst.op.callee? = some g) (hloud : q inst.id = false)
    (hOk : ∀ z, Ok inst z) (hfunction : SoundCall w q Ok g x none) :
    SoundInstrs w q Ok (inst :: insts) x none := by
  constructor
  · intro B hB x' y' hx' hunder hpath
    cases hpath with
    | instr _ hcallee' => cases hcallee.symm.trans hcallee'
    | call now hcallee' _ hd hcall _ =>
      cases hcallee.symm.trans hcallee'
      obtain ⟨_, ⟨⟩, -⟩ := hfunction.trusts hB hd hx' hunder hcall
    | passed _ _ hquiet => cases hquiet.symm.trans hloud
  · intro x' hx' hbelow inst' z hmeets
    cases hmeets with
    | here => exact hOk _
    | instr _ hcallee' => cases hcallee.symm.trans hcallee'
    | past now hcallee' _ hd hcall _ =>
      cases hcallee.symm.trans hcallee'
      obtain ⟨_, ⟨⟩, -⟩ := hfunction.trusts (fun _ h => h) hd hx' (hbelow.under _) hcall
    | passed _ _ hquiet => cases hquiet.symm.trans hloud
    | into hcallee' _ hmeets =>
      cases hcallee.symm.trans hcallee'
      exact hfunction.meets hx' hbelow hmeets

theorem sound_call (hcallee : inst.op.callee? = some g) (hloud : q inst.id = false)
    (hOk : ∀ z, Ok inst z) (hx : Fits cs x) (hy : Fits cs y)
    (hfunction : SoundCall w q Ok g x (some y))
    (hrest : SoundInstrs w q Ok insts y out) : SoundInstrs w q Ok (inst :: insts) x out := by
  -- a call that has returned, on the path and in the walk
  have hreturned {x' y' : Snapshot} {d : Context} {now : Stamp} (hx' : Fits x.owners x')
      (hcall : Path w q (.through g d) (x'.pushFrame now g) y') : Fits y.owners y' := by
    rw [hy.owners]
    rw [hx.owners] at hx'
    exact hcall.fits nofun (hx'.pushFrame now g)
  constructor
  · intro B hB x' z' hx' hunder hpath
    cases hpath with
    | instr _ hcallee' => cases hcallee.symm.trans hcallee'
    | call now hcallee' _ hd hcall hpath =>
      cases hcallee.symm.trans hcallee'
      obtain ⟨_, ⟨⟩, hunder'⟩ := hfunction.trusts hB hd hx' hunder hcall
      exact hrest.trusts (by rwa [hy.owners, ← hx.owners]) (hreturned hx' hcall) hunder' hpath
    | passed _ _ hquiet => cases hquiet.symm.trans hloud
  · intro x' hx' hbelow inst' z hmeets
    cases hmeets with
    | here => exact hOk _
    | instr _ hcallee' => cases hcallee.symm.trans hcallee'
    | past now hcallee' _ hd hcall hmeets =>
      cases hcallee.symm.trans hcallee'
      have hfits := hreturned hx' hcall
      obtain ⟨_, ⟨⟩, hunder⟩ := hfunction.trusts (fun _ h => h) hd hx' (hbelow.under _) hcall
      exact hrest.meets hfits (hunder.below (hy.owners.trans hx.owners.symm)
        (hfits.owners.trans (hy.owners.trans hx.owners.symm))) hmeets
    | passed _ _ hquiet => cases hquiet.symm.trans hloud
    | into hcallee' _ hmeets =>
      cases hcallee.symm.trans hcallee'
      exact hfunction.meets hx' hbelow hmeets

theorem sound_function (hl : w.program.Linked w.layout) {loops : List ActiveLoop} {now : Stamp}
    (hc : w.program.contexts.get? g = some c) (hroot : w.layout.functionRoot g = g)
    (hx : Fits cs x) (hentry : c.entry ∈ c.regions.map start)
    (hbody : Sound w q Ok (fun j => W j ∨ j = .returns g) (Function.update F g (g :: cs))
      (.regions ⟨g, loops, false⟩ c.regions)
      (s₁.leave (x.pushFrame now g) (.block g c.entry)) none s₂)
    (hpick : Picks s₂ (.returns g) out s')
    (hfresh : ∀ j, W j → w.layout.functionRoot j.context ≠ g)
    (hloops : ∀ a ∈ loops, w.layout.functionRoot a.context ≠ g) : SoundCall w q Ok g x out := by
  obtain ⟨V, hV, hstarts⟩ := hbody
  rw [show (⟨g, loops, false⟩ : Scope).context = g from rfl, hroot, Function.update_self] at hV
  have hstart : Reached V (.block g c.entry) (x.pushFrame now g) :=
    hstarts c.entry hentry _ (mem_bin_leave.2 (.inr ⟨rfl, rfl⟩))
  constructor
  · intro B hB x' y' d now' hd hx' hunder hpath
    cases hc.symm.trans hd
    have hunder' : Under B (x.pushFrame now g) (x'.pushFrame now' g) :=
      hunder.pushFrame hx'.owners.symm hB now now' g
    rw [hx.owners] at hx' hB
    obtain ⟨z, hz, hzy⟩ := hV.follow hl hroot hfresh hloops (fun a ha => (hB a ha).cons g)
      (hx'.pushFrame now' g) (hstart.under hunder') hpath
    obtain ⟨y, hy, hyz⟩ := hpick.exists hz
    exact ⟨y, hy, (hyz.under B).trans hzy⟩
  · intro x' hx' hbelow inst z hmeets
    rw [hx.owners] at hx'
    cases hmeets with
    | function now' hd hway hc' hb hconds hvouch hmeets =>
      cases hc.symm.trans hd
      have hpush : Below (x.pushFrame now g) (x'.pushFrame now' g) := hbelow.pushFrame g
      obtain ⟨-, X, hX, hunder⟩ := hV.follow hl hroot hfresh hloops (fun _ h => h)
        (hx'.pushFrame now' g) (hstart.under (hpush.under _)) hway
      -- the visit of the last block of the path
      obtain ⟨conds, x₁, out', hconds', hvouch', hinsts, -⟩ := hV.block hX hc' hb
      cases hconds.symm.trans hconds'
      have hXfits := hV.fits hX
      have hyfits := hway.fits nofun (hx'.pushFrame now' g)
      have hx₁ := hvouch'.fits hXfits
      have hy₁ := hvouch.fits hyfits
      exact hinsts.meets (hx₁.owners.symm ▸ hy₁)
        ((hvouch'.under hvouch hXfits hyfits hunder).below hx₁.owners hy₁.owners) hmeets

end Instrs

/-! ## All rules together -/

theorem Tame.sound (hl : w.program.Linked w.layout) (ho : w.program.Orderly w.layout) {task : Task}
    (h : Tame w plain W F task s out s') (hquiets : Quiets w q s') (hwatches : Watches w plain Ok s') :
    Sound w q Ok W F task s out s' := by
  induction h generalizing q Ok with
  | nil => exact ⟨_, .none, nofun⟩
  | cons _ hrs _ hwait hkeep ihr ihrs =>
    exact sound_cons (ihr (hquiets.before hrs.follows) (hwatches.before hrs.follows))
      (ihrs hquiets hwatches) hwait hkeep
  | skip hpick =>
    refine ⟨_, .none, fun y hy => ?_⟩
    obtain ⟨_, ⟨⟩, -⟩ := hpick.exists hy
  | block hc hb hpick hx hconds hvouch _ _ hy _ hfinish hreturns hopen ihinsts =>
    exact sound_block hl ho hc hb hpick hx hconds hvouch
      (ihinsts (hquiets.before (.finish hfinish)) (hwatches.before (.finish hfinish))) hy hfinish
      hreturns hopen
  | peel _ hpick hx hfirst hne _ ihiterations =>
    exact sound_peel hl ho hpick hx hfirst hne (ihiterations hquiets hwatches)
  | pass _ hpick =>
    refine ⟨_, .none, fun y hy => ?_⟩
    obtain ⟨_, ⟨⟩, -⟩ := hpick.exists hy
  | once _ hpick _ _ ihbody => exact sound_once hpick (ihbody hquiets hwatches)
  | twice _ hrest hpick _ hagain hmeet hstill hx htidy hsecond htidy' hbusy hclosed hmembers houter
      ihfirst ihsecond =>
    have hquiets₂ := quiets_silenced hl ((Later.again hagain hstill).trans hsecond.follows)
    exact sound_twice hrest hpick hmeet
      (ihsecond (hquiets.before (.close _ _ _ _ _)) (hwatches.before (.close _ _ _ _ _)))
      (fun y hy => second_inductive hl hrest (ihfirst hquiets₂ watches_true) hagain hmeet hstill hx
        htidy hsecond htidy' hbusy hclosed hmembers houter hy) hclosed houter
  | lastIteration => exact ⟨_, .none, nofun⟩
  | noIteration => exact ⟨_, .none, nofun⟩
  | iteration hc hroot _ _ hentry _ hpick hy _ _ hnext hrest hkeep ihbody ihrest =>
    have hlater := (Later.pick hpick).trans hrest.follows
    exact sound_iteration hc hroot hentry (ihbody (hquiets.before hlater) (hwatches.before hlater))
      hpick hy hnext (ihrest hquiets hwatches) hkeep
  | noInstr => exact sound_noInstr
  | instr hcallee hinst hemitted hnoted hx hvisit hrest ihrest =>
    exact sound_instr hcallee hinst hemitted hnoted hx hvisit hrest.follows hquiets hwatches
      (ihrest hquiets hwatches)
  | shared hcallee hinst hother hne hx hstill hrest ihrest =>
    have hlater := (Later.still hstill).trans hrest.follows
    have hquiet := hquiets.calls.quiet hinst hcallee hother hne hlater
    exact sound_shared hcallee hquiet (fun _ => hwatches.call hcallee) hx (ihrest hquiets hwatches)
  | stuck hcallee hinst _ _ _ hfunction ihfunction =>
    have hloud := hquiets.calls.loud hinst hcallee hfunction.follows
    exact sound_stuck hcallee hloud (fun _ => hwatches.call hcallee) (ihfunction hquiets hwatches)
  | call hcallee hinst _ _ hx hfunction hy hstill hrest ihfunction ihrest =>
    have hlater := (Later.still hstill).trans hrest.follows
    have hloud := hquiets.calls.loud hinst hcallee (hfunction.follows.trans hlater)
    exact sound_call hcallee hloud (fun _ => hwatches.call hcallee) hx hy
      (ihfunction (hquiets.before hlater) (hwatches.before hlater)) (ihrest hquiets hwatches)
  | function hc hroot hx _ hentry _ _ hpick hfresh hloops ihbody =>
    exact sound_function hl hc hroot hx hentry
      (ihbody (hquiets.before (.pick hpick)) (hwatches.before (.pick hpick))) hpick hfresh hloops

/-! ## The loops that were walked -/

/-- All loops that were finished so far were left in order. -/
def Settles (s : State) : Prop := ∀ e ∈ s.findings.loopEntries, e.Inductive

theorem Settles.of_eq (h : Settles s) (heq : s'.findings.loopEntries = s.findings.loopEntries) :
    Settles s' := by
  rw [Settles, heq]
  exact h

theorem Settles.leave (h : Settles s) (x : Snapshot) (j : Bin) : Settles (s.leave x j) :=
  h.of_eq (by simp)

theorem Settles.pick {j : Bin} (h : Settles s) (hpick : Picks s j out s') : Settles s' :=
  h.of_eq (hpick.still.loopEntries.trans (by simp))

theorem Settles.still (h : Settles s) (hstill : Still s s') : Settles s' :=
  h.of_eq hstill.loopEntries

theorem Settles.finish (h : Settles s) (hfinish : Finishes w scope block out s s') : Settles s' := by
  cases hfinish with
  | ret _ _ _ hstill => exact (h.leave _ _).still hstill
  | @branch x ds =>
    clear * - h
    induction ds generalizing s with
    | nil => exact h
    | cons d ds ih => exact ih (h.leave x d.bin)
  | _ => exact h

theorem Settles.visit {inst : Instr} (h : Settles s) (hvisit : Visits w scope inst x s y s') :
    Settles s' := by
  cases hvisit with
  | read _ _ _ _ hstill => exact Settles.still (s := s.record inst.id _) h hstill
  | own _ _ hstill => exact h.still hstill
  | other _ _ hstill => exact h.still hstill

theorem Settles.close {first second : Snapshot} (h : Settles s)
    (hinductive : ∀ y ∈ s.bin (.closing scope.context info.header), Below second y) :
    Settles (s.close scope.context info first second) := by
  intro e he
  rcases List.mem_append.1 he with he | he
  · exact h e he
  · cases List.mem_singleton.1 he
    exact hinductive

/-- A tame walk leaves all loops in order. -/
theorem Tame.settles (hl : w.program.Linked w.layout) (ho : w.program.Orderly w.layout) {task : Task}
    (h : Tame w plain W F task s out s') (hs : Settles s) : Settles s' := by
  induction h with
  | nil => exact hs
  | cons _ _ _ _ _ ihr ihrs => exact ihrs (ihr hs)
  | skip hpick => exact hs.pick hpick
  | block _ _ hpick _ _ _ hstill _ _ _ hfinish _ _ ihinsts =>
    exact (ihinsts ((hs.pick hpick).still hstill)).finish hfinish
  | peel _ hpick _ _ _ _ ihiterations => exact ihiterations (hs.pick hpick)
  | pass _ hpick => exact hs.pick hpick
  | once _ hpick _ _ ihbody => exact ihbody ((hs.pick hpick).leave _ _)
  | twice _ hrest hpick hfirst hagain hmeet hstill hx htidy hsecond htidy' hbusy hclosed hmembers
      houter ihfirst ihsecond =>
    have hquiets₂ := quiets_silenced hl ((Later.again hagain hstill).trans hsecond.follows)
    have hpass₁ := ihfirst ((hs.pick hpick).leave _ _)
    exact (ihsecond (((hpass₁.pick hagain).still hstill).leave _ _)).close fun y hy =>
      second_inductive hl hrest (hfirst.sound hl ho hquiets₂ watches_true) hagain hmeet hstill hx
        htidy hsecond htidy' hbusy hclosed hmembers houter hy
  | lastIteration => exact hs
  | noIteration => exact hs
  | iteration _ _ _ hstill _ _ hpick _ _ _ _ _ _ ihbody ihrest =>
    exact ihrest ((ihbody ((hs.still hstill).leave _ _)).pick hpick)
  | noInstr => exact hs
  | instr _ _ _ _ _ hvisit _ ihrest => exact ihrest (hs.visit hvisit)
  | shared _ _ _ _ _ hstill _ ihrest => exact ihrest (hs.still hstill)
  | stuck _ _ _ _ _ _ ihfunction => exact ihfunction hs
  | call _ _ _ _ _ _ _ hstill _ ihfunction ihrest => exact ihrest ((ihfunction hs).still hstill)
  | function _ _ _ hstill _ _ _ hpick _ _ ihbody =>
    exact (ihbody ((hs.still hstill).leave _ _)).pick hpick

end Walk

end ByteTrust
