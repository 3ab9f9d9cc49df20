import ByteTrust.Proofs.Interference.Paths

/-!
# Every byte that is lost is lost on a path

A tame walk loses trust for a reason: whenever a snapshot that waits does not trust a byte, there
is a path on which that byte is not trusted either. Snapshots are met only where paths come
together, so it is enough to follow one byte at a time: of the snapshots that enter a meet, one is
responsible, and its path goes on.

The paths are given by a set `A` of snapshots for each bin that is closed under the steps of paths
(`Spreads`). Bins that were open before (`W₀`) are not looked at.
-/

namespace ByteTrust

namespace Walk

open Snapshot Region

/-- Some snapshot in `A`, with the same frames, trusts the byte `a` only if `y` does. -/
def Explains (a : Cell) (A : Snapshot → Prop) (y : Snapshot) : Prop :=
  ∃ y', A y' ∧ Fits y.owners y' ∧ Under (· = a) y' y

variable {w : Setting} {scope : Scope} {plain : Prop} {W W₀ : Bin → Prop} {F : Frames} {a : Cell}
  {q : InstId → Bool} {s s' s₁ s₂ : State} {x y : Snapshot} {out : Option Snapshot}
  {R : BlockId → Bin → Prop} {A : Bin → Snapshot → Prop} {B : Snapshot → Prop} {ts : List BlockId}
  {b : BlockId} {cs : List ContextId}

theorem Explains.imp {B' : Snapshot → Prop} (h : Explains a B y)
    (hB : ∀ y', Fits y.owners y' → B y' → B' y') : Explains a B' y := by
  obtain ⟨y', hy', hfits, hunder⟩ := h
  exact ⟨y', hB y' hfits hy', hfits, hunder⟩

/-- Where snapshots are met, one of them explains what is lost. -/
theorem Explains.meet {xs : List Snapshot} (h : IsPickUp xs (some y))
    (hxs : ∀ x ∈ xs, Explains a B x) : Explains a B y := by
  obtain ⟨hne, hmeet, -⟩ := h
  by_cases hy : y.Holds a
  · obtain ⟨x, hx⟩ := List.exists_mem_of_ne_nil xs hne
    obtain ⟨x', hx', hfits, -⟩ := hxs x hx
    refine ⟨x', hx', hmeet.owners x hx ▸ hfits, ?_⟩
    rintro _ rfl -
    exact hy
  · have hlost : ∃ x ∈ xs, ¬ x.Holds a := by
      by_contra hall
      push Not at hall
      exact hy ((hmeet.trusts _ _ _).2 hall)
    obtain ⟨x, hx, hxa⟩ := hlost
    obtain ⟨x', hx', hfits, hunder⟩ := hxs x hx
    refine ⟨x', hx', hmeet.owners x hx ▸ hfits, ?_⟩
    rintro _ rfl hx'a
    exact (hxa (hunder _ rfl hx'a)).elim

/-- The snapshots `A` go on along paths whose edges `R` allows. -/
structure Spreads (w : Setting) (q : InstId → Bool) (R : BlockId → Bin → Prop)
    (A : Bin → Snapshot → Prop) : Prop where
  edge : ∀ {k c b block conds y y₁ z t j}, A (.block k b) y →
    w.program.contexts.get? k = some c → c.blocks.get? b = some block →
    conditionsAt w k b = .ok conds → Vouches w conds y y₁ → Path w q (.instrs block.insts) y₁ z →
    block.terminator = .branch → t ∈ block.liveSuccs → Leads w k c b t j → R b j → A j z
  ret : ∀ {k c b block conds y y₁ z z' now f}, A (.block k b) y →
    w.program.contexts.get? k = some c → c.blocks.get? b = some block →
    conditionsAt w k b = .ok conds → Vouches w conds y y₁ → Path w q (.instrs block.insts) y₁ z →
    block.terminator = .ret → z.popFrame now = .ok (f, z') →
      A (.returns (w.layout.functionRoot k)) z'
  first : ∀ {k b it d y}, A (.block k b) y → w.program.FirstOf k b it →
    w.program.contexts.get? it = some d → A (.block it d.entry) y
  next : ∀ {it next d y}, A (.back it) y → w.program.NextOf it next →
    w.program.contexts.get? next = some d → A (.block next d.entry) y

theorem spreads_way (i : Bin) (B : Snapshot → Prop) :
    Spreads w q R fun j y => ∃ x, B x ∧ Path w q (.way R i j) x y where
  edge := by
    rintro k c b block conds y y₁ z t j ⟨x, hx, hway⟩ hc hb hconds hvouch hinsts hend ht hleads hR
    exact ⟨x, hx, .edge hway hc hb hconds hvouch hinsts hend ht hleads hR⟩
  ret := by
    rintro k c b block conds y y₁ z z' now f ⟨x, hx, hway⟩ hc hb hconds hvouch hinsts hend hpop
    exact ⟨x, hx, .ret hway hc hb hconds hvouch hinsts hend hpop⟩
  first := by
    rintro k b it d y ⟨x, hx, hway⟩ hfirst hd
    exact ⟨x, hx, .first hway hfirst hd⟩
  next := by
    rintro it next d y ⟨x, hx, hway⟩ hnext hd
    exact ⟨x, hx, .next hway hnext hd⟩

/-- The edges that `R` allows are those that the walk takes, in a scope where the bins `W` are open
and the places `ts` are still to come. Bins that were open before are not looked at. -/
structure Admits (W₀ : Bin → Prop) (R : BlockId → Bin → Prop) (W : Bin → Prop) (scope : Scope)
    (ts : List BlockId) : Prop where
  sub : ∀ {j}, W₀ j → W j
  taken : ∀ {b j}, W j → ¬ W₀ j → (∀ o t, j = .block o t → ¬ Dropped scope.loops o b t) → R b j
  places : ∀ t ∈ ts, ¬ W₀ (.block scope.context t) ∧
    ∀ b, ¬ Dropped scope.loops scope.context b t → R b (.block scope.context t)
  fresh : ∀ {k}, (∀ j, W₀ j → j.context ≠ k) → ∀ {b t}, ¬ Dropped scope.loops k b t →
    R b (.block k t)
  back : ∀ {b k}, ¬ W₀ (.back k) → R b (.back k)
  closing : ∀ {b k t}, ¬ W₀ (.closing k t) → R b (.closing k t)

theorem dropped_over {info : Loop} {body : List Region} {pass : Pass} {o : ContextId}
    {b t : BlockId} (h : Dropped scope.loops o b t) :
    Dropped (scope.over info body pass).loops o b t := by
  obtain ⟨l, hl, hdrops⟩ := h
  exact ⟨l, List.mem_cons_of_mem _ hl, hdrops⟩

namespace Admits

variable {r : Region} {rs : List Region} {info : Loop} {body : List Region}

theorem sublist (h : Admits W₀ R W scope ts) {ts' : List BlockId} (hts : ts' ⊆ ts) :
    Admits W₀ R W scope ts' :=
  { h with places := fun t ht => h.places t (hts ht) }

/-- Places still to come may be opened. -/
theorem opens (h : Admits W₀ R W scope ts) {ts' : List BlockId} (hts : ts' ⊆ ts) :
    Admits W₀ R (Opens W scope.context ts') scope ts :=
  { h with
    sub := fun hj => .inl (h.sub hj)
    taken := by
      rintro b j (hj | ⟨t, ht, rfl⟩) hW₀ hkept
      · exact h.taken hj hW₀ hkept
      · exact (h.places t (hts ht)).2 b (hkept _ _ rfl) }

theorem inPass (h : Admits W₀ R W scope ts) (pass : Pass) :
    Admits W₀ R W (scope.over info body pass) ts where
  sub := h.sub
  taken hj hW₀ hkept := h.taken hj hW₀ fun o t heq hdrop => hkept o t heq (dropped_over hdrop)
  places t ht := ⟨(h.places t ht).1, fun b hkept => (h.places t ht).2 b fun hdrop =>
    hkept (dropped_over hdrop)⟩
  fresh hk _ _ hkept := h.fresh hk fun hdrop => hkept (dropped_over hdrop)
  back := h.back
  closing := h.closing

theorem close (h : Admits W₀ R W scope ts) (t : BlockId) :
    Admits W₀ R (fun j => W j ∨ j = .closing scope.context t) scope ts :=
  { h with
    sub := fun hj => .inl (h.sub hj)
    taken := by
      rintro b j (hj | rfl) hW₀ hkept
      · exact h.taken hj hW₀ hkept
      · exact h.closing hW₀ }

/-- An iteration is entered. -/
theorem iteration (h : Admits W₀ R W scope ts) {it : ContextId} (hfresh : ∀ j, W j → j.context ≠ it)
    (ts' : List BlockId) : Admits W₀ R (fun j => W j ∨ j = .back it) ⟨it, scope.loops, false⟩ ts' where
  sub hj := .inl (h.sub hj)
  taken := by
    rintro b j (hj | rfl) hW₀ hkept
    · exact h.taken hj hW₀ hkept
    · exact h.back hW₀
  places t _ := ⟨fun hj => hfresh _ (h.sub hj) rfl,
    fun b hkept => h.fresh (fun j hj => hfresh j (h.sub hj)) hkept⟩
  fresh := h.fresh
  back := h.back
  closing := h.closing

end Admits

/-- Quiet reads were settled before. -/
def Settled (w : Setting) (q : InstId → Bool) (s : State) : Prop :=
  ∀ inst ∈ w.program.instrs, inst.op.callee? = none → q inst.id = true →
    s.findings.needs.get? inst.id = some .never

theorem Settled.later (h : Settled w q s) (hlater : Later s s') : Settled w q s' :=
  fun inst hinst hcallee hi => hlater.never (h inst hinst hcallee hi)

/-- Of the calls of a function that was entered, all but the one that came first are quiet. -/
def QuietCalls (w : Setting) (q : InstId → Bool) (s : State) : Prop :=
  ∀ inst ∈ w.program.instrs, ∀ g i, inst.op.callee? = some g → s.firstCalls.get? g = some i →
    (q inst.id = true ↔ i ≠ inst.id)

theorem QuietCalls.before (h : QuietCalls w q s') (hlater : Later s s') : QuietCalls w q s :=
  fun inst hinst g i hcallee hi => h inst hinst g i hcallee (hlater.calls g i hi)

/-- A call that is passed over is quiet. -/
theorem QuietCalls.quiet {inst : Instr} {g : ContextId} {i : InstId} (h : QuietCalls w q s')
    (hinst : inst ∈ w.program.instrs) (hcallee : inst.op.callee? = some g)
    (hi : s.firstCalls.get? g = some i) (hne : i ≠ inst.id) (hlater : Later s s') :
    q inst.id = true :=
  (h inst hinst g i hcallee (hlater.calls g i hi)).2 hne

/-- A call that is entered is not quiet. -/
theorem QuietCalls.loud {inst : Instr} {g : ContextId} (h : QuietCalls w q s')
    (hinst : inst ∈ w.program.instrs) (hcallee : inst.op.callee? = some g)
    (hlater : Later { s with firstCalls := s.firstCalls.insert g inst.id } s') :
    q inst.id = false := by
  have hfirst := hlater.calls g inst.id (by rw [Table.get?_insert, if_pos rfl])
  exact Bool.eq_false_iff.2 fun hquiet => (h inst hinst g _ hcallee hfirst).1 hquiet rfl

/-- What waits in the bins that are looked at is explained. -/
def Lit (a : Cell) (A : Bin → Snapshot → Prop) (W₀ : Bin → Prop) (s : State) : Prop :=
  ∀ j, ¬ W₀ j → ∀ y ∈ s.bin j, Explains a (A j) y

namespace Lit

variable {j : Bin}

theorem of_bin (h : Lit a A W₀ s) (hbin : ∀ j, s'.bin j ⊆ s.bin j) : Lit a A W₀ s' :=
  fun j hj y hy => h j hj y (hbin j hy)

theorem still (h : Lit a A W₀ s) (hstill : Still s s') : Lit a A W₀ s' :=
  h.of_bin fun j => hstill.bin j ▸ List.Subset.refl _

theorem leave (h : Lit a A W₀ s) (hx : ¬ W₀ j → Explains a (A j) x) : Lit a A W₀ (s.leave x j) := by
  intro j' hj' y hy
  rcases mem_bin_leave.1 hy with hy | ⟨rfl, rfl⟩
  · exact h j' hj' y hy
  · exact hx hj'

theorem clear (h : Lit a A W₀ s) (j : Bin) : Lit a A W₀ (s.clear j) := by
  refine h.of_bin fun j' => ?_
  rw [bin_clear]
  split
  · exact List.nil_subset _
  · exact List.Subset.refl _

theorem pick (h : Lit a A W₀ s) (hpick : Picks s j out s') (hj : ¬ W₀ j) :
    Lit a A W₀ s' ∧ ∀ y ∈ out, Explains a (A j) y := by
  refine ⟨(h.clear j).still hpick.still, ?_⟩
  rintro y ⟨⟩
  exact Explains.meet hpick.meet (h j hj)

end Lit

/-- What a tame walk does, in terms of one byte and of paths. -/
def Explained (w : Setting) (q : InstId → Bool) (a : Cell) (W : Bin → Prop) (F : Frames) :
    Task → State → Option Snapshot → State → Prop
  | .regions scope rs, s, _, s' => ∀ {A : Bin → Snapshot → Prop} {W₀ : Bin → Prop}
      {R : BlockId → Bin → Prop}, Spreads w q R A → Admits W₀ R W scope (placesAll rs) →
      a.In (F (w.layout.functionRoot scope.context)) → Settled w q s → Lit a A W₀ s → Lit a A W₀ s'
  | .region scope r, s, _, s' => ∀ {A : Bin → Snapshot → Prop} {W₀ : Bin → Prop}
      {R : BlockId → Bin → Prop}, Spreads w q R A → Admits W₀ R W scope r.places →
      a.In (F (w.layout.functionRoot scope.context)) → Settled w q s → Lit a A W₀ s → Lit a A W₀ s'
  | .iterations scope ks x, s, _, s' => ∀ {A : Bin → Snapshot → Prop} {W₀ : Bin → Prop}
      {R : BlockId → Bin → Prop}, Spreads w q R A → Admits W₀ R W scope [] →
      a.In (F (w.layout.functionRoot scope.context)) → Settled w q s →
      (∀ {it d y}, ks[0]? = some it → w.program.contexts.get? it = some d → y ∈ x →
        Explains a (A (.block it d.entry)) y) →
      Lit a A W₀ s → Lit a A W₀ s'
  | .conditions .., _, _, _ => True
  | .instrs scope _ insts x, s, out, _ => ∀ B : Snapshot → Prop,
      a.In (F (w.layout.functionRoot scope.context)) → Settled w q s → Explains a B x →
      ∀ y ∈ out, Explains a (fun y' => ∃ x', B x' ∧ Path w q (.instrs insts) x' y') y
  | .function g _ _ x, s, out, _ => ∀ (B : Snapshot → Prop) (d : Context),
      w.program.contexts.get? g = some d → a.In x.owners → Settled w q s → Explains a B x →
      ∀ y ∈ out, Explains a
        (fun y' => ∃ x' now, B x' ∧ Path w q (.through g d) (x'.pushFrame now g) y') y

section Rules

variable {c : Context} {block : Block} {info : Loop} {body : List Region}

/-- Where the walk sends a snapshot, a path may go. -/
theorem Routes.leads {t : BlockId} {d : Destination} (h : Routes w scope c b t (some d)) :
    Leads w scope.context c b t d.bin ∧ ∀ o t', d.bin = .block o t' → ¬ Dropped scope.loops o b t' := by
  cases h with
  | back hback => exact ⟨.back hback, nofun⟩
  | closing hback howner => exact ⟨.closing hback howner, nofun⟩
  | block hback howner hkept =>
    refine ⟨.block hback howner, fun o t' heq => ?_⟩
    cases heq
    exact hkept

theorem explained_finish (hS : Spreads w q R A) (hadmits : Admits W₀ R W scope ts)
    (hc : w.program.contexts.get? scope.context = some c) (hb : c.blocks.get? b = some block)
    (hid : block.id = b) {conds : List PathCondition}
    (hconds : conditionsAt w scope.context b = .ok conds)
    (hfinish : Finishes w scope block out s s')
    (hopen : ∀ t ∈ block.liveSuccs, ∀ d, route w scope block.id t = .ok (some d) → W d.bin)
    (hout : ∀ z ∈ out, Explains a (fun z' => ∃ y₁,
      (∃ y, A (.block scope.context b) y ∧ Vouches w conds y y₁) ∧
        Path w q (.instrs block.insts) y₁ z') z)
    (hlit : Lit a A W₀ s) : Lit a A W₀ s' := by
  cases hfinish with
  | stuck => exact hlit
  | unreachable => exact hlit
  | dropped => exact hlit
  | @ret z y f now _ _ hend _ hpop hstill =>
    refine Lit.still (hlit.leave fun _ => ?_) hstill
    obtain ⟨z', ⟨y₁, ⟨y₀, hy₀, hvouch⟩, hinsts⟩, hfits, hunder⟩ := hout z rfl
    have howners := (popFrame_eq_ok hpop).1
    obtain ⟨y', hpop'⟩ := exists_popFrame z' now (hfits.owners.trans howners)
    refine ⟨y', hS.ret hy₀ hc hb hconds hvouch hinsts hend hpop', ?_,
      hunder.popFrame hfits.owners hpop' hpop⟩
    have hy' := hfits.popFrame hpop'
    rwa [howners] at hy'
  | @branch z ds _ hend hroute hds =>
    have hds' : ∀ d ∈ ds, ¬ W₀ d.bin → Explains a (A d.bin) z := by
      intro d hd hj
      obtain ⟨t, ht, hr⟩ := (hds d).1 hd
      have hW := hopen t ht d hr
      rw [hid] at hr
      obtain ⟨hleads, hkept⟩ := (route_spec hr hc).leads
      refine (hout z rfl).imp ?_
      rintro z' - ⟨y₁, ⟨y₀, hy₀, hvouch⟩, hinsts⟩
      exact hS.edge hy₀ hc hb hconds hvouch hinsts hend ht hleads (hadmits.taken hW hj hkept)
    clear hds
    induction ds generalizing s with
    | nil => exact hlit
    | cons d ds ih =>
      obtain ⟨hd, hds'⟩ := List.forall_mem_cons.1 hds'
      exact ih (hlit.leave hd) hds'

theorem Explains.vouch {conds : List PathCondition} {x₁ : Snapshot} (h : Explains a B x)
    (hx : Fits cs x) (hvouch : Vouches w conds x x₁) :
    Explains a (fun y₁ => ∃ y, B y ∧ Vouches w conds y y₁) x₁ := by
  obtain ⟨x', hx', hfits, hunder⟩ := h
  rw [hx.owners] at hfits
  obtain ⟨y₁, hy₁⟩ := hvouch.exists x'
  refine ⟨y₁, ⟨x', hx', hy₁⟩, ?_, hy₁.under hvouch hfits hx hunder⟩
  rw [(hvouch.fits hx).owners]
  exact hy₁.fits hfits

theorem explained_block (hl : w.program.Linked w.layout) {conds : List PathCondition}
    {x₁ : Snapshot} {y : Option Snapshot} {s₃ : State}
    (hc : w.program.contexts.get? scope.context = some c) (hb : c.blocks.get? b = some block)
    (hpick : Picks s (.block scope.context b) (some x) s₁)
    (hx : Fits (F (w.layout.functionRoot scope.context)) x)
    (hconds : conditionsAt w scope.context b = .ok conds) (hvouch : Vouches w conds x x₁)
    (hstill : Still s₁ s₂)
    (hinsts : Explained w q a W F (.instrs scope block.certain block.insts x₁) s₂ y s₃)
    (hbins : ∀ j, s₃.bin j = s₂.bin j) (hfinish : Finishes w scope block y s₃ s')
    (hopen : ∀ t ∈ block.liveSuccs, ∀ d, route w scope block.id t = .ok (some d) → W d.bin) :
    Explained w q a W F (.region scope (.block b)) s none s' := by
  intro A W₀ R hS hadmits ha hsettled hlit
  obtain ⟨hlit₁, hpicked⟩ := hlit.pick hpick (hadmits.places b List.mem_cons_self).1
  have hsettled₂ := hsettled.later ((Later.pick hpick).trans (.still hstill))
  have hout := hinsts _ ha hsettled₂ ((hpicked x rfl).vouch hx hvouch)
  exact explained_finish hS hadmits hc hb (hl.block_id hc hb) hconds hfinish hopen hout
    ((hlit₁.still hstill).of_bin fun j => hbins j ▸ List.Subset.refl _)

theorem explained_peel {peel : PeelAttempt} (hpeel : info.terminatedPeel? = some peel)
    (hpick : Picks s (.block scope.context info.header) out s₁)
    (hfirst : ∀ it, w.program.FirstOf scope.context info.header it ↔ peel.iterations[0]? = some it)
    (hiterations : Explained w q a W F (.iterations scope peel.iterations out) s₁ none s') :
    Explained w q a W F (.region scope (.loop info body)) s none s' := by
  intro A W₀ R hS hadmits ha hsettled hlit
  have hplace : info.header ∈ (Region.loop info body).places := by simp [places, hpeel]
  obtain ⟨hlit₁, hpicked⟩ := hlit.pick hpick (hadmits.places _ hplace).1
  refine hiterations hS (hadmits.sublist (List.nil_subset _)) ha (hsettled.later (.pick hpick)) ?_
    hlit₁
  intro it d y hit hd hy
  exact (hpicked y hy).imp fun y' _ hy' => hS.first hy' ((hfirst it).2 hit) hd

theorem explained_once {rest : List Region} (hpeel : info.terminatedPeel? = none)
    (hpick : Picks s (.block scope.context info.header) (some x) s₁)
    (hbody : Explained w q a W F (.regions scope (.block info.header :: rest))
      (s₁.leave x (.block scope.context info.header)) none s') :
    Explained w q a W F (.region scope (.loop info (.block info.header :: rest))) s none s' := by
  intro A W₀ R hS hadmits ha hsettled hlit
  have hplaces : (Region.loop info (.block info.header :: rest)).places =
      placesAll (.block info.header :: rest) := by simp [places, hpeel]
  rw [hplaces] at hadmits
  obtain ⟨hlit₁, hpicked⟩ := hlit.pick hpick (hadmits.places _ List.mem_cons_self).1
  exact hbody hS hadmits ha (hsettled.later ((Later.pick hpick).trans (.leave _ _ _)))
    (hlit₁.leave fun _ => hpicked x rfl)

theorem explained_twice {rest : List Region} {first second : Snapshot} {again : Option Snapshot}
    {s₃ s₄ s₅ : State} (hpeel : info.terminatedPeel? = none)
    (hrest : body = .block info.header :: rest)
    (hpick : Picks s (.block scope.context info.header) (some first) s₁)
    (hlater₂ : Later (s₁.leave first (.block scope.context info.header)) s₂)
    (hfirst : Explained w q a (Opens W scope.context [info.header]) F
      (.regions (scope.over info body .first) body)
      (s₁.leave first (.block scope.context info.header)) none s₂)
    (hagain : Picks s₂ (.block scope.context info.header) again s₃)
    (hmeet : IsPickUp (first :: again.toList) (some second)) (hstill : Still s₃ s₄)
    (hsecond : Explained w q a (fun j => W j ∨ j = .closing scope.context info.header) F
      (.regions (scope.over info body .second) body)
      (s₄.leave second (.block scope.context info.header)) none s₅) :
    Explained w q a W F (.region scope (.loop info body)) s none
      (s₅.close scope.context info first second) := by
  intro A W₀ R hS hadmits ha hsettled hlit
  have hplaces : (Region.loop info body).places = placesAll body := by simp [places, hpeel]
  rw [hplaces] at hadmits
  have hplace : info.header ∈ placesAll body := hrest ▸ List.mem_cons_self
  have hclosed := (hadmits.places _ hplace).1
  -- the first pass
  obtain ⟨hlit₁, hpicked⟩ := hlit.pick hpick hclosed
  have hsettled₁ := hsettled.later
    ((Later.pick hpick).trans (.leave _ first (.block scope.context info.header)))
  have hopen : Admits W₀ R (Opens W scope.context [info.header]) scope _ :=
    hadmits.opens fun t ht => List.mem_singleton.1 ht ▸ hplace
  have hlit₂ := hfirst hS (hopen.inPass .first) ha hsettled₁
    (hlit₁.leave fun _ => hpicked first rfl)
  -- what enters the second pass
  obtain ⟨hlit₃, hpicked'⟩ := hlit₂.pick hagain hclosed
  have hexplains : Explains a (A (.block scope.context info.header)) second :=
    Explains.meet hmeet (List.forall_mem_cons.2
      ⟨hpicked first rfl, fun y hy => hpicked' y (Option.mem_toList.1 hy)⟩)
  have hlit₅ := hsecond hS ((hadmits.close info.header).inPass .second) ha
    (hsettled₁.later (hlater₂.trans (.again hagain hstill)))
    ((hlit₃.still hstill).leave fun _ => hexplains)
  refine (hlit₅.clear (.closing scope.context info.header)).of_bin fun j => ?_
  rw [bin_close]
  exact List.Subset.refl _

theorem explained_iteration {it : ContextId} {ks : List ContextId} {y : Option Snapshot}
    {s₃ : State} (hc : w.program.contexts.get? it = some c)
    (hroot : w.layout.functionRoot it = w.layout.functionRoot scope.context) (hstill : Still s s₁)
    (hlater₂ : Later (s₁.leave x (.block it c.entry)) s₂)
    (hbody : Explained w q a (fun j => W j ∨ j = .back it) F
      (.regions ⟨it, scope.loops, false⟩ c.regions) (s₁.leave x (.block it c.entry)) none s₂)
    (hpick : Picks s₂ (.back it) y s₃) (hfresh : ∀ j, W j → j.context ≠ it)
    (hnext : ∀ next, w.program.NextOf it next ↔ ks[0]? = some next)
    (hrest : Explained w q a W F (.iterations scope ks y) s₃ none s') :
    Explained w q a W F (.iterations scope (it :: ks) (some x)) s none s' := by
  intro A W₀ R hS hadmits ha hsettled hentering hlit
  have hsettled₁ := hsettled.later ((Later.still hstill).trans (.leave _ x (.block it c.entry)))
  have hlit₂ := hbody hS (hadmits.iteration hfresh _) (hroot ▸ ha) hsettled₁
    ((hlit.still hstill).leave fun _ => hentering rfl hc rfl)
  obtain ⟨hlit₃, hpicked⟩ := hlit₂.pick hpick fun hj => hfresh _ (hadmits.sub hj) rfl
  refine hrest hS hadmits ha (hsettled₁.later (hlater₂.trans (.pick hpick))) ?_ hlit₃
  intro next d z hit hd hz
  exact (hpicked z hz).imp fun z' _ hz' => hS.next hz' ((hnext next).2 hit) hd

theorem explained_instr {certain : Bool} {inst : Instr} {insts : List Instr}
    (hcallee : inst.op.callee? = none) (hinst : inst ∈ w.program.instrs)
    (hemitted : scope.suppressed = false) (hnoted : Noted w plain s)
    (hx : Fits (F (w.layout.functionRoot scope.context)) x) (hvisit : Visits w scope inst x s y s₁)
    (hrest : Explained w q a W F (.instrs scope certain insts y) s₁ out s') :
    Explained w q a W F (.instrs scope certain (inst :: insts) x) s out s' := by
  intro B ha hsettled hexplains z hz
  have hreplay := hvisit.replay_below hemitted hx hinst hnoted (hsettled inst hinst hcallee) 0
  have hflow : Flows (F (w.layout.functionRoot scope.context))
      fun now x => replay w (q inst.id) now inst x := replay_flows _ _
  have hy : Explains a (fun y' => ∃ x', B x' ∧ y' = replay w (q inst.id) 0 inst x') y := by
    obtain ⟨x', hx', hfits, hunder⟩ := hexplains
    rw [hx.owners] at hfits
    refine ⟨_, ⟨x', hx', rfl⟩, ?_, ?_⟩
    · rw [(hx.visit hvisit).owners]
      exact hfits.flow hflow 0
    · exact (hunder.flow hflow hfits.canonical hx.canonical hfits.owners hx.owners 0 0).trans
        (hreplay.under _)
  refine (hrest _ ha (hsettled.later (.visit hvisit hnoted hinst)) hy z hz).imp ?_
  rintro z' - ⟨_, ⟨x', hx', rfl⟩, hpath⟩
  exact ⟨x', hx', .instr 0 hcallee hpath⟩

theorem explained_shared {certain : Bool} {inst : Instr} {insts : List Instr} {g : ContextId}
    {now : Stamp} (hcallee : inst.op.callee? = some g) (hquiet : q inst.id = true)
    (hx : Fits (F (w.layout.functionRoot scope.context)) x) (hstill : Still s s₁)
    (hrest : Explained w q a W F (.instrs scope certain insts (x.clobberAll now)) s₁ out s') :
    Explained w q a W F (.instrs scope certain (inst :: insts) x) s out s' := by
  intro B ha hsettled hexplains z hz
  have hclobbered : Explains a (fun y' => ∃ x', B x' ∧ y' = x'.clobberAll now)
      (x.clobberAll now) := by
    obtain ⟨x', hx', hfits, hunder⟩ := hexplains
    rw [hx.owners] at hfits
    refine ⟨_, ⟨x', hx', rfl⟩, ?_, ?_⟩
    · rw [(hx.flow flows_clobberAll now).owners]
      exact hfits.flow flows_clobberAll now
    · exact hunder.flow flows_clobberAll hfits.canonical hx.canonical hfits.owners hx.owners now now
  refine (hrest _ ha (hsettled.later (.still hstill)) hclobbered z hz).imp ?_
  rintro z' - ⟨_, ⟨x', hx', rfl⟩, hpath⟩
  exact ⟨x', hx', .passed now hcallee hquiet hpath⟩

theorem explained_call {certain : Bool} {inst : Instr} {insts : List Instr} {g : ContextId}
    {d : Context} (hcallee : inst.op.callee? = some g) (hloud : q inst.id = false)
    (hown : ∀ i, s.firstCalls.get? g = some i → i = inst.id)
    (hd : w.program.contexts.get? g = some d)
    (hx : x.owners = F (w.layout.functionRoot scope.context))
    (hlater : Later { s with firstCalls := s.firstCalls.insert g inst.id } s₁)
    (hfunction : Explained w q a W F (.function g scope.loops false x)
      { s with firstCalls := s.firstCalls.insert g inst.id } (some y) s₁) (hstill : Still s₁ s₂)
    (hrest : Explained w q a W F (.instrs scope certain insts y) s₂ out s') :
    Explained w q a W F (.instrs scope certain (inst :: insts) x) s out s' := by
  intro B ha hsettled hexplains z hz
  have hsettled' := hsettled.later (.enter hown)
  have hy := hfunction B d hd (hx ▸ ha) hsettled' hexplains y rfl
  refine (hrest _ ha (hsettled'.later (hlater.trans (.still hstill))) hy z hz).imp ?_
  rintro z' - ⟨y', ⟨x', now, hx', hcall⟩, hpath⟩
  exact ⟨x', hx', .call now hcallee hloud hd hcall hpath⟩

theorem explained_function {g : ContextId} {loops : List ActiveLoop} {now : Stamp}
    (hc : w.program.contexts.get? g = some c) (hroot : w.layout.functionRoot g = g)
    (hx : Fits cs x) (hstill : Still s s₁) (htidy : Tidy w plain W F s₁)
    (hbody : Explained w q a (fun j => W j ∨ j = .returns g) (Function.update F g (g :: cs))
      (.regions ⟨g, loops, false⟩ c.regions)
      (s₁.leave (x.pushFrame now g) (.block g c.entry)) none s₂)
    (hpick : Picks s₂ (.returns g) out s')
    (hfresh : ∀ j, W j → w.layout.functionRoot j.context ≠ g) :
    Explained w q a W F (.function g loops false x) s out s' := by
  intro B d hd ha hsettled hexplains y hy
  cases hc.symm.trans hd
  let A : Bin → Snapshot → Prop := fun j y => ∃ x', (∃ z now, B z ∧ x' = z.pushFrame now g) ∧
    Path w q (.way (fun _ _ => True) (.block g c.entry) j) x' y
  have hadmits : Admits W (fun _ _ => True) (fun j => W j ∨ j = .returns g) ⟨g, loops, false⟩
      (placesAll c.regions) :=
    ⟨.inl, fun _ _ _ => trivial, fun t _ => ⟨fun hj => hfresh _ hj hroot, fun _ _ => trivial⟩,
      fun _ _ _ _ => trivial, fun _ => trivial, fun _ => trivial⟩
  have ha' : a.In (Function.update F g (g :: cs) (w.layout.functionRoot g)) := by
    rw [hroot, Function.update_self, ← hx.owners]
    exact ha.cons g
  have hpush : Explains a (A (.block g c.entry)) (x.pushFrame now g) := by
    obtain ⟨x', hx', hfits, hunder⟩ := hexplains
    rw [hx.owners] at hfits
    refine ⟨_, ⟨_, ⟨x', now, hx', rfl⟩, .here⟩, ?_, ?_⟩
    · rw [(hx.pushFrame now g).owners]
      exact hfits.pushFrame now g
    · refine hunder.pushFrame (hfits.owners.trans hx.owners.symm) ?_ now now g
      rintro _ rfl
      rw [hfits.owners, ← hx.owners]
      exact ha
  have hlit : Lit a A W (s₁.leave (x.pushFrame now g) (.block g c.entry)) := by
    refine Lit.leave (fun j hj z hz => ?_) fun _ => hpush
    rw [htidy.empty hj] at hz
    cases hz
  have hsettled₁ := hsettled.later
    ((Later.still hstill).trans (.leave _ (x.pushFrame now g) (.block g c.entry)))
  have hlit₂ := hbody (spreads_way _ _) hadmits ha' hsettled₁ hlit
  obtain ⟨-, hpicked⟩ := hlit₂.pick hpick fun hj => hfresh _ hj hroot
  refine (hpicked y hy).imp ?_
  rintro y' - ⟨_, ⟨z, now', hz, rfl⟩, hpath⟩
  exact ⟨z, now', hz, hpath⟩

end Rules

/-- Whatever a tame walk loses is lost on a path. -/
theorem Tame.explained (hl : w.program.Linked w.layout) {task : Task}
    (h : Tame w plain W F task s out s') (hcalls : QuietCalls w q s') :
    Explained w q a W F task s out s' := by
  induction h with
  | nil => exact fun _ _ _ _ hlit => hlit
  | cons hr hrs hstarts _ _ ihr ihrs =>
    intro A W₀ R hS hadmits ha hsettled hlit
    have hrest := hadmits.sublist (List.subset_append_right _ _)
    have hopen := (hadmits.opens fun t ht => List.mem_append_right _ (hstarts ht)).sublist
      (List.subset_append_left _ _)
    have hlit₁ := ihr (hcalls.before hrs.follows) hS hopen ha hsettled hlit
    exact ihrs hcalls hS hrest ha (hsettled.later hr.follows) hlit₁
  | skip hpick =>
    exact fun _ hadmits _ _ hlit => (hlit.pick hpick (hadmits.places _ List.mem_cons_self).1).1
  | block hc hb hpick hx hconds hvouch hstill _ _ hbins hfinish _ hopen hinsts =>
    exact explained_block hl hc hb hpick hx hconds hvouch hstill
      (hinsts (hcalls.before (.finish hfinish))) hbins hfinish hopen
  | peel hpeel hpick _ hfirst _ _ hiterations =>
    exact explained_peel hpeel hpick hfirst (hiterations hcalls)
  | pass _ hpick => exact fun _ _ _ _ hlit => (hlit.clear _).still hpick.still
  | once hpeel hpick _ _ hbody => exact explained_once hpeel hpick (hbody hcalls)
  | twice hpeel hrest hpick hfirst hagain hmeet hstill _ _ hsecond _ _ _ _ _ ihfirst ihsecond =>
    exact explained_twice hpeel hrest hpick hfirst.follows
      (ihfirst (hcalls.before
        ((Later.again hagain hstill).trans (hsecond.follows.trans (.close _ _ _ _ _)))))
      hagain hmeet hstill (ihsecond (hcalls.before (.close _ _ _ _ _)))
  | lastIteration => exact fun _ _ _ _ _ hlit => hlit
  | noIteration => exact fun _ _ _ _ _ hlit => hlit
  | iteration hc hroot _ hstill _ hbody hpick _ hfresh _ hnext hrest _ ihbody ihrest =>
    exact explained_iteration hc hroot hstill hbody.follows
      (ihbody (hcalls.before ((Later.pick hpick).trans hrest.follows))) hpick hfresh hnext
      (ihrest hcalls)
  | noInstr =>
    intro B _ _ hexplains y hy
    cases hy
    exact hexplains.imp fun y' _ hy' => ⟨y', hy', .done⟩
  | instr hcallee hinst hemitted hnoted hx hvisit _ hrest =>
    exact explained_instr hcallee hinst hemitted hnoted hx hvisit (hrest hcalls)
  | shared hcallee hinst hother hne hx hstill hrest ihrest =>
    have hlater := (Later.still hstill).trans hrest.follows
    have hquiet := hcalls.quiet hinst hcallee hother hne hlater
    exact explained_shared hcallee hquiet hx hstill (ihrest hcalls)
  | stuck => exact fun _ _ _ _ _ hy => nomatch hy
  | call hcallee hinst hown hd hx hfunction _ hstill hrest ihfunction ihrest =>
    have hlater := (Later.still hstill).trans hrest.follows
    have hloud := hcalls.loud hinst hcallee (hfunction.follows.trans hlater)
    exact explained_call hcallee hloud hown hd hx.owners hfunction.follows
      (ihfunction (hcalls.before hlater)) hstill (ihrest hcalls)
  | function hc hroot hx hstill _ htidy _ hpick hfresh _ hbody =>
    exact explained_function hc hroot hx hstill htidy (hbody (hcalls.before (.pick hpick))) hpick
      hfresh

end Walk

end ByteTrust
