import Mathlib.Logic.Relation
import Mathlib.Data.List.Nodup
import ByteTrust.Interference.Walk
import ByteTrust.Proofs.Program.Linked

/-!
# The order of regions

A walk takes the regions of a context in order. A `Cut` is a point of that walk: the regions of
the present list that are still to come, the places where control may go on after the list, and
the loops around it. A program is `Orderly` when its edges lead forward, but for the back edges of
loops, when every place and every iteration stands at one point of the tree, and when the root does
not lead back to itself.
-/

namespace ByteTrust

namespace Region

mutual

/-- The places of a region, in order: its blocks, and the headers of terminated peels. -/
def places : Region → List BlockId
  | .block b => [b]
  | .loop info body => if info.terminatedPeel?.isSome then [info.header] else placesAll body

/-- The places of a list of regions, in order. -/
def placesAll : List Region → List BlockId
  | [] => []
  | r :: rs => r.places ++ placesAll rs

end

/-- The place where a region is entered. -/
def start : Region → BlockId
  | .block b => b
  | .loop info _ => info.header

end Region

open Region

/-- A point of the walk through the regions of a context: the regions still to come in the present
list, the places that may come after the list, and the loops around it, the innermost first. -/
inductive Cut (c : Context) : List Region → List BlockId → List Loop → Prop
  | top : Cut c c.regions [] []
  | next {r : Region} {rs : List Region} {later : List BlockId} {around : List Loop}
      (h : Cut c (r :: rs) later around) : Cut c rs later around
  | body {info : Loop} {body rs : List Region} {later : List BlockId} {around : List Loop}
      (h : Cut c (.loop info body :: rs) later around) (hpeel : info.terminatedPeel? = none) :
      Cut c body (rs.map start ++ later) (info :: around)

namespace Program

variable {p : Program} {l : Layout} {k o f g : ContextId} {c : Context} {b : BlockId}

/-! ## Contexts around contexts -/

/-- The context `k` is an iteration of a loop in `o`. -/
def Encloses (p : Program) (k o : ContextId) : Prop :=
  ∃ c, p.contexts.get? k = some c ∧ c.enclosing? = some o

/-- The context `o` is `k`, or `k` lies in an iteration of a loop in `o`. -/
abbrev Within (p : Program) : ContextId → ContextId → Prop := Relation.ReflTransGen p.Encloses

theorem Encloses.unique (h : p.Encloses k o) (h' : p.Encloses k g) : o = g := by
  obtain ⟨c, hc, henc⟩ := h
  obtain ⟨c', hc', henc'⟩ := h'
  cases hc.symm.trans hc'
  exact Option.some.inj (henc.symm.trans henc')

theorem not_encloses_of_isFunction (hc : p.contexts.get? k = some c) (hfun : c.isFunction = true) :
    ¬ p.Encloses k o := by
  rintro ⟨c', hc', henc⟩
  cases hc.symm.trans hc'
  cases hkind : c.kind <;> simp_all [Context.enclosing?, Context.isFunction]

theorem not_encloses_cycle {n : Nat} (h : p.functionRootFrom n k = .ok f) :
    ¬ Relation.TransGen p.Encloses k k := by
  induction n generalizing k with
  | zero => cases h
  | succ n ih =>
    intro hcycle
    obtain ⟨o, ⟨c, hc, henc⟩, hback⟩ := Relation.TransGen.head'_iff.1 hcycle
    rw [functionRootFrom, bind_eq_ok] at h
    obtain ⟨c', hc', h⟩ := h
    cases hc.symm.trans (context_eq_ok.1 hc')
    rw [henc] at h
    exact ih h (Relation.TransGen.tail'_iff.2 ⟨k, hback, c, hc, henc⟩)

/-- A root that is not called does not lead back to itself. -/
theorem not_inlines_root (hown : p.OwnNames)
    (hroot : ∀ inst ∈ p.instrs, inst.op.callee? ≠ some p.root) :
    ¬ Relation.TransGen (p.Inlines l) p.root p.root := by
  intro hcycle
  obtain ⟨f, -, inst, hinst, hcallee⟩ := Relation.TransGen.tail'_iff.1 hcycle
  exact hroot inst (hinst.mem_instrs hown) hcallee

/-- The edges, regions and calls of the program are in order. -/
structure Orderly (p : Program) (l : Layout) : Prop where
  emitted : ∀ {k c}, p.contexts.get? k = some c → c.materialized = true
  rootApart : ¬ Relation.TransGen (p.Inlines l) p.root p.root
  noChecker : ∀ cond ∈ p.pathConditions, ∀ g, cond.fact ≠ .checker g
  placedOnce : ∀ {k c}, p.contexts.get? k = some c → (placesAll c.regions).Nodup
  listedOnce : ∀ {k c}, p.contexts.get? k = some c → ∀ info ∈ c.loops, ∀ info' ∈ c.loops,
    ∀ peel peel', info.terminatedPeel? = some peel → info'.terminatedPeel? = some peel' →
      ∀ next ∈ peel.iterations, next ∈ peel'.iterations → info = info'
  entered : ∀ {k c}, p.contexts.get? k = some c → c.entry ∈ c.regions.map start
  /-- An edge within a context leads to a place that comes later, or is the back edge of a loop
  around it. -/
  forward : ∀ {k c b block rs later around target}, p.contexts.get? k = some c →
    Cut c (.block b :: rs) later around → c.blocks.get? b = some block →
    target ∈ block.liveSuccs → Walk.isBackEdge c b target = false →
    l.edgeOwner? p k target = some k →
      target ∈ rs.map start ++ later ∨ ∃ info ∈ around, b = info.latch ∧ target = info.header
  /-- An edge out of an iteration leads to a place that comes after the loop. -/
  leaving : ∀ {k c b block target child o d info body rs later around peel},
    p.contexts.get? k = some c → c.blocks.get? b = some block → target ∈ block.liveSuccs →
    Walk.isBackEdge c b target = false → l.edgeOwner? p k target = some o →
    p.Within k child → p.Encloses child o → p.contexts.get? o = some d →
    Cut d (.loop info body :: rs) later around → info.terminatedPeel? = some peel →
    child ∈ peel.iterations → target ∈ rs.map start ++ later

/-! ## Cuts of a linked program -/

namespace Linked

variable (h : p.Linked l) (hc : p.contexts.get? k = some c)
  {rs body : List Region} {later : List BlockId} {around : List Loop} {info : Loop}

include h hc

theorem cut_checked (hcut : Cut c rs later around) :
    ∃ covered covered', p.checkRegions c covered rs = .ok covered' := by
  induction hcut with
  | top =>
    obtain ⟨-, ⟨covered, hcovered, -⟩, -⟩ := h.shape_spec hc
    exact ⟨∅, covered, hcovered⟩
  | next _ ih =>
    obtain ⟨covered, covered', hchecked⟩ := ih
    rw [checkRegions, bind_eq_ok] at hchecked
    obtain ⟨between, -, hrs⟩ := hchecked
    exact ⟨between, covered', hrs⟩
  | body _ _ ih =>
    obtain ⟨covered, covered', hchecked⟩ := ih
    rw [checkRegions, bind_eq_ok] at hchecked
    obtain ⟨between, hr, -⟩ := hchecked
    rw [checkRegion, bind_eq_ok] at hr
    obtain ⟨⟨⟩, -, hbody⟩ := hr
    exact ⟨covered, between, hbody⟩

theorem cut_block (hcut : Cut c (.block b :: rs) later around) :
    ∃ block, c.blocks.get? b = some block := by
  obtain ⟨covered, covered', hchecked⟩ := h.cut_checked hc hcut
  rw [checkRegions, bind_eq_ok] at hchecked
  obtain ⟨between, hr, -⟩ := hchecked
  rw [checkRegion, bind_eq_ok] at hr
  obtain ⟨⟨⟩, hblock, -⟩ := hr
  obtain ⟨block, hblock⟩ := discard_eq_ok hblock
  exact ⟨block, Context.block_eq_ok.1 hblock⟩

theorem cut_loop (hcut : Cut c (.loop info body :: rs) later around) :
    p.checkLoop c info body = .ok () := by
  obtain ⟨covered, covered', hchecked⟩ := h.cut_checked hc hcut
  rw [checkRegions, bind_eq_ok] at hchecked
  obtain ⟨between, hr, -⟩ := hchecked
  rw [checkRegion, bind_eq_ok] at hr
  obtain ⟨⟨⟩, hloop, -⟩ := hr
  exact hloop

omit h hc in
theorem cut_loops (hcut : Cut c rs later around) : ∀ info ∈ loopsAll rs, info ∈ c.loops := by
  induction hcut with
  | top => exact fun info hinfo => hinfo
  | next _ ih => exact fun info hinfo => ih info (List.mem_append_right _ hinfo)
  | body _ _ ih =>
    exact fun info hinfo => ih info (List.mem_append_left _ (List.mem_cons_of_mem _ hinfo))

omit h hc in
theorem cut_mem_loops (hcut : Cut c (.loop info body :: rs) later around) : info ∈ c.loops :=
  cut_loops hcut info (List.mem_append_left _ List.mem_cons_self)

omit h hc in
/-- A loop that is walked as one starts with its header and lists the blocks of its body. -/
theorem body_spec (hloop : p.checkLoop c info body = .ok ()) (hpeel : info.terminatedPeel? = none) :
    (∃ rest, body = .block info.header :: rest) ∧ ∀ b, b ∈ blocksAll body ↔ b ∈ info.blocks := by
  simp only [Program.checkLoop, hpeel, bind_eq_ok, throw_eq_error, error_bind, ite_error_eq_ok,
    checkBody, ite_else_error_eq_ok] at hloop
  obtain ⟨-, -, -, hblocks, hstart, -⟩ := hloop
  constructor
  · cases body with
    | nil => cases hstart
    | cons r rest =>
      cases r with
      | block b => exact ⟨rest, by simpa [startsAt] using hstart⟩
      | loop => cases hstart
  · intro b
    rw [← not_not.1 hblocks, IdentSet.mem_ofList]

theorem cut_body (hcut : Cut c (.loop info body :: rs) later around)
    (hpeel : info.terminatedPeel? = none) :
    (∃ rest, body = .block info.header :: rest) ∧ ∀ b, b ∈ blocksAll body ↔ b ∈ info.blocks :=
  body_spec (h.cut_loop hc hcut) hpeel

/-- The latch of a loop that is walked as one is a block of it. -/
theorem latch_spec (hinfo : info ∈ c.loops) (hpeel : info.terminatedPeel? = none) :
    info.latch ∈ info.blocks ∧ ∃ latch, c.blocks.get? info.latch = some latch := by
  obtain ⟨body, hloop⟩ := h.checkLoop hc hinfo
  simp only [Program.checkLoop, hpeel, bind_eq_ok, throw_eq_error, error_bind, ite_error_eq_ok,
    checkBody, ite_else_error_eq_ok] at hloop
  obtain ⟨-, -, -, -, -, hlatch, -, -, -, -, latch, hblock, -⟩ := hloop
  exact ⟨IdentSet.contains_iff.1 hlatch, latch, Context.block_eq_ok.1 hblock⟩

theorem start_mem_places {r : Region} (hcut : Cut c (r :: rs) later around) : r.start ∈ r.places := by
  cases r with
  | block b => simp [start, places]
  | loop info body =>
    rw [places, start]
    split
    · exact List.mem_singleton.2 rfl
    · next hpeel =>
      obtain ⟨⟨rest, rfl⟩, -⟩ := h.cut_body hc hcut (by simpa using hpeel)
      simp [placesAll, places]

theorem starts_sublist (hcut : Cut c rs later around) : (rs.map start).Sublist (placesAll rs) := by
  induction rs with
  | nil => exact List.Sublist.refl _
  | cons r rs ih =>
    exact (List.singleton_sublist.2 (h.start_mem_places hc hcut)).append (ih hcut.next)

omit h hc in
mutual

theorem mem_places_iff {t : BlockId} : ∀ {r : Region}, t ∈ r.places →
    t ∈ r.blocks ∨ t ∈ Walk.peelHeaders r.loops
  | .block b, ht => .inl ht
  | .loop info body, ht => by
    rw [places] at ht
    split at ht
    · next hpeel =>
      right
      rw [List.mem_singleton.1 ht]
      exact List.mem_map_of_mem (List.mem_filter.2 ⟨List.mem_cons_self, hpeel⟩)
    · refine (mem_placesAll ht).imp id fun hmem => ?_
      obtain ⟨info', hinfo', rfl⟩ := List.mem_map.1 hmem
      obtain ⟨hinfo', hpeel'⟩ := List.mem_filter.1 hinfo'
      exact List.mem_map_of_mem (List.mem_filter.2 ⟨List.mem_cons_of_mem _ hinfo', hpeel'⟩)

theorem mem_placesAll {t : BlockId} : ∀ {rs : List Region}, t ∈ placesAll rs →
    t ∈ blocksAll rs ∨ t ∈ Walk.peelHeaders (loopsAll rs)
  | [], ht => by simp [placesAll] at ht
  | r :: rs, ht => by
    rw [blocksAll, loopsAll, List.mem_append, Walk.peelHeaders, List.filter_append,
      List.map_append, List.mem_append]
    rw [placesAll, List.mem_append] at ht
    rcases ht with ht | ht
    · exact (mem_places_iff ht).imp .inl .inl
    · exact (mem_placesAll ht).imp .inr .inr

end

/-- A pass over a loop keeps control among the places of its body. -/
theorem mem_members {t : BlockId} (hcut : Cut c (.loop info body :: rs) later around)
    (hpeel : info.terminatedPeel? = none) (ht : t ∈ placesAll body) :
    t ∈ info.blocks.union (.ofList (Walk.peelHeaders (loopsAll body))) := by
  rw [IdentSet.mem_union, IdentSet.mem_ofList]
  exact (mem_placesAll ht).imp ((h.cut_body hc hcut hpeel).2 t).1 id

/-- The places still to come are distinct, and the header of a loop around is none of them, but
where it comes next. -/
structure Apart (rs : List Region) (later : List BlockId) (around : List Loop) : Prop where
  nodup : (placesAll rs ++ later).Nodup
  header : ∀ info ∈ around, info.header ∉ later
  body : ∀ info ∈ around, info.header ∈ placesAll rs →
    ∃ rest, rs = .block info.header :: rest ∧ info.header ∉ placesAll rest

theorem cut_apart (ho : p.Orderly l) (hcut : Cut c rs later around) : Apart rs later around := by
  induction hcut with
  | top => exact ⟨by simpa using ho.placedOnce hc, by simp, by simp⟩
  | @next r rs later around hcut ih =>
    refine ⟨ih.nodup.sublist ?_, ih.header, fun info hinfo hmem => ?_⟩
    · rw [placesAll, List.append_assoc]
      exact List.sublist_append_right _ _
    · obtain ⟨rest, heq, hrest⟩ := ih.body info hinfo (List.mem_append_right _ hmem)
      cases heq
      exact (hrest hmem).elim
  | @body info body rs later around hcut hpeel ih =>
    have hplaces : placesAll (.loop info body :: rs) = placesAll body ++ placesAll rs := by
      simp [placesAll, places, hpeel]
    have hnodup := ih.nodup
    rw [hplaces, List.append_assoc] at hnodup
    have hsub : (rs.map start ++ later).Sublist (placesAll rs ++ later) :=
      (h.starts_sublist hc hcut.next).append_right later
    have hnodup' := hnodup.sublist (hsub.append_left (placesAll body))
    refine ⟨hnodup', ?_, ?_⟩
    · rintro info' hinfo' hmem
      rcases List.mem_cons.1 hinfo' with rfl | hinfo'
      · obtain ⟨⟨rest, rfl⟩, -⟩ := h.cut_body hc hcut hpeel
        exact (List.nodup_append.1 hnodup').2.2 info'.header (by simp [placesAll, places]) _ hmem rfl
      · rcases List.mem_append.1 hmem with hmem | hmem
        · have := ih.body info' hinfo' (hplaces ▸ List.mem_append_right _
            ((h.starts_sublist hc hcut.next).subset hmem))
          obtain ⟨_, heq, -⟩ := this
          cases heq
        · exact ih.header info' hinfo' hmem
    · rintro info' hinfo' hmem
      rcases List.mem_cons.1 hinfo' with rfl | hinfo'
      · obtain ⟨⟨rest, rfl⟩, -⟩ := h.cut_body hc hcut hpeel
        refine ⟨rest, rfl, ?_⟩
        have := (List.nodup_append.1 hnodup).1
        rw [placesAll, places, List.singleton_append, List.nodup_cons] at this
        exact this.1
      · obtain ⟨_, heq, -⟩ := ih.body info' hinfo' (hplaces ▸ List.mem_append_left _ hmem)
        cases heq

end Linked

/-! ## What surrounds a context -/

/-- One function inlines another, directly or through others. -/
abbrev Reaches (p : Program) (l : Layout) : ContextId → ContextId → Prop :=
  Relation.ReflTransGen (p.Inlines l)

/-- Where `j` and `k` belong to one function, `k` lies within `j`. -/
def Around (p : Program) (l : Layout) (j k : ContextId) : Prop :=
  l.functionRoot j = l.functionRoot k → p.Within k j

theorem Around.refl (k : ContextId) : p.Around l k k := fun _ => .refl

namespace Linked

variable {j it : ContextId} (h : p.Linked l)

include h

theorem functionRoot_of_encloses (hit : p.Encloses it k) : l.functionRoot it = l.functionRoot k := by
  obtain ⟨c, hc, henc⟩ := hit
  exact h.functionRoot_of_enclosing hc henc

theorem around_iteration (hj : p.Around l j k) (hit : p.Encloses it k) : p.Around l j it :=
  fun hroot => .head hit (hj (hroot.trans (h.functionRoot_of_encloses hit)))

theorem around_ne_iteration (hj : p.Around l j k) (hit : p.Encloses it k) : j ≠ it := by
  rintro rfl
  have hwithin := hj (h.functionRoot_of_encloses hit)
  have hcycle := Relation.TransGen.head'_iff.2 ⟨k, hit, hwithin⟩
  obtain ⟨c, hc, -⟩ := hit
  exact not_encloses_cycle (h.functionRootFrom hc) hcycle

omit h in
/-- The owner of an edge is the context of its source, or one that this context lies within. -/
theorem edgeOwnerFrom_within {n : Nat} {target : BlockId}
    (ho : l.edgeOwnerFrom p target n k = some o) :
    o = k ∨ ∃ child, p.Within k child ∧ p.Encloses child o := by
  induction n generalizing k with
  | zero => cases ho
  | succ n ih =>
    rw [Layout.edgeOwnerFrom] at ho
    split at ho
    · exact .inl (Option.some.inj ho).symm
    · cases hc : p.contexts.get? k with
      | none => simp [hc] at ho
      | some c =>
        cases henc : c.enclosing? with
        | none => simp [hc, henc] at ho
        | some parent =>
          simp only [hc, henc] at ho
          have hstep : p.Encloses k parent := ⟨c, hc, henc⟩
          rcases ih ho with rfl | ⟨child, hchild, hlast⟩
          · exact .inr ⟨k, .refl, hstep⟩
          · exact .inr ⟨child, .head hstep hchild, hlast⟩

end Linked

/-! ## Iterations -/

/-- Control that comes to the place `b` of `k` goes on in the iteration `it`, the first one of a
terminated peel. -/
def FirstOf (p : Program) (k : ContextId) (b : BlockId) (it : ContextId) : Prop :=
  ∃ c, p.contexts.get? k = some c ∧ ∃ info ∈ c.loops, ∃ peel,
    info.terminatedPeel? = some peel ∧ info.header = b ∧ peel.iterations[0]? = some it

/-- The iteration `next` of a terminated peel comes after `it`. -/
def NextOf (p : Program) (it next : ContextId) : Prop :=
  ∃ k c, p.contexts.get? k = some c ∧ ∃ info ∈ c.loops, ∃ peel i,
    info.terminatedPeel? = some peel ∧ peel.iterations[i]? = some it ∧
      peel.iterations[i + 1]? = some next

namespace Linked

mutual

theorem places_perm {covered covered' : IdentSet .block} :
    ∀ {r : Region}, p.checkRegion c covered r = .ok covered' →
      r.places.Perm (r.blocks ++ Walk.peelHeaders r.loops)
  | .block b, _ => List.Perm.refl _
  | .loop info body, hr => by
    rw [checkRegion, bind_eq_ok] at hr
    obtain ⟨⟨⟩, hloop, hbody⟩ := hr
    cases hpeel : info.terminatedPeel? with
    | some peel =>
      simp only [Program.checkLoop, bind_eq_ok, hpeel, throw_eq_error, error_bind,
        ite_error_eq_ok, checkPeel, ite_else_error_eq_ok, Bool.and_eq_true,
        List.isEmpty_iff] at hloop
      obtain ⟨-, -, -, ⟨rfl, -⟩, -⟩ := hloop
      simp [Region.blocks, blocksAll, Region.loops, loopsAll, Walk.peelHeaders, places, hpeel]
    | none =>
      simpa [Region.blocks, Region.loops, Walk.peelHeaders, places, hpeel] using
        placesAll_perm hbody

/-- The places of regions are their blocks and the headers of their terminated peels. -/
theorem placesAll_perm {covered covered' : IdentSet .block} :
    ∀ {rs : List Region}, p.checkRegions c covered rs = .ok covered' →
      (placesAll rs).Perm (blocksAll rs ++ Walk.peelHeaders (loopsAll rs))
  | [], _ => List.Perm.refl _
  | r :: rs, hrs => by
    rw [checkRegions, bind_eq_ok] at hrs
    obtain ⟨between, hr, hrs⟩ := hrs
    have hheaders : Walk.peelHeaders (loopsAll (r :: rs)) =
        Walk.peelHeaders r.loops ++ Walk.peelHeaders (loopsAll rs) := by
      simp [loopsAll, Walk.peelHeaders]
    rw [placesAll, blocksAll, hheaders]
    refine ((places_perm hr).append (placesAll_perm hrs)).trans ?_
    simp only [List.append_assoc]
    refine List.Perm.append_left _ ?_
    rw [← List.append_assoc, ← List.append_assoc]
    exact List.Perm.append_right _ List.perm_append_comm

end

mutual

theorem adds_of_checkRegion {covered covered' : IdentSet .block} :
    ∀ {r : Region}, p.checkRegion c covered r = .ok covered' → Adds covered r.blocks covered'
  | .block b, hr => by
    rw [checkRegion, bind_eq_ok] at hr
    obtain ⟨⟨⟩, -, hr⟩ := hr
    split at hr
    · cases hr
    · next hnew =>
      cases hr
      refine ⟨List.nodup_singleton b, fun i hi => ?_, fun i => ?_⟩
      · exact List.mem_singleton.1 hi ▸ hnew
      · rw [IdentSet.mem_insert, Region.blocks, List.mem_singleton, or_comm]
  | .loop info body, hr => by
    rw [checkRegion, bind_eq_ok] at hr
    obtain ⟨⟨⟩, -, hbody⟩ := hr
    exact adds_of_checkRegions hbody

/-- No block is covered twice. -/
theorem adds_of_checkRegions {covered covered' : IdentSet .block} :
    ∀ {rs : List Region}, p.checkRegions c covered rs = .ok covered' →
      Adds covered (blocksAll rs) covered'
  | [], hrs => by
    cases hrs
    exact ⟨List.nodup_nil, by simp [blocksAll], by simp [blocksAll]⟩
  | r :: rs, hrs => by
    rw [checkRegions, bind_eq_ok] at hrs
    obtain ⟨between, hr, hrs⟩ := hrs
    exact (adds_of_checkRegion hr).append (adds_of_checkRegions hrs)

end

mutual

theorem block_of_checkRegion {covered covered' : IdentSet .block} :
    ∀ {r : Region}, p.checkRegion c covered r = .ok covered' →
      ∀ b ∈ r.blocks, ∃ block, c.blocks.get? b = some block
  | .block b, hr => by
    rw [checkRegion, bind_eq_ok] at hr
    obtain ⟨⟨⟩, hblock, -⟩ := hr
    obtain ⟨block, hblock⟩ := discard_eq_ok hblock
    rw [Region.blocks, List.forall_mem_singleton]
    exact ⟨block, Context.block_eq_ok.1 hblock⟩
  | .loop info body, hr => by
    rw [checkRegion, bind_eq_ok] at hr
    obtain ⟨⟨⟩, -, hbody⟩ := hr
    exact block_of_checkRegions hbody

theorem block_of_checkRegions {covered covered' : IdentSet .block} :
    ∀ {rs : List Region}, p.checkRegions c covered rs = .ok covered' →
      ∀ b ∈ blocksAll rs, ∃ block, c.blocks.get? b = some block
  | [], _ => by simp [blocksAll]
  | r :: rs, hrs => by
    rw [checkRegions, bind_eq_ok] at hrs
    obtain ⟨between, hr, hrs⟩ := hrs
    rw [blocksAll, List.forall_mem_append]
    exact ⟨block_of_checkRegion hr, block_of_checkRegions hrs⟩

end

/-- The regions of a context cover its blocks. -/
theorem mem_blocksAll (h : p.Linked l) (hc : p.contexts.get? k = some c) :
    b ∈ blocksAll c.regions ↔ ∃ block, c.blocks.get? b = some block := by
  obtain ⟨-, ⟨covered, hcovered, hall⟩, -⟩ := h.shape_spec hc
  refine ⟨block_of_checkRegions hcovered b, fun hb => ?_⟩
  have hmem := ((adds_of_checkRegions hcovered).mem b).1 (hall b (Table.mem_keys.2 hb))
  exact hmem.resolve_left (by simp)

/-- A block of a context is not where a peel starts. -/
theorem not_firstOf (h : p.Linked l) (ho : p.Orderly l) (hc : p.contexts.get? k = some c)
    {block : Block} {it : ContextId} (hb : c.blocks.get? b = some block) : ¬ p.FirstOf k b it := by
  rintro ⟨c', hc', info, hinfo, peel, hpeel, rfl, -⟩
  cases hc.symm.trans hc'
  obtain ⟨-, ⟨covered, hcovered, -⟩, -⟩ := h.shape_spec hc
  have hnodup := (placesAll_perm hcovered).nodup_iff.1 (ho.placedOnce hc)
  have hheader : info.header ∈ Walk.peelHeaders (loopsAll c.regions) :=
    List.mem_map_of_mem (List.mem_filter.2 ⟨hinfo, by simp [hpeel]⟩)
  exact (List.nodup_append.1 hnodup).2.2 _ ((h.mem_blocksAll hc).2 ⟨block, hb⟩) _ hheader rfl

variable (h : p.Linked l) (ho : p.Orderly l) (hc : p.contexts.get? k = some c) {info : Loop}
  {peel : PeelAttempt} {it next : ContextId} (hinfo : info ∈ c.loops)
  (hpeel : info.terminatedPeel? = some peel)

include h ho hc hinfo hpeel

theorem firstOf_iff : p.FirstOf k info.header it ↔ peel.iterations[0]? = some it := by
  refine ⟨?_, fun hit => ⟨c, hc, info, hinfo, peel, hpeel, rfl, hit⟩⟩
  rintro ⟨c', hc', info', hinfo', peel', hpeel', hheader, hit⟩
  cases hc.symm.trans hc'
  obtain ⟨-, ⟨covered, hcovered, -⟩, -⟩ := h.shape_spec hc
  have hnodup := (placesAll_perm hcovered).nodup_iff.1 (ho.placedOnce hc)
  have heq := List.inj_on_of_nodup_map (List.nodup_append.1 hnodup).2.1
    (List.mem_filter.2 ⟨hinfo', by simp [hpeel']⟩) (List.mem_filter.2 ⟨hinfo, by simp [hpeel]⟩) hheader
  cases heq
  cases hpeel.symm.trans hpeel'
  exact hit

theorem nextOf_iff {i : Nat} (hit : peel.iterations[i]? = some it) :
    p.NextOf it next ↔ peel.iterations[i + 1]? = some next := by
  refine ⟨?_, fun hnext => ⟨k, c, hc, info, hinfo, peel, i, hpeel, hit, hnext⟩⟩
  rintro ⟨k', c', hc', info', hinfo', peel', i', hpeel', hit', hnext⟩
  obtain ⟨d, latch, hd, hkind, hparent, -⟩ := h.iteration_spec hc hinfo hpeel hit
  obtain ⟨d', latch', hd', hkind', hparent', -⟩ := h.iteration_spec hc' hinfo' hpeel' hit'
  cases hd.symm.trans hd'
  cases hparent.symm.trans hparent'
  cases hc.symm.trans hc'
  have hindex : i = i' := by
    have := hkind.symm.trans hkind'
    simp only [ContextKind.iteration.injEq] at this
    exact this.2.1
  cases hindex
  cases ho.listedOnce hc info hinfo info' hinfo' peel peel' hpeel hpeel' it
    (List.mem_of_getElem? hit) (List.mem_of_getElem? hit')
  cases hpeel.symm.trans hpeel'
  exact hnext

omit ho in
theorem iteration_encloses {i : Nat} (hit : peel.iterations[i]? = some it) : p.Encloses it k := by
  obtain ⟨d, latch, hd, hkind, hparent, -⟩ := h.iteration_spec hc hinfo hpeel hit
  exact ⟨d, hd, by simp [Context.enclosing?, hkind, hparent]⟩

end Linked

end Program

end ByteTrust
