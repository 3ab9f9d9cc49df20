import Mathlib.Tactic.MkIffOfInductiveProp
import ByteTrust.Proofs.Interference.Order

/-!
# Structured programs

A program is `Advancing` when control moves forward through the regions: an edge leads to a place
that stands later in its context, but for the back edges of loops, and a loop is entered at its
header only. An edge out of an iteration counts as an edge from the place of its loop. Such a
program is `Orderly` (`Advancing.orderly`): seen from a point of the walk, the places that an edge
can lead to are the starts of the regions still to come.

A program is `Structured` when, besides, each function is called from one place and the root from
none.
-/

namespace ByteTrust

open Region

variable {c d : Context} {r : Region} {rs body : List Region} {later : List BlockId}
  {around : List Loop} {info : Loop} {a b t : BlockId}

/-- The iterations of a loop that is walked by iteration. -/
def Loop.iterations (info : Loop) : List ContextId :=
  (info.terminatedPeel?.map PeelAttempt.iterations).getD []

theorem iterations_eq {peel : PeelAttempt} (h : info.terminatedPeel? = some peel) :
    info.iterations = peel.iterations := by
  rw [Loop.iterations, h]
  rfl

/-- A region stands in a context, or in a loop of it. -/
def Stands (c : Context) (r : Region) : Prop := ∃ rs later around, Cut c (r :: rs) later around

theorem placesAll_append (rs rs' : List Region) :
    placesAll (rs ++ rs') = placesAll rs ++ placesAll rs' := by
  induction rs with
  | nil => rfl
  | cons r rs ih => rw [List.cons_append, placesAll, placesAll, ih, List.append_assoc]

theorem mem_placesAll_iff : t ∈ placesAll rs ↔ ∃ r ∈ rs, t ∈ r.places := by
  induction rs with
  | nil => simp [placesAll]
  | cons r rs ih => simp [placesAll, ih]

/-- A place of a region is its start, unless it lies deep in a loop. -/
theorem eq_start (ht : t ∈ r.places)
    (h : ∀ info body, r = .loop info body → info.terminatedPeel? = none → t ∈ placesAll body →
      t = info.header) : t = r.start := by
  cases r with
  | block b => exact List.mem_singleton.1 ht
  | loop info body =>
    rw [places] at ht
    split at ht
    · exact List.mem_singleton.1 ht
    · next hpeel => exact h info body rfl (by simpa using hpeel) ht

theorem Cut.stands (h : Cut c rs later around) (hr : r ∈ rs) : Stands c r := by
  induction rs with
  | nil => cases hr
  | cons r' rs ih =>
    rcases List.mem_cons.1 hr with rfl | hr
    · exact ⟨rs, later, around, h⟩
    · exact ih h.next hr

namespace Region

mutual

/-- The loops of a region with their bodies. -/
def bodies : Region → List (Loop × List Region)
  | .block _ => []
  | .loop info body => (info, body) :: bodiesAll body

/-- The loops of a list of regions with their bodies. -/
def bodiesAll : List Region → List (Loop × List Region)
  | [] => []
  | r :: rs => r.bodies ++ bodiesAll rs

end

theorem mem_bodiesAll (h : Stands c (.loop info body)) : (info, body) ∈ bodiesAll c.regions := by
  obtain ⟨rs, later, around, hcut⟩ := h
  have hsub {rs : List Region} {later : List BlockId} {around : List Loop}
      (hcut : Cut c rs later around) : bodiesAll rs ⊆ bodiesAll c.regions := by
    induction hcut with
    | top => exact List.Subset.refl _
    | next _ ih => exact fun e he => ih (List.mem_append_right _ he)
    | body _ _ ih => exact fun e he => ih (List.mem_append_left _ (List.mem_cons_of_mem _ he))
  exact hsub hcut (List.mem_append_left _ List.mem_cons_self)

end Region

/-- The places after a point of the walk: those of the list at hand, and then those of the regions
that come after it. -/
theorem Cut.split (h : Cut c rs later around) : ∃ before after,
    placesAll c.regions = before ++ placesAll (rs ++ after) ∧ later = after.map start ∧
      ∀ r ∈ rs ++ after, Stands c r := by
  induction h with
  | top => exact ⟨[], [], by simp, rfl, fun r hr => Cut.top.stands (by simpa using hr)⟩
  | @next r rs later around h ih =>
    obtain ⟨before, after, hplaces, rfl, hstands⟩ := ih
    refine ⟨before ++ r.places, after, ?_, rfl,
      fun r' hr' => hstands r' (List.mem_cons_of_mem r hr')⟩
    rw [hplaces, List.cons_append, placesAll, List.append_assoc]
  | @body info body rs later around h hpeel ih =>
    obtain ⟨before, after, hplaces, rfl, hstands⟩ := ih
    refine ⟨before, rs ++ after, ?_, by simp, fun r hr => ?_⟩
    · rw [hplaces, List.cons_append, placesAll, places, hpeel, placesAll_append body]
      rfl
    · rcases List.mem_append.1 hr with hr | hr
      · exact (Cut.body h hpeel).stands hr
      · exact hstands r (List.mem_cons_of_mem _ hr)

theorem Cut.places_nodup (h : Cut c rs later around) (hnodup : (placesAll c.regions).Nodup) :
    (placesAll rs).Nodup := by
  obtain ⟨before, after, hplaces, -⟩ := h.split
  rw [hplaces, placesAll_append] at hnodup
  exact (List.nodup_append.1 (List.nodup_append.1 hnodup).2.1).1

/-- In a list without repetition, what comes after `a` stands behind it. -/
theorem mem_of_pair_sublist {before after : List BlockId} (hnodup : (before ++ a :: after).Nodup)
    (h : [a, t].Sublist (before ++ a :: after)) : t ∈ after := by
  induction before with
  | nil =>
    cases h with
    | cons _ h => exact h.subset (by simp)
    | cons_cons _ h => exact List.singleton_sublist.1 h
  | cons b before ih =>
    rw [List.cons_append, List.nodup_cons] at hnodup
    cases h with
    | cons _ h => exact ih hnodup.2 h
    | cons_cons _ h => exact (hnodup.1 (by simp)).elim

namespace Program

variable {p : Program} {l : Layout} {k o g : ContextId}

/-- An edge that may be taken leads from the place `a` of the context `o` to its place `t`. What
leaves an iteration of a terminated peel in `o` comes from the place of that peel. The back edge of
an iteration is no such edge. -/
inductive EdgeIn (p : Program) (l : Layout) (o : ContextId) : BlockId → BlockId → Prop
  | own {d : Context} {b t : BlockId} {block : Block} (hd : p.contexts.get? o = some d)
      (hb : d.blocks.get? b = some block) (ht : t ∈ block.liveSuccs)
      (hback : Walk.isBackEdge d b t = false) (howner : l.edgeOwner? p o t = some o) :
      EdgeIn p l o b t
  | out {k child : ContextId} {c d : Context} {b t : BlockId} {block : Block} {info : Loop}
      {peel : PeelAttempt} (hc : p.contexts.get? k = some c) (hb : c.blocks.get? b = some block)
      (ht : t ∈ block.liveSuccs) (hback : Walk.isBackEdge c b t = false)
      (howner : l.edgeOwner? p k t = some o) (hwithin : p.Within k child)
      (henc : p.Encloses child o) (hd : p.contexts.get? o = some d) (hinfo : info ∈ d.loops)
      (hpeel : info.terminatedPeel? = some peel) (hchild : child ∈ peel.iterations) :
      EdgeIn p l o info.header t

/-- The program is emitted as a whole, has no checker functions, and control moves forward through
its regions. -/
structure Advancing (p : Program) (l : Layout) : Prop where
  /-- A block stands in one context of its function. -/
  blocksApart : ∀ {k k' c c' b}, p.contexts.get? k = some c → p.contexts.get? k' = some c' →
    l.functionRoot k = l.functionRoot k' → b ∈ c.blocks.keys → b ∈ c'.blocks.keys → k = k'
  emitted : ∀ {k c}, p.contexts.get? k = some c → c.materialized = true
  noChecker : ∀ cond ∈ p.pathConditions, ∀ g, cond.fact ≠ .checker g
  /-- An edge leads forward, or from the latch of a loop to its header. -/
  forward : ∀ {o d a t}, p.contexts.get? o = some d → p.EdgeIn l o a t →
    [a, t].Sublist (placesAll d.regions) ∨
      ∃ info ∈ d.loops, info.terminatedPeel? = none ∧ a = info.latch ∧ t = info.header
  /-- An edge enters a loop at its header. -/
  entered : ∀ {o d a t info body}, p.contexts.get? o = some d → p.EdgeIn l o a t →
    Stands d (.loop info body) → info.terminatedPeel? = none → t ∈ placesAll body →
      a ∉ placesAll body → t = info.header
  /-- So does a context that starts in a loop. -/
  entry : ∀ {o d info body}, p.contexts.get? o = some d → Stands d (.loop info body) →
    info.terminatedPeel? = none → d.entry ∈ placesAll body → d.entry = info.header

/-- Besides, the program calls each function from one place and never its root. -/
structure Structured (p : Program) (l : Layout) : Prop extends Advancing p l where
  calledOnce : ∀ inst ∈ p.instrs, ∀ inst' ∈ p.instrs, ∀ g, inst.op.callee? = some g →
    inst'.op.callee? = some g → inst = inst'
  rootNotCalled : ∀ inst ∈ p.instrs, inst.op.callee? ≠ some p.root

/-- No context is an iteration of two terminated peels. -/
def PeelsApart (p : Program) : Prop :=
  ∀ {k c}, p.contexts.get? k = some c → (c.loops.flatMap Loop.iterations).Nodup

namespace Linked

mutual

theorem blocks_of_checkRegion {covered covered' : IdentSet .block} :
    ∀ {r : Region}, p.checkRegion c covered r = .ok covered' → ∀ info ∈ r.loops,
      info.terminatedPeel? = none → ∀ b ∈ info.blocks, b ∈ r.blocks
  | .block b, _ => by simp [Region.loops]
  | .loop info body, hr => by
    rw [checkRegion, bind_eq_ok] at hr
    obtain ⟨⟨⟩, hloop, hbody⟩ := hr
    rw [Region.loops, Region.blocks, List.forall_mem_cons]
    exact ⟨fun hpeel b hb => ((body_spec hloop hpeel).2 b).2 hb, blocks_of_checkRegions hbody⟩

/-- The blocks of a loop are among those of the regions it stands in. -/
theorem blocks_of_checkRegions {covered covered' : IdentSet .block} :
    ∀ {rs : List Region}, p.checkRegions c covered rs = .ok covered' → ∀ info ∈ loopsAll rs,
      info.terminatedPeel? = none → ∀ b ∈ info.blocks, b ∈ blocksAll rs
  | [], _ => by simp [loopsAll]
  | r :: rs, hrs => by
    rw [checkRegions, bind_eq_ok] at hrs
    obtain ⟨between, hr, hrs⟩ := hrs
    rw [loopsAll, blocksAll, List.forall_mem_append]
    exact ⟨fun info hinfo hpeel b hb =>
        List.mem_append_left _ (blocks_of_checkRegion hr info hinfo hpeel b hb),
      fun info hinfo hpeel b hb =>
        List.mem_append_right _ (blocks_of_checkRegions hrs info hinfo hpeel b hb)⟩

end

variable (h : p.Linked l) (hc : p.contexts.get? k = some c)

include h hc

/-- At a point of the walk a loop is still to come, is around that point, or has nothing to do with
the regions at hand. -/
theorem cut_around (hnodup : (placesAll c.regions).Nodup) (hcut : Cut c rs later around)
    (hinfo : info ∈ c.loops) (hpeel : info.terminatedPeel? = none) :
    info ∈ loopsAll rs ∨ info ∈ around ∨ ∀ b ∈ info.blocks, b ∉ placesAll rs := by
  induction hcut with
  | top => exact .inl hinfo
  | @next r rs later around hcut ih =>
    rcases ih with hin | haround | hout
    · rcases List.mem_append.1 hin with hin | hin
      · refine .inr (.inr fun b hb hmem => ?_)
        have hdistinct := List.nodup_append.1 (hcut.places_nodup hnodup)
        obtain ⟨covered, covered', hchecked⟩ := h.cut_checked hc hcut
        rw [checkRegions, bind_eq_ok] at hchecked
        obtain ⟨between, hr, -⟩ := hchecked
        have hplace := (places_perm hr).mem_iff.2 (List.mem_append_left _
          (blocks_of_checkRegion hr info hin hpeel b hb))
        exact hdistinct.2.2 b hplace b hmem rfl
      · exact .inl hin
    · exact .inr (.inl haround)
    · exact .inr (.inr fun b hb hmem => hout b hb (List.mem_append_right _ hmem))
  | @body info' body rs later around hcut hpeel' ih =>
    have hplaces : placesAll (.loop info' body :: rs) = placesAll body ++ placesAll rs := by
      simp [placesAll, places, hpeel']
    rcases ih with hin | haround | hout
    · rcases List.mem_append.1 hin with hin | hin
      · rcases List.mem_cons.1 hin with rfl | hin
        · exact .inr (.inl List.mem_cons_self)
        · exact .inl hin
      · refine .inr (.inr fun b hb hmem => ?_)
        have hdistinct := List.nodup_append.1 (hplaces ▸ hcut.places_nodup hnodup)
        obtain ⟨covered, covered', hrs⟩ := h.cut_checked hc hcut.next
        have hplace := (placesAll_perm hrs).mem_iff.2 (List.mem_append_left _
          (blocks_of_checkRegions hrs info hin hpeel b hb))
        exact hdistinct.2.2 b hmem b hplace rfl
    · exact .inr (.inl (List.mem_cons_of_mem _ haround))
    · refine .inr (.inr fun b hb hmem => hout b hb ?_)
      rw [hplaces]
      exact List.mem_append_left _ hmem

/-- A loop whose latch is the next block is around it. -/
theorem around_of_latch (hnodup : (placesAll c.regions).Nodup)
    (hcut : Cut c (.block info.latch :: rs) later around) (hinfo : info ∈ c.loops)
    (hpeel : info.terminatedPeel? = none) : info ∈ around := by
  have hlatch := (h.latch_spec hc hinfo hpeel).1
  rcases h.cut_around hc hnodup hcut hinfo hpeel with hin | haround | hout
  · obtain ⟨covered, covered', hrs⟩ := h.cut_checked hc hcut.next
    have hplace := (placesAll_perm hrs).mem_iff.2 (List.mem_append_left _
      (blocks_of_checkRegions hrs info hin hpeel _ hlatch))
    have hdistinct := hcut.places_nodup hnodup
    rw [placesAll, places, List.singleton_append, List.nodup_cons] at hdistinct
    exact (hdistinct.1 hplace).elim
  · exact haround
  · exact (hout _ hlatch (by simp [placesAll, places])).elim

end Linked

theorem PeelsApart.listedOnce {peel peel' : PeelAttempt} {info' : Loop} {next : ContextId}
    (h : p.PeelsApart) (hc : p.contexts.get? k = some c) (hinfo : info ∈ c.loops)
    (hinfo' : info' ∈ c.loops) (hpeel : info.terminatedPeel? = some peel)
    (hpeel' : info'.terminatedPeel? = some peel') (hnext : next ∈ peel.iterations)
    (hnext' : next ∈ peel'.iterations) : info = info' := by
  rw [← iterations_eq hpeel] at hnext
  rw [← iterations_eq hpeel'] at hnext'
  exact eq_of_nodup_flatMap (h hc) hinfo hinfo' hnext hnext'

/-- Terminated peels that share no iteration differ, for each of them has one. -/
theorem PeelsApart.nodup (hpeels : p.PeelsApart) (h : p.Linked l)
    (hc : p.contexts.get? k = some c) :
    (c.loops.filter fun info => info.terminatedPeel?.isSome).Nodup := by
  refine ((List.nodup_flatMap.1 (hpeels hc)).2.filter _).imp_of_mem ?_
  rintro info info' hinfo - hdisjoint rfl
  obtain ⟨hinfo, hpeel⟩ := List.mem_filter.1 hinfo
  obtain ⟨peel, hpeel⟩ := Option.isSome_iff_exists.1 hpeel
  obtain ⟨next, hnext⟩ := h.first_iteration hc hinfo hpeel
  have hmem : next ∈ info.iterations := iterations_eq hpeel ▸ List.mem_of_getElem? hnext
  exact hdisjoint hmem hmem

namespace Advancing

variable (hs : p.Advancing l) (hpeels : p.PeelsApart) (h : p.Linked l)
  (hc : p.contexts.get? k = some c) {peel : PeelAttempt}

include hs h hc

omit hs in
/-- The header of a terminated peel is a block of the first iteration. -/
theorem header_block (hinfo : info ∈ c.loops) (hpeel : info.terminatedPeel? = some peel) :
    ∃ d next, peel.iterations[0]? = some next ∧ p.contexts.get? next = some d ∧
      l.functionRoot next = l.functionRoot k ∧ next ≠ k ∧ info.header ∈ d.blocks.keys := by
  obtain ⟨next, hnext⟩ := h.first_iteration hc hinfo hpeel
  obtain ⟨d, latch, hd, hkind, hparent, hentry⟩ := h.iteration_spec hc hinfo hpeel hnext
  obtain ⟨block, hblock⟩ := h.entry hd
  have henc := h.iteration_encloses hc hinfo hpeel hnext
  refine ⟨d, next, hnext, hd, h.functionRoot_of_encloses henc, ?_, ?_⟩
  · exact (h.around_ne_iteration (.refl k) henc).symm
  · rw [← hentry rfl]
    exact Table.mem_keys.2 ⟨block, hblock⟩

theorem header_not_block (hinfo : info ∈ c.loops) (hpeel : info.terminatedPeel? = some peel) :
    info.header ∉ blocksAll c.regions := by
  intro hb
  obtain ⟨d, next, -, hd, hroot, hne, hkey⟩ := header_block h hc hinfo hpeel
  exact hne (hs.blocksApart hd hc hroot hkey (Table.mem_keys.2 ((h.mem_blocksAll hc).1 hb)))

include hpeels

theorem placedOnce : (placesAll c.regions).Nodup := by
  obtain ⟨-, ⟨covered, hcovered, -⟩, -⟩ := h.shape_spec hc
  rw [(Linked.placesAll_perm hcovered).nodup_iff, List.nodup_append]
  have hpeeled {info : Loop} (hinfo : info ∈ c.loops.filter fun l => l.terminatedPeel?.isSome) :
      info ∈ c.loops ∧ ∃ peel, info.terminatedPeel? = some peel := by
    obtain ⟨hinfo, hpeel⟩ := List.mem_filter.1 hinfo
    exact ⟨hinfo, Option.isSome_iff_exists.1 hpeel⟩
  refine ⟨(Linked.adds_of_checkRegions hcovered).nodup, ?_, ?_⟩
  · refine List.Nodup.map_on ?_ (hpeels.nodup h hc)
    intro info hinfo info' hinfo' hheader
    obtain ⟨hinfo, peel, hpeel⟩ := hpeeled hinfo
    obtain ⟨hinfo', peel', hpeel'⟩ := hpeeled hinfo'
    obtain ⟨d, next, hnext, hd, hroot, -, hkey⟩ := header_block h hc hinfo hpeel
    obtain ⟨d', next', hnext', hd', hroot', -, hkey'⟩ := header_block h hc hinfo' hpeel'
    -- two peels with one header start with the same iteration
    obtain rfl := hs.blocksApart hd hd' (hroot.trans hroot'.symm) hkey (hheader ▸ hkey')
    exact hpeels.listedOnce hc hinfo hinfo' hpeel hpeel' (List.mem_of_getElem? hnext)
      (List.mem_of_getElem? hnext')
  · rintro b hb _ ht rfl
    obtain ⟨info, hinfo, rfl⟩ := List.mem_map.1 ht
    obtain ⟨hinfo, peel, hpeel⟩ := hpeeled hinfo
    exact hs.header_not_block h hc hinfo hpeel hb

/-- An edge that leads forward from the next region, which is one place, leads to the start of a
region after it. -/
theorem mem_starts (hcut : Cut c (r :: rs) later around) (hr : r.places = [a])
    (hedge : p.EdgeIn l k a t) (hforward : [a, t].Sublist (placesAll c.regions)) :
    t ∈ rs.map start ++ later := by
  have hnodup := hs.placedOnce hpeels h hc
  obtain ⟨before, after, hplaces, rfl, hstands⟩ := hcut.split
  rw [List.cons_append, placesAll, hr, List.singleton_append] at hplaces
  rw [hplaces] at hnodup hforward
  obtain ⟨r', hr', ht⟩ := mem_placesAll_iff.1 (mem_of_pair_sublist hnodup hforward)
  have ha : a ∉ placesAll (rs ++ after) := (List.nodup_cons.1 (List.nodup_append.1 hnodup).2.1).1
  have hstart : t = r'.start := eq_start ht fun info body heq hpeel ht' => by
    subst heq
    refine hs.entered hc hedge (hstands _ (List.mem_cons_of_mem r hr')) hpeel ht' fun ha' => ha ?_
    exact mem_placesAll_iff.2 ⟨_, hr', by simpa [places, hpeel] using ha'⟩
  rw [← List.map_append, hstart]
  exact List.mem_map_of_mem hr'

omit hpeels

/-- A context is entered at the start of a region. -/
theorem entry_mem_starts : c.entry ∈ c.regions.map start := by
  obtain ⟨block, hblock⟩ := h.entry hc
  obtain ⟨-, ⟨covered, hcovered, -⟩, -⟩ := h.shape_spec hc
  have hplace : c.entry ∈ placesAll c.regions :=
    (Linked.placesAll_perm hcovered).mem_iff.2
      (List.mem_append_left _ ((h.mem_blocksAll hc).2 ⟨block, hblock⟩))
  obtain ⟨r, hr, hplace⟩ := mem_placesAll_iff.1 hplace
  have hstart : c.entry = r.start := eq_start hplace fun info body heq hpeel hbody => by
    subst heq
    exact hs.entry hc (Cut.top.stands hr) hpeel hbody
  rw [hstart]
  exact List.mem_map_of_mem hr

omit hc

include hpeels

/-- In an advancing program whose peels are apart, all is in order. -/
theorem orderly (hroot : ¬ Relation.TransGen (p.Inlines l) p.root p.root) : p.Orderly l where
  emitted := hs.emitted
  rootApart := hroot
  noChecker := hs.noChecker
  placedOnce := hs.placedOnce hpeels h
  listedOnce hc info hinfo info' hinfo' _ _ hpeel hpeel' _ hnext hnext' :=
    hpeels.listedOnce hc hinfo hinfo' hpeel hpeel' hnext hnext'
  entered := hs.entry_mem_starts h
  forward := by
    intro k c b block rs later around t hc hcut hb ht hback howner
    have hedge := EdgeIn.own hc hb ht hback howner
    rcases hs.forward hc hedge with hforward | ⟨info, hinfo, hpeel, rfl, rfl⟩
    · exact .inl (hs.mem_starts hpeels h hc hcut rfl hedge hforward)
    · exact .inr ⟨info, h.around_of_latch hc (hs.placedOnce hpeels h hc) hcut hinfo hpeel, rfl, rfl⟩
  leaving := by
    intro k c b block t child o d info body rs later around peel hc hb ht hback howner hwithin henc
      hd hcut hpeel hchild
    have hinfo := Linked.cut_mem_loops hcut
    have hedge := EdgeIn.out hc hb ht hback howner hwithin henc hd hinfo hpeel hchild
    rcases hs.forward hd hedge with hforward | ⟨info', hinfo', hpeel', hlatch, -⟩
    · exact hs.mem_starts hpeels h hd hcut (by simp [places, hpeel]) hedge hforward
    · -- a latch is a block of its context, and the header of a peel is none
      obtain ⟨-, ⟨covered, hcovered, -⟩, -⟩ := h.shape_spec hd
      refine (hs.header_not_block h hd hinfo hpeel ?_).elim
      rw [hlatch]
      exact Linked.blocks_of_checkRegions hcovered info' hinfo' hpeel' _
        (h.latch_spec hd hinfo' hpeel').1

end Advancing

theorem Structured.orderly (hs : p.Structured l) (hpeels : p.PeelsApart) (h : p.Linked l) :
    p.Orderly l :=
  hs.toAdvancing.orderly hpeels h (not_inlines_root h.own hs.rootNotCalled)

/-! ## Checking that a program is advancing or structured -/

/-- The contexts around `k`, itself first, up to `fuel` of them. -/
def outward (p : Program) : Nat → ContextId → List ContextId
  | 0, _ => []
  | fuel + 1, k => k :: match (p.contexts.get? k).bind Context.enclosing? with
    | some parent => p.outward fuel parent
    | none => []

theorem mem_outward {n : Nat} {f : ContextId} (h : p.functionRootFrom n k = .ok f)
    (hwithin : p.Within k o) : o ∈ p.outward n k := by
  induction n generalizing k with
  | zero => cases h
  | succ n ih =>
    rw [functionRootFrom, bind_eq_ok] at h
    obtain ⟨c, hc, h⟩ := h
    rw [outward, context_eq_ok.1 hc]
    rcases hwithin.cases_head with rfl | ⟨parent, ⟨c', hc', henc⟩, hwithin⟩
    · exact List.mem_cons_self
    · cases hc'.symm.trans (context_eq_ok.1 hc)
      rw [henc] at h
      simp only [Option.bind_some, henc]
      exact List.mem_cons_of_mem _ (ih h hwithin)

/-- The edges that may be taken between places of the context `o`. -/
def edgesIn (p : Program) (l : Layout) (o : ContextId) (d : Context) : List (BlockId × BlockId) :=
  p.contexts.entries.flatMap fun e =>
    let around := p.outward p.climbBound e.1
    let peels := d.loops.filter fun info => info.iterations.any around.contains
    e.2.blocks.entries.flatMap fun b =>
      let sources := (if e.1 = o then [b.1] else []) ++ peels.map Loop.header
      let targets := b.2.liveSuccs.filter fun t =>
        !Walk.isBackEdge e.2 b.1 t && l.edgeOwner? p e.1 t = some o
      sources.flatMap fun a => targets.map (a, ·)

theorem EdgeIn.mem_edgesIn (h : p.Linked l) (hd : p.contexts.get? o = some d)
    (hedge : p.EdgeIn l o a t) : (a, t) ∈ p.edgesIn l o d := by
  simp only [edgesIn, List.mem_flatMap, List.mem_map, List.mem_filter, List.mem_append]
  cases hedge with
  | @own d' _ _ block hd' hb ht hback howner =>
    exact ⟨(o, d'), Table.mem_entries.2 hd', (a, block), Table.mem_entries.2 hb, a,
      .inl (by simp), t, ⟨ht, by simp [hback, howner]⟩, rfl⟩
  | @out k child c d' b _ block info peel hc hb ht hback howner hwithin _ hd' hinfo hpeel hchild =>
    cases hd.symm.trans hd'
    refine ⟨(k, c), Table.mem_entries.2 hc, (b, block), Table.mem_entries.2 hb, info.header,
      .inr ⟨info, ⟨hinfo, ?_⟩, rfl⟩, t, ⟨ht, by simp [hback, howner]⟩, rfl⟩
    refine List.any_eq_true.2 ⟨child, iterations_eq hpeel ▸ hchild, ?_⟩
    exact List.contains_iff_mem.2 (mem_outward (h.functionRootFrom hc) hwithin)

/-- What is asked of each context of an advancing program, in a form that can be evaluated. -/
@[mk_iff]
structure InOrder (p : Program) (l : Layout) (o : ContextId) (d : Context) : Prop where
  emitted : d.materialized = true
  apart : ∀ e ∈ p.contexts.entries, l.functionRoot o = l.functionRoot e.1 →
    (∃ b ∈ d.blocks.keys, b ∈ e.2.blocks.keys) → o = e.1
  forward : ∀ e ∈ p.edgesIn l o d, [e.1, e.2].Sublist (placesAll d.regions) ∨
    ∃ info ∈ d.loops, info.terminatedPeel? = none ∧ e.1 = info.latch ∧ e.2 = info.header
  entered : ∀ r ∈ bodiesAll d.regions, r.1.terminatedPeel? = none →
    ∀ e ∈ p.edgesIn l o d, e.2 ∈ placesAll r.2 → e.1 ∉ placesAll r.2 → e.2 = r.1.header
  entry : ∀ r ∈ bodiesAll d.regions, r.1.terminatedPeel? = none →
    d.entry ∈ placesAll r.2 → d.entry = r.1.header

instance (p : Program) (l : Layout) (o : ContextId) (d : Context) : Decidable (p.InOrder l o d) :=
  decidable_of_iff _ (inOrder_iff p l o d).symm

/-- To see that a program is advancing it is enough to look at each context. -/
theorem Linked.advancing (h : p.Linked l) (horder : ∀ e ∈ p.contexts.entries, p.InOrder l e.1 e.2)
    (hconds : ∀ cond ∈ p.pathConditions, ∀ g, cond.fact ≠ .checker g) : p.Advancing l := by
  have hin {k : ContextId} {c : Context} (hc : p.contexts.get? k = some c) : p.InOrder l k c :=
    horder (k, c) (Table.mem_entries.2 hc)
  refine ⟨fun {k k' c c' b} hc hc' hroot hb hb' => ?_, fun hc => (hin hc).emitted, hconds,
    fun {o d a t} hd hedge => (hin hd).forward _ (hedge.mem_edgesIn h hd),
    fun {o d a t info body} hd hedge hstands hpeel ht ha => ?_,
    fun {o d info body} hd hstands hpeel => (hin hd).entry _ (mem_bodiesAll hstands) hpeel⟩
  · exact (hin hc).apart (k', c') (Table.mem_entries.2 hc') hroot ⟨b, hb, hb'⟩
  · exact (hin hd).entered _ (mem_bodiesAll hstands) hpeel _ (hedge.mem_edgesIn h hd) ht ha

/-- To see that it is structured, look at the calls too. -/
theorem Advancing.structured (h : p.Advancing l)
    (hcalls : ∀ inst ∈ p.instrs, ∀ inst' ∈ p.instrs, inst.op.callee? = inst'.op.callee? →
      inst.op.callee? = none ∨ inst = inst')
    (hroot : ∀ inst ∈ p.instrs, inst.op.callee? ≠ some p.root) : p.Structured l := by
  refine ⟨h, fun inst hinst inst' hinst' g hg hg' => ?_, hroot⟩
  refine (hcalls inst hinst inst' hinst' (hg.trans hg'.symm)).resolve_left ?_
  rw [hg]
  nofun

theorem peelsApart_of_entries
    (h : ∀ e ∈ p.contexts.entries, (e.2.loops.flatMap Loop.iterations).Nodup) : p.PeelsApart :=
  fun {k c} hc => h (k, c) (Table.mem_entries.2 hc)

end Program

end ByteTrust
