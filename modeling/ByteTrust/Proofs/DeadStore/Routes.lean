import ByteTrust.DeadStore.Search
import ByteTrust.Proofs.Program.Overwrites

/-!
# Two ways along an edge

The walk follows an edge by climbing: from a context through the iterations around it, up to one
that holds the target or starts a peel there. The search for a reader looks the target up in the
table of owners, and the iteration after a back edge in the table of peels. Where no entry of the
tables is overwritten both come to the same place (`successor_eq_route`). A destination of the walk
is compared with the context and block at which it is picked up, `Arrives`: a block itself, the
first iteration of a peel that starts there, or the next iteration.
-/

namespace ByteTrust

namespace Program

/-- The context is iteration number `i` of a terminated peel. -/
def IterationOf (p : Program) (peel : PeelAttempt) (i : Nat) (it : ContextId) : Prop :=
  ∃ o c, p.contexts.get? o = some c ∧ ∃ info ∈ c.loops, info.terminatedPeel? = some peel ∧
    peel.iterations[i]? = some it

/-- Where control is picked up that goes to a destination of the walk, if anywhere. -/
inductive Arrives (p : Program) : Walk.Destination → Option (ContextId × BlockId) → Prop
  /-- At the block itself. -/
  | block {o : ContextId} {d : Context} {t : BlockId} {block : Block}
      (hd : p.contexts.get? o = some d) (hb : d.blocks.get? t = some block) :
      Arrives p (.block o t) (some (o, t))
  /-- The header of a terminated peel stands for the entry of the first iteration. -/
  | first {o it : ContextId} {d : Context} {t : BlockId} (hfirst : p.FirstOf o t it)
      (hd : p.contexts.get? it = some d) : Arrives p (.block o t) (some (it, d.entry))
  /-- At the entry of the next iteration. -/
  | next {it next : ContextId} {d : Context} (hnext : p.NextOf it next)
      (hd : p.contexts.get? next = some d) : Arrives p (.nextIteration it) (some (next, d.entry))
  /-- No iteration comes after the last one. -/
  | last {it : ContextId} {peel : PeelAttempt} {i : Nat} (hit : p.IterationOf peel i it)
      (hlast : peel.iterations[i + 1]? = none) : Arrives p (.nextIteration it) none

variable {p : Program} {l : Layout} {k o it : ContextId} {c d : Context} {b t : BlockId}
  {block : Block} {info : Loop} {peel : PeelAttempt} {i : Nat}

/-! ## The tables -/

theorem nextOf_iff_iterationOf :
    p.NextOf k it ↔ ∃ peel i, p.IterationOf peel i k ∧ peel.iterations[i + 1]? = some it := by
  constructor
  · rintro ⟨o, c, hc, info, hinfo, peel, i, hpeel, hk, hnext⟩
    exact ⟨peel, i, ⟨o, c, hc, info, hinfo, hpeel, hk⟩, hnext⟩
  · rintro ⟨peel, i, ⟨o, c, hc, info, hinfo, hpeel, hk⟩, hnext⟩
    exact ⟨o, c, hc, info, hinfo, peel, i, hpeel, hk, hnext⟩

/-- Unrolled loops of one name are one loop. -/
theorem LoopsApart.eq_of_id (hloops : p.LoopsApart) (hc : p.contexts.get? k = some c)
    {info' : Loop} {peel' : PeelAttempt} (hinfo : info ∈ c.loops) (hinfo' : info' ∈ c.loops)
    (hpeel : info.peel = some peel) (hpeel' : info'.peel = some peel') (hid : info.id = info'.id) :
    info = info' := by
  have hmem : (info, peel) ∈ c.peeled := Layout.mem_peeled.2 ⟨hinfo, hpeel⟩
  have hmem' : (info', peel') ∈ c.peeled := Layout.mem_peeled.2 ⟨hinfo', hpeel'⟩
  exact congrArg Prod.fst (List.inj_on_of_nodup_map (hloops hc) hmem hmem' hid)

namespace Linked

variable (h : p.Linked l)

include h

/-- The table of owners finds the context of a block. -/
theorem owner?_eq (hapart : p.BlocksApart l) (hc : p.contexts.get? k = some c)
    (hb : c.blocks.get? b = some block) : l.owner? (l.functionRoot k) b = some k := by
  obtain ⟨o, ho⟩ := h.owner_exists hc hb
  obtain ⟨d, hd, hroot, block', hb'⟩ := h.owner_spec ho
  rw [ho, hapart hd hc hroot hb' hb]

/-- The table of peels finds the peel attempt of a loop. -/
theorem peel?_eq (hloops : p.LoopsApart) (hc : p.contexts.get? k = some c) (hinfo : info ∈ c.loops)
    (hpeel : info.peel = some peel) : l.peel? k info.id = some peel := by
  have hsome := h.lists.peel_to c (Table.mem_values_of_get? hc) info hinfo peel hpeel
  rw [h.own k c hc] at hsome
  obtain ⟨peel', hpeel'⟩ := Option.isSome_iff_exists.1 hsome
  obtain ⟨c', hc', rfl, info', hinfo', hid, hpeel''⟩ := h.lists.peel_from hpeel'
  cases hc.symm.trans (h.own.mem_values.1 hc')
  cases hloops.eq_of_id hc hinfo' hinfo hpeel'' hpeel hid
  rw [hpeel', ← hpeel'', hpeel]

/-- An iteration tells of its peel where the tables find it. -/
theorem iterationOf_spec (hloops : p.LoopsApart) (hit : p.IterationOf peel i it) :
    ∃ o c loop latch, p.contexts.get? it = some c ∧ c.kind = .iteration loop i c.entry latch ∧
      c.parent = some o ∧ l.peel? o loop = some peel := by
  obtain ⟨o, d, hd, info, hinfo, hpeel, hi⟩ := hit
  obtain ⟨c, latch, hc, hkind, hparent, -⟩ := h.iteration_spec hd hinfo hpeel hi
  exact ⟨o, c, info.id, latch, hc, hkind, hparent,
    h.peel?_eq hloops hd hinfo (Layout.terminatedPeel?_eq_some.1 hpeel).1⟩

/-- An iteration belongs to one peel, at one position. -/
theorem iterationOf_unique (hloops : p.LoopsApart) {peel' : PeelAttempt} {i' : Nat}
    (hit : p.IterationOf peel i it) (hit' : p.IterationOf peel' i' it) : peel = peel' ∧ i = i' := by
  obtain ⟨o, c, loop, latch, hc, hkind, hparent, hpeel⟩ := h.iterationOf_spec hloops hit
  obtain ⟨o', c', loop', latch', hc', hkind', hparent', hpeel'⟩ := h.iterationOf_spec hloops hit'
  cases hc.symm.trans hc'
  cases hparent.symm.trans hparent'
  obtain ⟨rfl, rfl, -, -⟩ := ContextKind.iteration.inj (hkind.symm.trans hkind')
  exact ⟨Option.some.inj (hpeel.symm.trans hpeel'), rfl⟩

theorem nextOf_iff_get (hloops : p.LoopsApart) {next : ContextId} (hit : p.IterationOf peel i it) :
    p.NextOf it next ↔ peel.iterations[i + 1]? = some next := by
  rw [nextOf_iff_iterationOf]
  constructor
  · rintro ⟨peel', i', hit', hnext⟩
    obtain ⟨rfl, rfl⟩ := h.iterationOf_unique hloops hit hit'
    exact hnext
  · exact fun hnext => ⟨peel, i, hit, hnext⟩

/-- A peel starts at a block of its first iteration, which is in the table of owners. -/
theorem firstOf_spec (hapart : p.BlocksApart l) (hfirst : p.FirstOf o t it) :
    ∃ d, p.contexts.get? it = some d ∧ d.entry = t ∧ l.functionRoot it = l.functionRoot o ∧
      it ≠ o ∧ l.owner? (l.functionRoot o) t = some it := by
  obtain ⟨c, hc, info, hinfo, peel, hpeel, rfl, hit⟩ := hfirst
  obtain ⟨d, latch, hd, -, -, hentry⟩ := h.iteration_spec hc hinfo hpeel hit
  have henc := h.iteration_encloses hc hinfo hpeel hit
  obtain ⟨block, hblock⟩ := h.entry hd
  rw [hentry rfl] at hblock
  have hroot := h.functionRoot_of_encloses henc
  have howner := h.owner?_eq hapart hd hblock
  rw [hroot] at howner
  exact ⟨d, hd, hentry rfl, hroot, (h.around_ne_iteration (.refl o) henc).symm, howner⟩

/-- A place of a context that owns it is where the table of owners says. -/
theorem arrives_block_iff (hapart : p.BlocksApart l) (ho : p.contexts.get? o = some d)
    (howns : l.owns o t = true) {a : Option (ContextId × BlockId)} :
    p.Arrives (.block o t) a ↔ ∃ g, l.owner? (l.functionRoot o) t = some g ∧ a = some (g, t) := by
  constructor
  · intro ha
    cases ha with
    | block hd hb => exact ⟨o, h.owner?_eq hapart hd hb, rfl⟩
    | first hfirst hd =>
      obtain ⟨d', hd', hentry, -, -, howner⟩ := h.firstOf_spec hapart hfirst
      cases hd.symm.trans hd'
      exact ⟨_, howner, by rw [hentry]⟩
  · rintro ⟨g, hg, rfl⟩
    rw [Layout.owns, Bool.or_eq_true, decide_eq_true_eq] at howns
    rcases howns with howner | hheader
    · cases hg.symm.trans howner
      obtain ⟨d', hd', -, block, hb⟩ := h.owner_spec howner
      exact .block hd' hb
    · -- the first iteration holds the header
      obtain ⟨loop, hloop⟩ := Option.isSome_iff_exists.1 hheader
      obtain ⟨d', hd', rfl, info, hinfo, peel, hpeel, hhead, -⟩ := h.lists.header_from hloop
      have hget := h.own.mem_values.1 hd'
      obtain ⟨it, hit⟩ := h.first_iteration hget hinfo hpeel
      have hfirst : p.FirstOf d'.id t it := ⟨d', hget, info, hinfo, peel, hpeel, hhead, hit⟩
      obtain ⟨e, he, hentry, -, -, howner⟩ := h.firstOf_spec hapart hfirst
      cases hg.symm.trans howner
      rw [← hentry]
      exact .first (hentry ▸ hfirst) he

/-- Control that leaves an iteration over its back edge arrives where the table of peels says. -/
theorem arrives_next_iff (hloops : p.LoopsApart) (hit : p.IterationOf peel i it)
    {a : Option (ContextId × BlockId)} : p.Arrives (.nextIteration it) a ↔
      (∃ next d, peel.iterations[i + 1]? = some next ∧ p.contexts.get? next = some d ∧
        a = some (next, d.entry)) ∨ (peel.iterations[i + 1]? = none ∧ a = none) := by
  constructor
  · intro ha
    cases ha with
    | next hnext hd => exact .inl ⟨_, _, (h.nextOf_iff_get hloops hit).1 hnext, hd, rfl⟩
    | last hit' hlast =>
      obtain ⟨rfl, rfl⟩ := h.iterationOf_unique hloops hit hit'
      exact .inr ⟨hlast, rfl⟩
  · rintro (⟨next, d, hnext, hd, rfl⟩ | ⟨hlast, rfl⟩)
    · exact .next ((h.nextOf_iff_get hloops hit).2 hnext) hd
    · exact .last hit hlast

theorem arrives_next (hloops : p.LoopsApart) (hit : p.IterationOf peel i it) :
    ∃ a, p.Arrives (.nextIteration it) a := by
  cases hnext : peel.iterations[i + 1]? with
  | none => exact ⟨none, .last hit hnext⟩
  | some next =>
    have hnextOf := (h.nextOf_iff_get hloops hit).2 hnext
    obtain ⟨o, c, hc, info, hinfo, hpeel, -⟩ := hit
    obtain ⟨d, latch, hd, -⟩ := h.iteration_spec hc hinfo hpeel hnext
    exact ⟨_, .next hnextOf hd⟩

end Linked

end Program

/-! ## The walk and the search -/

open Program

variable {p : Program} {l : Layout} {k o : ContextId} {c : Context} {b t : BlockId}

namespace Walk

/-- Where no loop is being walked, no edge is dropped. -/
theorem route_alone {w : Setting} (hc : w.program.contexts.get? k = some c) (suppressed : Bool)
    (howner : w.layout.edgeOwner? w.program k t = some o) :
    route w ⟨k, [], suppressed⟩ b t =
      .ok (some (if isBackEdge c b t then .nextIteration k else .block o t)) := by
  rw [route, context_eq_ok.2 hc, ok_bind]
  split
  · rfl
  · simp [howner]

end Walk

namespace DeadStore

variable {q : Setting}

theorem successor_of_forward (hc : q.program.contexts.get? k = some c)
    (hedge : Walk.isBackEdge c b t = false)
    (howner : q.layout.owner? (q.layout.functionRoot k) t = some o) :
    successor q k b t = .ok (some (o, t)) := by
  rw [successor, context_eq_ok.2 hc, ok_bind, howner]
  dsimp only
  split
  · next hkind hparent =>
    rw [if_neg, pure_eq_ok]
    simpa [Walk.isBackEdge, hkind] using hedge
  · rfl

theorem successor_of_back {loop : LoopId} {i : Nat} {latch header : BlockId} {peel : PeelAttempt}
    (hc : q.program.contexts.get? k = some c) (hkind : c.kind = .iteration loop i header latch)
    (hparent : c.parent = some o) (hpeel : q.layout.peel? o loop = some peel)
    {a : Option (ContextId × BlockId)} : successor q k latch header = .ok a ↔
      (∃ next d, peel.iterations[i + 1]? = some next ∧ q.program.contexts.get? next = some d ∧
        a = some (next, d.entry)) ∨ (peel.iterations[i + 1]? = none ∧ a = none) := by
  rw [successor, context_eq_ok.2 hc, ok_bind]
  simp only [hkind, hparent, and_self, if_true, iterationAfter?, hpeel, Option.bind_some]
  cases peel.iterations[i + 1]? with
  | none => simp [eq_comm]
  | some next =>
    simp only [bind_eq_ok, context_eq_ok, pure_eq_ok, Except.ok.injEq, Option.some.injEq]
    simp [eq_comm]

/-- In a linked program whose layout is made without overwriting, take any edge of a function or of
an iteration of a terminated peel. Where no loop is being walked the walk finds a destination for
it, and control arrives there at exactly one place, which is what the search for a reader finds. -/
theorem successor_eq_route {p₀ : Program} (hlink : p₀.link = .ok p)
    (hl : Layout.ofProgram p = .ok l) (hown : p.OwnNames) (hclean : Layout.Clean (l.log p))
    (hc : p.contexts.get? k = some c)
    (hk : c.isFunction = true ∨ ∃ peel i, p.IterationOf peel i k) {block : Block}
    (hb : c.blocks.get? b = some block) {s : Successor} (hs : s ∈ block.succs)
    (settings : Settings) (suppressed : Bool) (verdicts : IdentMap .inst Verdict)
    (checked : IdentSet .inst) :
    ∃ dest a, Walk.route ⟨p, l, settings⟩ ⟨k, [], suppressed⟩ b s.target = .ok (some dest) ∧
      successor ⟨p, l, verdicts, checked⟩ k b s.target = .ok a ∧
      ∀ a', p.Arrives dest a' ↔ a' = a := by
  have h := linked_of_link hlink hl hown
  obtain ⟨hapart, hloops⟩ := h.clean_iff.1 hclean
  obtain ⟨o, ho⟩ := h.edgeOwner_exists hc hb hs
  have hroute := Walk.route_alone (w := ⟨p, l, settings⟩) (b := b) hc suppressed ho
  cases hback : Walk.isBackEdge c b s.target with
  | false =>
    obtain ⟨hroot, ⟨d, hd⟩, howns⟩ := h.edgeOwnerFrom_spec hc ho
    obtain ⟨g, hg⟩ := h.owner_of_owns hd howns
    refine ⟨.block o s.target, some (g, s.target), by simpa [hback] using hroute,
      successor_of_forward hc hback (hroot ▸ hg), fun a' => ?_⟩
    rw [h.arrives_block_iff hapart hd howns]
    simp [hg]
  | true =>
    obtain hfun | ⟨peel, i, hit⟩ := hk
    · cases hkind : c.kind <;> simp_all [Context.isFunction, Walk.isBackEdge]
    · obtain ⟨o', c', loop, latch, hc', hkind, hparent, hpeel⟩ := h.iterationOf_spec hloops hit
      cases hc.symm.trans hc'
      obtain ⟨rfl, htarget⟩ : b = latch ∧ s.target = c.entry := by
        simpa [Walk.isBackEdge, hkind] using hback
      have hsuccessor (a) := successor_of_back (q := ⟨p, l, verdicts, checked⟩) (a := a) hc hkind
        hparent hpeel
      simp only [← h.arrives_next_iff hloops hit, ← htarget] at hsuccessor
      obtain ⟨a, ha⟩ := h.arrives_next hloops hit
      refine ⟨.nextIteration k, a, by simpa [hback] using hroute, (hsuccessor a).2 ha, fun a' => ?_⟩
      rw [← hsuccessor, (hsuccessor a).2 ha]
      simp [eq_comm]

/-- There is an edge from `b` to `t` in the context, for which the walk finds `dest` and the search
finds `a`. -/
def LeadsBoth (p : Program) (l : Layout) (k : ContextId) (b t : BlockId) (dest : Walk.Destination)
    (a : Option (ContextId × BlockId)) : Prop :=
  Yields (p.block k b) (fun block => t ∈ block.succs.map Successor.target) ∧
    Yields (Walk.route ⟨p, l, {}⟩ ⟨k, [], false⟩ b t) (· = some dest) ∧
    Yields (successor ⟨p, l, ∅, ∅⟩ k b t) (· = a)
deriving Decidable

/-- A loop that was unrolled into two iterations, with another one in the first of them that was
unrolled into one. From the innermost iteration an edge leads out of both. -/
def peelInPeel : Program where
  objects := .ofList []
  contexts := .ofList [
    (⟨0⟩,
      { id := ⟨0⟩
        kind := .function ⟨0⟩ "main" []
        blocks := .ofList [
          (⟨0⟩, { id := ⟨0⟩, succs := [⟨⟨1⟩, true⟩] }),
          (⟨5⟩, { id := ⟨5⟩, terminator := .ret })]
        regions := [.block ⟨0⟩,
          .loop { id := ⟨0⟩, preheader := ⟨0⟩, header := ⟨1⟩, latch := ⟨4⟩,
                  peel := some ⟨[⟨1⟩, ⟨2⟩], true, true⟩ } [],
          .block ⟨5⟩]
        entry := ⟨0⟩ }),
    (⟨1⟩,
      { id := ⟨1⟩
        kind := .iteration ⟨0⟩ 0 ⟨1⟩ ⟨2⟩
        parent := some ⟨0⟩
        blocks := .ofList [
          (⟨1⟩, { id := ⟨1⟩, succs := [⟨⟨3⟩, true⟩] }),
          (⟨2⟩, { id := ⟨2⟩, succs := [⟨⟨1⟩, true⟩, ⟨⟨5⟩, true⟩] })]
        regions := [.block ⟨1⟩,
          .loop { id := ⟨0⟩, preheader := ⟨1⟩, header := ⟨3⟩, latch := ⟨3⟩,
                  peel := some ⟨[⟨3⟩], true, true⟩ } [],
          .block ⟨2⟩]
        entry := ⟨1⟩ }),
    (⟨2⟩,
      { id := ⟨2⟩
        kind := .iteration ⟨0⟩ 1 ⟨4⟩ ⟨4⟩
        parent := some ⟨0⟩
        blocks := .ofList [
          (⟨4⟩, { id := ⟨4⟩, succs := [⟨⟨4⟩, false⟩, ⟨⟨5⟩, true⟩] })]
        regions := [.block ⟨4⟩]
        entry := ⟨4⟩ }),
    (⟨3⟩,
      { id := ⟨3⟩
        kind := .iteration ⟨0⟩ 0 ⟨3⟩ ⟨3⟩
        parent := some ⟨1⟩
        blocks := .ofList [
          (⟨3⟩, { id := ⟨3⟩, succs := [⟨⟨3⟩, false⟩, ⟨⟨2⟩, true⟩, ⟨⟨5⟩, true⟩] })]
        regions := [.block ⟨3⟩]
        entry := ⟨3⟩ })]
  root := ⟨0⟩

/-- The edge into the outer peel arrives in its first iteration, the back edge of that one in the
second iteration, the back edge of the second one nowhere, and the edge out of both peels in the
function. -/
theorem successor_eq_route_peelInPeel : Yields peelInPeel.link fun p =>
    Yields (Layout.ofProgram p) fun l => p.OwnNames ∧ Layout.Clean (l.log p) ∧
      p.Arrives (.block ⟨0⟩ ⟨1⟩) (some (⟨1⟩, ⟨1⟩)) ∧
      p.Arrives (.nextIteration ⟨1⟩) (some (⟨2⟩, ⟨4⟩)) ∧ p.Arrives (.nextIteration ⟨2⟩) none ∧
      p.Arrives (.block ⟨0⟩ ⟨5⟩) (some (⟨0⟩, ⟨5⟩)) := by
  have hyields : Yields peelInPeel.link fun p => Yields (Layout.ofProgram p) fun l =>
      p.OwnNames ∧ Layout.Clean (l.log p) ∧
      (p.contexts.get? ⟨0⟩).all Context.isFunction = true ∧
      (∃ e ∈ p.contexts.entries, ∃ info ∈ e.2.loops,
        info.terminatedPeel? = some ⟨[⟨1⟩, ⟨2⟩], true, true⟩) ∧
      (∃ e ∈ p.contexts.entries, ∃ info ∈ e.2.loops,
        info.terminatedPeel? = some ⟨[⟨3⟩], true, true⟩) ∧
      LeadsBoth p l ⟨0⟩ ⟨0⟩ ⟨1⟩ (.block ⟨0⟩ ⟨1⟩) (some (⟨1⟩, ⟨1⟩)) ∧
      LeadsBoth p l ⟨1⟩ ⟨2⟩ ⟨1⟩ (.nextIteration ⟨1⟩) (some (⟨2⟩, ⟨4⟩)) ∧
      LeadsBoth p l ⟨2⟩ ⟨4⟩ ⟨4⟩ (.nextIteration ⟨2⟩) none ∧
      LeadsBoth p l ⟨3⟩ ⟨3⟩ ⟨5⟩ (.block ⟨0⟩ ⟨5⟩) (some (⟨0⟩, ⟨5⟩)) := by
    decide +kernel
  obtain ⟨p, hlink, l, hl, hown, hclean, hfun, houter, hinner, h₀, h₁, h₂, h₃⟩ := hyields
  have harrives {k : ContextId} {b t : BlockId} {dest : Walk.Destination}
      {a : Option (ContextId × BlockId)} (h : LeadsBoth p l k b t dest a)
      (hk : (p.contexts.get? k).all Context.isFunction = true ∨ ∃ peel i, p.IterationOf peel i k) :
      p.Arrives dest a := by
    obtain ⟨⟨block, hblock, ht⟩, ⟨_, hroute, rfl⟩, _, hsuccessor, rfl⟩ := h
    obtain ⟨c, hc, hb⟩ := Program.block_eq_ok.1 hblock
    obtain ⟨s, hs, rfl⟩ := List.mem_map.1 ht
    rw [hc, Option.all_some] at hk
    obtain ⟨dest', a', hroute', hsuccessor', harrives⟩ :=
      successor_eq_route hlink hl hown hclean hc hk hb hs {} false ∅ ∅
    cases hroute.symm.trans hroute'
    cases hsuccessor.symm.trans hsuccessor'
    exact (harrives _).2 rfl
  have hiteration {peel : PeelAttempt} (h : ∃ e ∈ p.contexts.entries, ∃ info ∈ e.2.loops,
      info.terminatedPeel? = some peel) {i : Nat} {it : ContextId}
      (hi : peel.iterations[i]? = some it) : ∃ peel i, p.IterationOf peel i it := by
    obtain ⟨e, he, info, hinfo, hpeel⟩ := h
    exact ⟨peel, i, e.1, e.2, Table.mem_entries.1 he, info, hinfo, hpeel, hi⟩
  exact ⟨p, hlink, l, hl, hown, hclean, harrives h₀ (.inl hfun),
    harrives h₁ (.inr (hiteration (i := 0) houter rfl)),
    harrives h₂ (.inr (hiteration (i := 1) houter rfl)),
    harrives h₃ (.inr (hiteration (i := 0) hinner rfl))⟩

end DeadStore

end ByteTrust
