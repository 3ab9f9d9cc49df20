import ByteTrust.Proofs.Interference.Tame

/-!
# Paths and their replay

A path follows edges that may be taken, through blocks, around loops as often as it likes, into
callees and back, and through the iterations of a peel in order. What a path does to a snapshot is
its replay: path conditions vouch, instructions have their effect, and a read has the need that the
snapshot gives it. The replay knows nothing of passes, meets or needs found before; only what is
`quiet` is told apart: reads whose value was given up have no need, and calls whose callee belongs
to another call are passed over with all trust lost.

`Path` relates the snapshots at both ends of a path whose calls have returned. `Meets` also goes
down into calls that have not.
-/

namespace ByteTrust

namespace Snapshot

/-- A byte that a snapshot may trust. -/
structure Cell where
  level : Level
  object : ObjectId
  byte : Nat

/-- The snapshot trusts a byte. -/
def Holds (x : Snapshot) (a : Cell) : Prop := x.TrustsAt a.level a.object a.byte

/-- Of the bytes in `B`, `x` trusts none that `y` does not trust. -/
def Under (B : Cell → Prop) (x y : Snapshot) : Prop := ∀ a, B a → x.Holds a → y.Holds a

variable {B : Cell → Prop} {x y z x' y' : Snapshot} {cs : List ContextId}

theorem Under.refl (B : Cell → Prop) (x : Snapshot) : Under B x x := fun _ _ h => h

theorem Under.trans (h : Under B x y) (h' : Under B y z) : Under B x z :=
  fun a ha hx => h' a ha (h a ha hx)

theorem Below.under (h : Below x y) (B : Cell → Prop) : Under B x y :=
  fun a _ hx => h.trusts a.level a.object a.byte hx

/-- The bytes of the frames `cs`. -/
def Cell.In (cs : List ContextId) (a : Cell) : Prop := a.level.Within cs

theorem Cell.In.cons {a : Cell} (h : a.In cs) (c : ContextId) : a.In (c :: cs) := by
  unfold Cell.In at h ⊢
  cases hlevel : a.level with
  | shared => trivial
  | frame d =>
    rw [hlevel] at h
    exact Nat.lt_succ_of_lt h

theorem Under.below (h : Under (Cell.In cs) x y) (hx : x.owners = cs) (hy : y.owners = cs) :
    Below x y :=
  ⟨hx.trans hy.symm, fun ℓ o b hb => h ⟨ℓ, o, b⟩ (hx ▸ hb.within) hb⟩

theorem Under.flow {f : Stamp → Snapshot → Snapshot} (hf : Flows cs f) (hx : x.Canonical)
    (hy : y.Canonical) (hxcs : x.owners = cs) (hycs : y.owners = cs) (h : Under B x y)
    (now now' : Stamp) : Under B (f now x) (f now' y) :=
  fun a ha hxa => hf.imp hx hy hxcs hycs (h a ha) hxa

theorem Under.pushFrame (h : Under B x y) (howners : x.owners = y.owners)
    (hB : ∀ a, B a → a.In x.owners) (now now' : Stamp) (c : ContextId) :
    Under B (x.pushFrame now c) (y.pushFrame now' c) := by
  intro a ha hxa
  have hne : a.level ≠ .frame x.owners.length := by
    intro heq
    have := hB a ha
    rw [Cell.In, heq] at this
    exact Nat.lt_irrefl _ this
  unfold Holds at hxa ⊢
  rw [trustsAt_pushFrame, if_neg hne] at hxa
  rw [trustsAt_pushFrame, if_neg (howners ▸ hne)]
  exact h a ha hxa

theorem Under.popFrame {now now' : Stamp} {c c' : ContextId} (h : Under B x y)
    (howners : x.owners = y.owners) (hx : x.popFrame now = .ok (c, x'))
    (hy : y.popFrame now' = .ok (c', y')) : Under B x' y' := by
  have htail : x'.owners = y'.owners := by
    have := (popFrame_eq_ok hx).1.symm.trans (howners.trans (popFrame_eq_ok hy).1)
    exact (List.cons.inj this).2
  intro a ha hxa
  unfold Holds at hxa ⊢
  rw [trustsAt_popFrame hx] at hxa
  rw [trustsAt_popFrame hy, ← htail]
  exact ⟨hxa.1, h a ha hxa.2⟩

end Snapshot

open Snapshot

namespace Walk

variable {w : Setting} {scope : Scope} {plain : Prop} {cs : List ContextId} {B : Cell → Prop}
  {inst : Instr} {x y z x' y' : Snapshot} {s s' : State} {quiet : Bool} {now now' : Stamp}

/-! ## Replaying an instruction -/

/-- The need of a read on a path. -/
def replayNeed (w : Setting) (quiet : Bool) (inst : Instr) (x : Snapshot) : Need :=
  if inst.threadLocal || quiet then .never else w.program.need w.settings x inst.op

/-- What an instruction other than an inlined call does on a path. -/
def replay (w : Setting) (quiet : Bool) (now : Stamp) (inst : Instr) (x : Snapshot) : Snapshot :=
  if inst.op.readsMemory then
    w.program.transfer w.settings now inst.op (some (replayNeed w quiet inst x)) false x
  else if inst.threadLocal then x
  else w.program.transfer w.settings now inst.op none false x

theorem replay_flows (quiet : Bool) (inst : Instr) :
    Flows cs fun now x => replay w quiet now inst x := by
  unfold replay
  split
  · by_cases hatomic : ∃ ptr size ordering result, inst.op = .atomic ptr size ordering result
    · obtain ⟨ptr, size, ordering, result, hop⟩ := hatomic
      -- the need of an atomic operation is the same on every snapshot
      have hneed (x : Snapshot) : replayNeed w quiet inst x =
          if inst.threadLocal || quiet then .never
          else if w.settings.singleThreaded then .never
          else if result.isWhollyUnknown then .never else .must := by
        simp only [replayNeed, Program.need, hop]
      simp only [hneed]
      exact Program.transfer_flows _ _ _
    · have hcongr (now : Stamp) (x : Snapshot) :
          w.program.transfer w.settings now inst.op (some (replayNeed w quiet inst x)) false x =
            w.program.transfer w.settings now inst.op none false x :=
        Program.transfer_congr (fun ptr size ordering result heq =>
          hatomic ⟨ptr, size, ordering, result, heq⟩) _ _
      simp only [hcongr]
      exact Program.transfer_flows _ _ _
  · split
    · exact flows_id
    · exact Program.transfer_flows _ _ _

/-- A visit trusts no more than the replay, when no need was settled before but for quiet reads. -/
theorem Visits.below_replay (h : Visits w scope inst x s y s') (hemitted : scope.suppressed = false)
    (hx : Fits cs x) (hquiet : s.findings.needs.get? inst.id = some .never → quiet = true)
    (now : Stamp) : Below y (replay w quiet now inst x) := by
  unfold replay
  cases h with
  | @read need recorded now₀ _ hread hneed =>
    rw [if_pos hread, hemitted]
    refine Program.transfer_below hx.canonical hx.owners fun _ _ _ _ _ hmust => ?_
    unfold replayNeed at hmust
    split at hmust
    · cases hmust
    · next hloud =>
      rw [Bool.or_eq_true, not_or] at hloud
      have hbefore : s.findings.needs.get? inst.id ≠ some .never := fun hnever =>
        hloud.2 (hquiet hnever)
      rw [hneed, needNow, if_neg (not_or.2 ⟨hloud.1, hbefore⟩), Option.some.inj hmust]
      cases (s.findings.needs.get? inst.id).getD .never <;> rfl
  | own hread hlocal =>
    rw [if_neg (by simp [hread]), if_pos hlocal]
    exact .refl x
  | other hread hlocal =>
    rw [if_neg (by simp [hread]), if_neg (by simp [hlocal]), hemitted]
    exact Program.transfer_below hx.canonical hx.owners (by rintro _ _ _ _ _ ⟨⟩)

/-- The replay trusts no more than a visit, when quiet reads were settled before. -/
theorem Visits.replay_below (h : Visits w scope inst x s y s') (hemitted : scope.suppressed = false)
    (hx : Fits cs x) (hinst : inst ∈ w.program.instrs) (hnoted : Noted w plain s)
    (hquiet : quiet = true → s.findings.needs.get? inst.id = some .never) (now : Stamp) :
    Below (replay w quiet now inst x) y := by
  unfold replay
  cases h with
  | @read need recorded now₀ _ hread hneed =>
    rw [if_pos hread, hemitted]
    refine Program.transfer_below hx.canonical hx.owners fun ptr size ordering result hop hmust => ?_
    obtain ⟨hlocal, hcause⟩ := needNow_eq_must (hneed.symm.trans (Option.some.inj hmust))
    have hloud : quiet = false := by
      cases quiet with
      | false => rfl
      | true =>
        rw [needNow, if_pos (.inr (hquiet rfl))] at hneed
        cases hneed.symm.trans (Option.some.inj hmust)
    have hnow : w.program.need w.settings x inst.op = .must := by
      rcases hcause with hbefore | hnow
      · obtain ⟨-, x', hx'⟩ := hnoted.must inst hinst hbefore
        rw [hop] at hx' ⊢
        exact hx'
      · exact hnow
    rw [replayNeed, hlocal, hloud, hnow]
    rfl
  | own hread hlocal =>
    rw [if_neg (by simp [hread]), if_pos hlocal]
    exact .refl x
  | other hread hlocal =>
    rw [if_neg (by simp [hread]), if_neg (by simp [hlocal]), hemitted]
    exact Program.transfer_below hx.canonical hx.owners (by rintro _ _ _ _ _ ⟨⟩)

/-! ## Paths -/

/-- Where an edge from `b` to `t` may lead: to the next iteration, or to the block `t` of its
owner. What arrives at the header of a loop in its second pass is told apart. -/
inductive Leads (w : Setting) (k : ContextId) (c : Context) (b t : BlockId) : Bin → Prop
  | back (hback : isBackEdge c b t = true) : Leads w k c b t (.back k)
  | block {o : ContextId} (hback : isBackEdge c b t = false)
      (howner : w.layout.edgeOwner? w.program k t = some o) : Leads w k c b t (.block o t)
  | closing {o : ContextId} (hback : isBackEdge c b t = false)
      (howner : w.layout.edgeOwner? w.program k t = some o) : Leads w k c b t (.closing o t)

/-- A part of a path. -/
inductive Leg
  | instrs (insts : List Instr)
  /-- From one bin to another, along edges that `R` allows by their source and where they lead. -/
  | way (R : BlockId → Bin → Prop) (i j : Bin)

/-- Paths from one snapshot to another. -/
inductive Path (w : Setting) (quiet : InstId → Bool) : Leg → Snapshot → Snapshot → Prop
  | done {x : Snapshot} : Path w quiet (.instrs []) x x
  | instr {inst : Instr} {insts : List Instr} {x y : Snapshot} (now : Stamp)
      (hcallee : inst.op.callee? = none)
      (hrest : Path w quiet (.instrs insts) (replay w (quiet inst.id) now inst x) y) :
      Path w quiet (.instrs (inst :: insts)) x y
  | call {inst : Instr} {insts : List Instr} {g : ContextId} {d : Context} {x y z : Snapshot}
      (now : Stamp) (hcallee : inst.op.callee? = some g) (hloud : quiet inst.id = false)
      (hd : w.program.contexts.get? g = some d)
      (hcall : Path w quiet (.way (fun _ _ => True) (.block g d.entry) (.returns g))
        (x.pushFrame now g) y)
      (hrest : Path w quiet (.instrs insts) y z) : Path w quiet (.instrs (inst :: insts)) x z
  | passed {inst : Instr} {insts : List Instr} {g : ContextId} {x y : Snapshot} (now : Stamp)
      (hcallee : inst.op.callee? = some g) (hquiet : quiet inst.id = true)
      (hrest : Path w quiet (.instrs insts) (x.clobberAll now) y) :
      Path w quiet (.instrs (inst :: insts)) x y
  | here {R : BlockId → Bin → Prop} {j : Bin} {x : Snapshot} : Path w quiet (.way R j j) x x
  | edge {R : BlockId → Bin → Prop} {i j : Bin} {k : ContextId} {c : Context} {b t : BlockId}
      {block : Block} {conds : List PathCondition} {x y y₁ z : Snapshot}
      (hway : Path w quiet (.way R i (.block k b)) x y) (hc : w.program.contexts.get? k = some c)
      (hb : c.blocks.get? b = some block) (hconds : conditionsAt w k b = .ok conds)
      (hvouch : Vouches w conds y y₁) (hinsts : Path w quiet (.instrs block.insts) y₁ z)
      (hend : block.terminator = .branch) (ht : t ∈ block.liveSuccs) (hleads : Leads w k c b t j)
      (hR : R b j) : Path w quiet (.way R i j) x z
  | ret {R : BlockId → Bin → Prop} {i : Bin} {k f : ContextId} {c : Context} {b : BlockId}
      {block : Block} {conds : List PathCondition} {now : Stamp} {x y y₁ z z' : Snapshot}
      (hway : Path w quiet (.way R i (.block k b)) x y) (hc : w.program.contexts.get? k = some c)
      (hb : c.blocks.get? b = some block) (hconds : conditionsAt w k b = .ok conds)
      (hvouch : Vouches w conds y y₁) (hinsts : Path w quiet (.instrs block.insts) y₁ z)
      (hend : block.terminator = .ret) (hpop : z.popFrame now = .ok (f, z')) :
      Path w quiet (.way R i (.returns (w.layout.functionRoot k))) x z'
  | first {R : BlockId → Bin → Prop} {i : Bin} {k it : ContextId} {d : Context} {b : BlockId}
      {x y : Snapshot} (hway : Path w quiet (.way R i (.block k b)) x y)
      (hfirst : w.program.FirstOf k b it) (hd : w.program.contexts.get? it = some d) :
      Path w quiet (.way R i (.block it d.entry)) x y
  | next {R : BlockId → Bin → Prop} {i : Bin} {it next : ContextId} {d : Context}
      {x y : Snapshot} (hway : Path w quiet (.way R i (.back it)) x y)
      (hnext : w.program.NextOf it next) (hd : w.program.contexts.get? next = some d) :
      Path w quiet (.way R i (.block next d.entry)) x y

/-- The paths through a function. -/
abbrev Leg.through (g : ContextId) (d : Context) : Leg :=
  .way (fun _ _ => True) (.block g d.entry) (.returns g)

/-- Where a path starts that may end within a call. -/
inductive Origin
  | instrs (insts : List Instr)
  /-- A call of a function. -/
  | function (g : ContextId)

/-- A path that starts at `x` comes to the instruction `inst` with the snapshot `z`, within any
number of calls. -/
inductive Meets (w : Setting) (quiet : InstId → Bool) :
    Origin → Snapshot → Instr → Snapshot → Prop
  | here {inst : Instr} {insts : List Instr} {x : Snapshot} :
      Meets w quiet (.instrs (inst :: insts)) x inst x
  | instr {inst inst' : Instr} {insts : List Instr} {x z : Snapshot} (now : Stamp)
      (hcallee : inst.op.callee? = none)
      (hrest : Meets w quiet (.instrs insts) (replay w (quiet inst.id) now inst x) inst' z) :
      Meets w quiet (.instrs (inst :: insts)) x inst' z
  | past {inst inst' : Instr} {insts : List Instr} {g : ContextId} {d : Context}
      {x y z : Snapshot} (now : Stamp) (hcallee : inst.op.callee? = some g)
      (hloud : quiet inst.id = false) (hd : w.program.contexts.get? g = some d)
      (hcall : Path w quiet (.through g d) (x.pushFrame now g) y)
      (hrest : Meets w quiet (.instrs insts) y inst' z) :
      Meets w quiet (.instrs (inst :: insts)) x inst' z
  | passed {inst inst' : Instr} {insts : List Instr} {g : ContextId} {x z : Snapshot} (now : Stamp)
      (hcallee : inst.op.callee? = some g) (hquiet : quiet inst.id = true)
      (hrest : Meets w quiet (.instrs insts) (x.clobberAll now) inst' z) :
      Meets w quiet (.instrs (inst :: insts)) x inst' z
  | into {inst inst' : Instr} {insts : List Instr} {g : ContextId} {x z : Snapshot}
      (hcallee : inst.op.callee? = some g) (hloud : quiet inst.id = false)
      (hmeets : Meets w quiet (.function g) x inst' z) :
      Meets w quiet (.instrs (inst :: insts)) x inst' z
  | function {inst : Instr} {g k : ContextId} {c d : Context} {b : BlockId} {block : Block}
      {conds : List PathCondition} {x y y₁ z : Snapshot} (now : Stamp)
      (hd : w.program.contexts.get? g = some d)
      (hway : Path w quiet (.way (fun _ _ => True) (.block g d.entry) (.block k b))
        (x.pushFrame now g) y)
      (hc : w.program.contexts.get? k = some c) (hb : c.blocks.get? b = some block)
      (hconds : conditionsAt w k b = .ok conds) (hvouch : Vouches w conds y y₁)
      (hmeets : Meets w quiet (.instrs block.insts) y₁ inst z) :
      Meets w quiet (.function g) x inst z

variable {q : InstId → Bool}

/-! ## Frames along paths -/

/-- The frames at the end of a part of a path. -/
def Leg.frames (cs : List ContextId) : Leg → List ContextId
  | .instrs _ => cs
  | .way _ _ j => if j matches .returns _ then cs.tail else cs

/-- A way starts before a return. -/
def Leg.Starts : Leg → Prop
  | .instrs _ => True
  | .way _ i _ => ∀ f, i ≠ .returns f

theorem Path.fits {leg : Leg} (h : Path w q leg x y) (hleg : leg.Starts) (hx : Fits cs x) :
    Fits (leg.frames cs) y := by
  induction h generalizing cs with
  | done => exact hx
  | instr now _ _ ih => exact ih trivial (hx.flow (replay_flows _ _) now)
  | call now _ _ _ _ _ ihcall ihrest =>
    exact ihrest trivial (ihcall nofun (hx.pushFrame now _))
  | passed now _ _ _ ih => exact ih trivial (hx.flow flows_clobberAll now)
  | @here R j x =>
    cases j with
    | returns f => exact (hleg f rfl).elim
    | _ => exact hx
  | edge _ _ _ _ hvouch _ _ _ hleads _ ihway ihinsts =>
    have hz := ihinsts trivial (hvouch.fits (ihway hleg hx))
    cases hleads <;> exact hz
  | ret _ _ _ _ hvouch _ _ hpop ihway ihinsts =>
    exact (ihinsts trivial (hvouch.fits (ihway hleg hx))).popFrame hpop
  | first _ _ _ ihway => exact ihway hleg hx
  | next _ _ _ ihway => exact ihway hleg hx

/-- Path conditions keep an order between snapshots. -/
theorem Vouches.under {conds : List PathCondition} (h : Vouches w conds x y)
    (h' : Vouches w conds x' y') (hx : Fits cs x) (hx' : Fits cs x') (hunder : Under B x x') :
    Under B y y' := by
  induction h generalizing x' with
  | nil =>
    cases h'
    exact hunder
  | @cons cond conds ptr offset len x y now hfact _ ih =>
    cases h' with
    | cons now' hfact' hrest' =>
      cases hfact.symm.trans hfact'
      have hflow : Flows cs fun now s => w.program.vouch now ptr offset len s :=
        Program.vouch_flows ptr offset len
      exact ih hrest' (hx.flow hflow now) (hx'.flow hflow now')
        (hunder.flow hflow hx.canonical hx'.canonical hx.owners hx'.owners now now')

/-- The conditions of another path can be applied as well. -/
theorem Vouches.exists {conds : List PathCondition} (h : Vouches w conds x y) (x' : Snapshot) :
    ∃ y', Vouches w conds x' y' := by
  induction h generalizing x' with
  | nil => exact ⟨x', .nil⟩
  | @cons cond conds ptr offset len x y now hfact _ ih =>
    obtain ⟨y', hy'⟩ := ih (w.program.vouch now ptr offset len x')
    exact ⟨y', .cons now hfact hy'⟩

end Walk

end ByteTrust
