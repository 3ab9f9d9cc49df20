import ByteTrust.Proofs.Interference.Explained

/-!
# Visits that cover all paths

The last time a walk comes to a block it visits it with a snapshot that trusts no more than any
path does. A set `V` of visits *covers* the paths in a part of the program (`Covers`) when every
visit is followed by others wherever a path can go on: what a block leaves either waits in an open
bin, or some visit trusts no more than it (`Lands`).

What a path may do within one visit is told by its ends only: the bytes that the walk still trusts
after it are trusted on the path (`SoundInstrs.trusts`), and the instructions that the path meets
are in order, within any number of calls (`SoundInstrs.meets`).
-/

namespace ByteTrust

namespace Walk

open Snapshot Region

/-- From `x` to `out` the walk through `insts` trusts no more than any path, and each instruction
that a path meets is `Ok`. -/
structure SoundInstrs (w : Setting) (q : InstId → Bool) (Ok : Instr → Snapshot → Prop)
    (insts : List Instr) (x : Snapshot) (out : Option Snapshot) : Prop where
  trusts : ∀ {B}, (∀ a, B a → a.In x.owners) → ∀ {x' y'}, Fits x.owners x' → Under B x x' →
    Path w q (.instrs insts) x' y' → ∃ y ∈ out, Under B y y'
  meets : ∀ {x'}, Fits x.owners x' → Below x x' → ∀ {inst z},
    Meets w q (.instrs insts) x' inst z → Ok inst z

/-- The same for a call of the function `g`. -/
structure SoundCall (w : Setting) (q : InstId → Bool) (Ok : Instr → Snapshot → Prop)
    (g : ContextId) (x : Snapshot) (out : Option Snapshot) : Prop where
  trusts : ∀ {B}, (∀ a, B a → a.In x.owners) → ∀ {x' y' d now},
    w.program.contexts.get? g = some d → Fits x.owners x' → Under B x x' →
    Path w q (.through g d) (x'.pushFrame now g) y' → ∃ y ∈ out, Under B y y'
  meets : ∀ {x'}, Fits x.owners x' → Below x x' → ∀ {inst z},
    Meets w q (.function g) x' inst z → Ok inst z

/-- Some visit in `V` trusts no more than `y`. -/
def Reached (V : Bin → Snapshot → Prop) (j : Bin) (y : Snapshot) : Prop := ∃ X, V j X ∧ Below X y

/-- What arrives at a bin waits there, if it is open, or is covered by a visit. -/
def Lands (W : Bin → Prop) (V : Bin → Snapshot → Prop) (s : State) (j : Bin) (y : Snapshot) : Prop :=
  (W j → y ∈ s.bin j) ∧ (¬ W j → Reached V j y)

/-- What comes after a block that ends with `y`, while the loops `loops` are being walked: it lands
wherever an edge leads that is not dropped, and so does what is dropped at the back edge of a loop
in its second pass. -/
structure Ends (w : Setting) (loops : List ActiveLoop) (L : Bin → Snapshot → Prop) (k : ContextId)
    (c : Context) (b : BlockId) (block : Block) (y : Snapshot) : Prop where
  back : block.terminator = .branch → ∀ t ∈ block.liveSuccs, isBackEdge c b t = true → L (.back k) y
  go : block.terminator = .branch → ∀ t ∈ block.liveSuccs, isBackEdge c b t = false →
    ∀ {o}, w.layout.edgeOwner? w.program k t = some o → ¬ Dropped loops o b t → L (.block o t) y
  closing : block.terminator = .branch → ∀ t ∈ block.liveSuccs, isBackEdge c b t = false →
    ∀ {o}, w.layout.edgeOwner? w.program k t = some o → Closes loops o b t → L (.closing o t) y
  ret : block.terminator = .ret → (∀ a ∈ loops, a.pass = .first →
    w.layout.functionRoot a.context ≠ w.layout.functionRoot k) →
      ∃ now f z, y.popFrame now = .ok (f, z) ∧ L (.returns (w.layout.functionRoot k)) z

/-- Every visit in `V` is followed by what `T` and `L` say. -/
structure Covers (w : Setting) (q : InstId → Bool) (Ok : Instr → Snapshot → Prop)
    (loops : List ActiveLoop) (cs : List ContextId) (T L V : Bin → Snapshot → Prop) : Prop where
  fits : ∀ {j X}, V j X → Fits cs X
  block : ∀ {k c b block X}, V (.block k b) X → w.program.contexts.get? k = some c →
    c.blocks.get? b = some block → ∃ conds x₁ out, conditionsAt w k b = .ok conds ∧
      Vouches w conds X x₁ ∧ SoundInstrs w q Ok block.insts x₁ out ∧
        ∀ Y ∈ out, Fits cs Y ∧ Ends w loops L k c b block Y
  first : ∀ {k b it d X}, V (.block k b) X → w.program.FirstOf k b it →
    w.program.contexts.get? it = some d → T (.block it d.entry) X
  next : ∀ {it next d X}, V (.back it) X → w.program.NextOf it next →
    w.program.contexts.get? next = some d → T (.block next d.entry) X

variable {w : Setting} {scope : Scope} {plain : Prop} {W W' : Bin → Prop} {F : Frames}
  {q : InstId → Bool} {Ok : Instr → Snapshot → Prop} {s s' s₁ s₂ : State} {x y z X : Snapshot}
  {out : Option Snapshot} {loops loops' : List ActiveLoop} {cs : List ContextId}
  {T T' L L' V V' : Bin → Snapshot → Prop} {B : Cell → Prop} {k : ContextId} {c : Context}
  {b : BlockId} {block : Block} {j : Bin}

theorem Reached.trans (h : Reached V j x) (hxy : Below x y) : Reached V j y := by
  obtain ⟨X, hX, hbelow⟩ := h
  exact ⟨X, hX, hbelow.trans hxy⟩

theorem Reached.mono (h : Reached V j y) (hV : ∀ {j X}, V j X → V' j X) : Reached V' j y := by
  obtain ⟨X, hX, hbelow⟩ := h
  exact ⟨X, hV hX, hbelow⟩

theorem Lands.open (hj : W j) (hy : y ∈ s.bin j) : Lands W V s j y :=
  ⟨fun _ => hy, fun h => (h hj).elim⟩

/-- The loops being walked, and what becomes of their edges, may change together. -/
theorem Ends.imp (h : Ends w loops' L' k c b block y)
    (hL : ∀ {j y}, (∀ o t, j = .closing o t → Closes loops o b t) → L' j y → L j y)
    (hblock : ∀ {o t}, ¬ Dropped loops o b t → Dropped loops' o b t → L' (.closing o t) y →
      L (.block o t) y)
    (hsecond : ∀ {o t}, ¬ Dropped loops o b t → Dropped loops' o b t → Closes loops' o b t)
    (hcloses : ∀ {o t}, Closes loops o b t → Closes loops' o b t)
    (hret : ∀ a ∈ loops', a.pass = .first → a ∈ loops) : Ends w loops L k c b block y where
  back hend t ht hback := hL nofun (h.back hend t ht hback)
  go hend t ht hback o howner hkept := by
    by_cases hdropped : Dropped loops' o b t
    · exact hblock hkept hdropped (h.closing hend t ht hback howner (hsecond hkept hdropped))
    · exact hL nofun (h.go hend t ht hback howner hdropped)
  closing hend t ht hback o howner hc := by
    refine hL ?_ (h.closing hend t ht hback howner (hcloses hc))
    rintro _ _ ⟨⟩
    exact hc
  ret hend hfirst := by
    obtain ⟨now, f, z, hpop, hz⟩ := h.ret hend fun a ha hpass => hfirst a (hret a ha hpass) hpass
    exact ⟨now, f, z, hpop, hL nofun hz⟩

theorem Ends.mono (h : Ends w loops L' k c b block y) (hL : ∀ {j y}, L' j y → L j y) :
    Ends w loops L k c b block y :=
  h.imp (fun _ => hL) (fun hkept hdropped => (hkept hdropped).elim)
    (fun hkept hdropped => (hkept hdropped).elim)
    id fun _ ha _ => ha

namespace Covers

theorem imp (h : Covers w q Ok loops' cs T' L' V) (hT : ∀ {j y}, T' j y → T j y)
    (hends : ∀ {k c b block Y}, Ends w loops' L' k c b block Y → Ends w loops L k c b block Y) :
    Covers w q Ok loops cs T L V where
  fits := h.fits
  block hX hc hb := by
    obtain ⟨conds, x₁, out, hconds, hvouch, hsound, hout⟩ := h.block hX hc hb
    exact ⟨conds, x₁, out, hconds, hvouch, hsound, fun Y hY => ⟨(hout Y hY).1, hends (hout Y hY).2⟩⟩
  first hX hfirst hd := hT (h.first hX hfirst hd)
  next hX hnext hd := hT (h.next hX hnext hd)

theorem mono (h : Covers w q Ok loops cs T' L' V) (hT : ∀ {j y}, T' j y → T j y)
    (hL : ∀ {j y}, L' j y → L j y) : Covers w q Ok loops cs T L V :=
  h.imp hT fun hends => hends.mono hL

theorem union (h : Covers w q Ok loops cs T L V) (h' : Covers w q Ok loops cs T L V') :
    Covers w q Ok loops cs T L fun j X => V j X ∨ V' j X where
  fits hX := hX.elim h.fits h'.fits
  block hX := hX.elim h.block h'.block
  first hX := hX.elim h.first h'.first
  next hX := hX.elim h.next h'.next

theorem none : Covers w q Ok loops cs T L fun _ _ => False :=
  ⟨nofun, nofun, nofun, nofun⟩

/-- A path that goes through a visited block ends above what the visit leaves. -/
theorem run (h : Covers w q Ok loops cs T L V) (hX : V (.block k b) X)
    (hc : w.program.contexts.get? k = some c) (hb : c.blocks.get? b = some block)
    (hB : ∀ a, B a → a.In cs) (hy : Fits cs y) (hunder : Under B X y) {conds : List PathCondition}
    {y₁ : Snapshot} (hconds : conditionsAt w k b = .ok conds) (hvouch : Vouches w conds y y₁)
    (hinsts : Path w q (.instrs block.insts) y₁ z) :
    ∃ Y, Ends w loops L k c b block Y ∧ Fits cs Y ∧ Under B Y z := by
  obtain ⟨conds', x₁, out, hconds', hvouch', hsound, hout⟩ := h.block hX hc hb
  cases hconds.symm.trans hconds'
  have hX := h.fits hX
  have hx₁ := hvouch'.fits hX
  obtain ⟨Y, hY, hYz⟩ := hsound.trusts (hx₁.owners.symm ▸ hB)
    (hx₁.owners.symm ▸ hvouch.fits hy) (hvouch'.under hvouch hX hy hunder) hinsts
  exact ⟨Y, (hout Y hY).2, (hout Y hY).1, hYz⟩

end Covers

/-! ## Following a path through a function -/

theorem root_of_firstOf (hl : w.program.Linked w.layout) {it : ContextId}
    (h : w.program.FirstOf k b it) : w.layout.functionRoot it = w.layout.functionRoot k := by
  obtain ⟨c, hc, info, hinfo, peel, hpeel, -, hit⟩ := h
  exact hl.functionRoot_of_encloses (hl.iteration_encloses hc hinfo hpeel hit)

theorem root_of_nextOf (hl : w.program.Linked w.layout) {it next : ContextId}
    (h : w.program.NextOf it next) : w.layout.functionRoot next = w.layout.functionRoot it := by
  obtain ⟨k, c, hc, info, hinfo, peel, i, hpeel, hit, hnext⟩ := h
  rw [hl.functionRoot_of_encloses (hl.iteration_encloses hc hinfo hpeel hit),
    hl.functionRoot_of_encloses (hl.iteration_encloses hc hinfo hpeel hnext)]

/-- A path through the function `g` is at a bin of it where a visit trusts no more, or it has
returned, and what waits among the returns trusts no more. -/
def Followed (w : Setting) (V : Bin → Snapshot → Prop) (s : State) (B : Cell → Prop)
    (g : ContextId) : Bin → Snapshot → Prop
  | .returns _, y => ∃ z ∈ s.bin (.returns g), Under B z y
  | .closing .., _ => True
  | j, y => w.layout.functionRoot j.context = g ∧ ∃ X, V j X ∧ Under B X y

theorem Reached.under (h : Reached V j x) (hxy : Under B x y) : ∃ X, V j X ∧ Under B X y := by
  obtain ⟨X, hX, hbelow⟩ := h
  exact ⟨X, hX, (hbelow.under B).trans hxy⟩

theorem Covers.follow (hl : w.program.Linked w.layout) {g : ContextId} {d : Context}
    (h : Covers w q Ok loops cs (Reached V) (Lands (fun j => W j ∨ j = .returns g) V s) V)
    (hroot : w.layout.functionRoot g = g)
    (hfresh : ∀ j, W j → w.layout.functionRoot j.context ≠ g)
    (hloops : ∀ a ∈ loops, w.layout.functionRoot a.context ≠ g) (hB : ∀ a, B a → a.In cs)
    (hx : Fits cs x) (hstart : ∃ X, V (.block g d.entry) X ∧ Under B X x)
    {R : BlockId → Bin → Prop} (hpath : Path w q (.way R (.block g d.entry) j) x y) :
    Followed w V s B g j y := by
  have hclosed {j : Bin} (hj : w.layout.functionRoot j.context = g) (hne : j ≠ .returns g) :
      ¬ (W j ∨ j = .returns g) := by
    rintro (hW | heq)
    · exact hfresh j hW hj
    · exact hne heq
  generalize hleg : Leg.way R (.block g d.entry) j = leg at hpath
  induction hpath generalizing j with
  | done => cases hleg
  | instr => cases hleg
  | call => cases hleg
  | passed => cases hleg
  | here =>
    cases hleg
    exact ⟨hroot, hstart⟩
  | @edge _ _ _ k c b t block conds x y y₁ z hway hc hb hconds hvouch hinsts hend ht hleads _ ih =>
    cases hleg
    obtain ⟨hk, X, hX, hunder⟩ := ih hx hstart rfl
    obtain ⟨Y, hends, hY, hYz⟩ := h.run hX hc hb hB (hway.fits nofun hx) hunder hconds hvouch hinsts
    cases hleads with
    | back hback =>
      exact ⟨hk, ((hends.back hend t ht hback).2 (hclosed hk nofun)).under hYz⟩
    | @block o hback howner =>
      have ho := (hl.edgeOwnerFrom_spec hc howner).1.trans hk
      refine ⟨ho, ((hends.go hend t ht hback howner ?_).2 (hclosed ho nofun)).under hYz⟩
      rintro ⟨a, ha, rfl, -⟩
      exact hloops a ha ho
    | closing => trivial
  | @ret _ _ k f c b block conds now x y y₁ z z' hway hc hb hconds hvouch hinsts hend hpop ih =>
    cases hleg
    obtain ⟨hk, X, hX, hunder⟩ := ih hx hstart rfl
    obtain ⟨Y, hends, hY, hYz⟩ := h.run hX hc hb hB (hway.fits nofun hx) hunder hconds hvouch hinsts
    have hk : w.layout.functionRoot k = g := hk
    obtain ⟨now', f', Z, hZ, hlands⟩ := hends.ret hend fun a ha _ => hk ▸ hloops a ha
    rw [hk] at hlands
    have hz := hinsts.fits trivial (hvouch.fits (hway.fits nofun hx))
    exact ⟨Z, hlands.1 (.inr rfl), hYz.popFrame (hY.owners.trans hz.owners.symm) hZ hpop⟩
  | @first _ _ k it d' b x y hway hfirst hd ih =>
    cases hleg
    obtain ⟨hk, X, hX, hunder⟩ := ih hx hstart rfl
    exact ⟨(root_of_firstOf hl hfirst).trans hk, (h.first hX hfirst hd).under hunder⟩
  | @next _ _ it next d' x y hway hnext hd ih =>
    cases hleg
    obtain ⟨hk, X, hX, hunder⟩ := ih hx hstart rfl
    exact ⟨(root_of_nextOf hl hnext).trans hk, (h.next hX hnext hd).under hunder⟩

/-! ## Following a path through the second pass over a loop -/

section Passes

variable {info : Loop} {body : List Region} {a : Cell} {second : Snapshot}

/-- The edges that the second pass over a loop takes, within the loop and what it enters. -/
def SecondPass (W : Bin → Prop) (scope : Scope) (info : Loop) (body : List Region) (b : BlockId)
    (j : Bin) : Prop :=
  ¬ W j ∧ (∀ t, j = .block scope.context t → t ∈ placesAll body) ∧
    ∀ o t, j = .block o t → ¬ Dropped (scope.over info body .second).loops o b t

/-- A path through the second pass is where a visit of the first pass trusts the byte `a` no more
than the path, or it has come over the back edge, and so has something in the first pass. -/
def Retraced (V : Bin → Snapshot → Prop) (s : State) (a : Cell) (k : ContextId)
    (header : BlockId) : Bin → Snapshot → Prop
  | .returns _, _ => True
  | .closing o t, y => o = k → t = header → ∃ z ∈ s.bin (.block k header), Under (· = a) z y
  | j, y => ∃ X, V j X ∧ Under (· = a) X y

/-- An edge that the second pass takes is not dropped in the first. -/
theorem not_dropped_first {o : ContextId} {t : BlockId}
    (hmembers : ∀ t ∈ placesAll body, t ∈ info.blocks.union (.ofList (peelHeaders (loopsAll body))))
    (hinside : o = scope.context → t ∈ placesAll body) (houter : ¬ Dropped scope.loops o b t) :
    ¬ Dropped (scope.over info body .first).loops o b t := by
  rintro ⟨l, hl, hctx, hdrops⟩
  rcases List.mem_cons.1 hl with rfl | hl
  · have := IdentSet.contains_iff.2 (hmembers t (hinside hctx.symm))
    simp [ActiveLoop.drops, this] at hdrops
  · exact houter ⟨l, hl, hctx, hdrops⟩

theorem Covers.retrace
    (h : Covers w q Ok (scope.over info body .first).loops cs (Reached V)
      (Lands (Opens W scope.context [info.header]) V s) V)
    (hplace : info.header ∈ placesAll body)
    (hmembers : ∀ t ∈ placesAll body, t ∈ info.blocks.union (.ofList (peelHeaders (loopsAll body))))
    (houter : ∀ b, ¬ Dropped scope.loops scope.context b info.header)
    (hbelow : ∀ z ∈ s.bin (.block scope.context info.header), Below second z)
    (hvisited : ∃ X, V (.block scope.context info.header) X) (hsecond : Fits cs second)
    (ha : second.Holds a)
    (hpath : Path w q (.way (SecondPass W scope info body) (.block scope.context info.header) j)
      second y) : Retraced V s a scope.context info.header j y := by
  have hcell : ∀ a', a' = a → a'.In cs := by
    rintro _ rfl
    exact hsecond.owners ▸ ha.within
  -- where the path trusts `a`, every visit of the header will do
  have hheader {z : Snapshot} (hz : z.Holds a) :
      ∃ X, V (.block scope.context info.header) X ∧ Under (· = a) X z := by
    obtain ⟨X, hX⟩ := hvisited
    exact ⟨X, hX, fun _ heq _ => heq ▸ hz⟩
  generalize hleg : Leg.way (SecondPass W scope info body) (.block scope.context info.header) j =
    leg at hpath
  generalize hx : second = x at hpath
  induction hpath generalizing j with
  | done => cases hleg
  | instr => cases hleg
  | call => cases hleg
  | passed => cases hleg
  | here =>
    cases hleg
    exact hheader (hx ▸ ha)
  | @edge _ _ _ k c b t block conds x y y₁ z hway hc hb hconds hvouch hinsts hend ht hleads hR ih =>
    cases hleg
    subst hx
    obtain ⟨X, hX, hunder⟩ := ih rfl rfl
    obtain ⟨Y, hends, hY, hYz⟩ := h.run hX hc hb hcell (hway.fits nofun hsecond) hunder hconds hvouch
      hinsts
    obtain ⟨hW, hinside, hkept⟩ := hR
    cases hleads with
    | back hback =>
      refine ((hends.back hend t ht hback).2 ?_).under hYz
      rintro (hj | ⟨_, _, heq⟩)
      · exact hW hj
      · cases heq
    | @block o hback howner =>
      have hlands := hends.go hend t ht hback howner (not_dropped_first hmembers
        (fun ho => hinside t (ho ▸ rfl)) fun hdrop => hkept o t rfl (dropped_over hdrop))
      by_cases hj : Opens W scope.context [info.header] (.block o t)
      · obtain hopen | heq := opens_singleton hj
        · exact (hW hopen).elim
        · cases heq
          exact hheader (hYz a rfl ((hbelow Y (hlands.1 hj)).under (· = a) a rfl ha))
      · exact (hlands.2 hj).under hYz
    | @closing o hback howner =>
      rintro rfl rfl
      have hlands := hends.go hend _ ht hback howner
        (not_dropped_first hmembers (fun _ => hplace) (houter b))
      exact ⟨Y, hlands.1 (.inr ⟨_, List.mem_singleton.2 rfl, rfl⟩), hYz⟩
  | ret =>
    cases hleg
    trivial
  | @first _ _ k it d' b x y hway hfirst hd ih =>
    cases hleg
    obtain ⟨X, hX, hunder⟩ := ih rfl hx
    exact (h.first hX hfirst hd).under hunder
  | @next _ _ it next d' x y hway hnext hd ih =>
    cases hleg
    obtain ⟨X, hX, hunder⟩ := ih rfl hx
    exact (h.next hX hnext hd).under hunder

end Passes

end Walk

end ByteTrust
