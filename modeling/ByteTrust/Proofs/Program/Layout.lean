import ByteTrust.Proofs.Except
import ByteTrust.Proofs.Lookup
import ByteTrust.Program.Layout

/-!
# What the tables of a layout hold

Every entry of a table comes from a context of the program, and every context has its entries. Where
two contexts compete for an entry, one of them has it.
-/

namespace ByteTrust

variable {p : Program} {l : Layout} {k f : ContextId} {c : Context} {b : BlockId} {loop : LoopId}

namespace Program

/-- Every context is filed under its own name. -/
def OwnNames (p : Program) : Prop := ∀ k c, p.contexts.get? k = some c → c.id = k

theorem ownNames_iff : p.OwnNames ↔ ∀ e ∈ p.contexts.entries, e.2.id = e.1 :=
  ⟨fun h e he => h e.1 e.2 (Table.mem_entries.1 he),
    fun h k c hc => h (k, c) (Table.mem_entries.2 hc)⟩

instance (p : Program) : Decidable p.OwnNames := decidable_of_iff' _ ownNames_iff

theorem context_eq_ok : p.context k = .ok c ↔ p.contexts.get? k = some c := by
  rw [context]
  cases p.contexts.get? k <;> simp

theorem OwnNames.mem_values (h : p.OwnNames) :
    c ∈ p.contexts.values ↔ p.contexts.get? c.id = some c := by
  rw [Table.mem_values]
  constructor
  · rintro ⟨k, hk⟩
    rwa [h k c hk]
  · exact fun hc => ⟨_, hc⟩

end Program

theorem Context.block_eq_ok {block : Block} : c.block b = .ok block ↔ c.blocks.get? b = some block := by
  rw [Context.block]
  cases c.blocks.get? b <;> simp

theorem Program.block_eq_ok {block : Block} : p.block k b = .ok block ↔
    ∃ c, p.contexts.get? k = some c ∧ c.blocks.get? b = some block := by
  simp only [Program.block, bind_eq_ok, Program.context_eq_ok, Context.block_eq_ok]

/-! ## Climbing to the function -/

namespace Program

theorem functionRootFrom_succ {n : Nat} (h : p.functionRootFrom n k = .ok f) :
    p.functionRootFrom (n + 1) k = .ok f := by
  induction n generalizing k with
  | zero => cases h
  | succ n ih =>
    rw [functionRootFrom, bind_eq_ok] at h ⊢
    obtain ⟨c, hc, h⟩ := h
    refine ⟨c, hc, ?_⟩
    cases henc : c.enclosing? with
    | none => simpa [henc] using h
    | some parent =>
      simp only [henc] at h ⊢
      exact ih h

theorem functionRootFrom_of_enclosing {n : Nat} {parent : ContextId}
    (hc : p.contexts.get? k = some c) (hparent : c.enclosing? = some parent)
    (h : p.functionRootFrom n k = .ok f) : p.functionRootFrom n parent = .ok f := by
  cases n with
  | zero => cases h
  | succ n =>
    rw [functionRootFrom, context_eq_ok.2 hc, ok_bind] at h
    simp only [hparent] at h
    exact functionRootFrom_succ h

/-- The climb ends at a context that is not enclosed by another. -/
theorem enclosing?_of_functionRootFrom {n : Nat} (h : p.functionRootFrom n k = .ok f) :
    ∃ c, p.contexts.get? f = some c ∧ c.enclosing? = none := by
  induction n generalizing k with
  | zero => cases h
  | succ n ih =>
    rw [functionRootFrom, bind_eq_ok] at h
    obtain ⟨c, hc, h⟩ := h
    cases henc : c.enclosing? with
    | none =>
      simp only [henc, pure_eq_ok, Except.ok.injEq] at h
      exact ⟨c, h ▸ context_eq_ok.1 hc, henc⟩
    | some parent =>
      simp only [henc] at h
      exact ih h

theorem functionRootFrom_self {n : Nat} (hc : p.contexts.get? k = some c)
    (henc : c.enclosing? = none) : p.functionRootFrom (n + 1) k = .ok k := by
  rw [functionRootFrom, context_eq_ok.2 hc, ok_bind]
  simp [henc]

end Program

/-! ## The tables -/

namespace Layout

/-- The tables of `l` list the contexts `cs`. -/
structure Lists (p : Program) (cs : List Context) (l : Layout) : Prop where
  root : ∀ c ∈ cs, p.functionRootFrom p.climbBound c.id = .ok (l.functionRoot c.id)
  depth : ∀ c ∈ cs, p.callDepthFrom p.climbBound c.id 0 = .ok (l.callDepth c.id)
  place_from : ∀ {i place}, l.places.get? i = some place →
    ∃ c ∈ cs, ∃ e ∈ c.instructions, e.2.2.id = i ∧ place = ⟨c.id, e.1, e.2.1⟩
  place_to : ∀ c ∈ cs, ∀ e ∈ c.instructions, (l.places.get? e.2.2.id).isSome = true
  owner_from : ∀ {f b k}, l.owner? f b = some k →
    ∃ c ∈ cs, c.id = k ∧ p.functionRootFrom p.climbBound k = .ok f ∧ b ∈ c.blocks.keys
  owner_to : ∀ c ∈ cs, ∀ f, p.functionRootFrom p.climbBound c.id = .ok f →
    ∀ b ∈ c.blocks.keys, (l.owner? f b).isSome = true
  peel_from : ∀ {k loop peel}, l.peel? k loop = some peel →
    ∃ c ∈ cs, c.id = k ∧ ∃ info ∈ c.loops, info.id = loop ∧ info.peel = some peel
  peel_to : ∀ c ∈ cs, ∀ info ∈ c.loops, ∀ peel, info.peel = some peel →
    (l.peel? c.id info.id).isSome = true
  header_from : ∀ {k b loop}, l.peeledHeaders.get? (k, b) = some loop →
    ∃ c ∈ cs, c.id = k ∧ ∃ info ∈ c.loops, ∃ peel, info.terminatedPeel? = some peel ∧
      info.header = b ∧ info.id = loop
  header_to : ∀ c ∈ cs, ∀ info ∈ c.loops, ∀ peel, info.terminatedPeel? = some peel →
    (l.peeledHeaders.get? (c.id, info.header)).isSome = true

theorem lists_nil : Lists p [] {} where
  root := by simp
  depth := by simp
  place_from := by simp
  place_to := by simp
  owner_from := by simp [owner?]
  owner_to := by simp
  peel_from := by simp [peel?]
  peel_to := by simp
  header_from := by simp
  header_to := by simp

theorem mem_peeled {c : Context} {e : Loop × PeelAttempt} :
    (e ∈ c.loops.filterMap fun info => info.peel.map fun peel => (info, peel)) ↔
      e.1 ∈ c.loops ∧ e.1.peel = some e.2 := by
  rw [List.mem_filterMap]
  constructor
  · rintro ⟨info, hinfo, h⟩
    obtain ⟨peel, hpeel, rfl⟩ := Option.map_eq_some_iff.1 h
    exact ⟨hinfo, hpeel⟩
  · rintro ⟨hinfo, hpeel⟩
    exact ⟨e.1, hinfo, by simp [hpeel]⟩

theorem terminatedPeel?_eq_some {info : Loop} {peel : PeelAttempt} :
    info.terminatedPeel? = some peel ↔ info.peel = some peel ∧ peel.terminated = true := by
  rw [Loop.terminatedPeel?, Option.filter_eq_some_iff]

/-- One more context is listed. -/
theorem Lists.addContext {cs : List Context} {l' : Layout} (h : l.Lists p cs)
    (hadd : addContext p l c = .ok l') : l'.Lists p (cs ++ [c]) := by
  rw [Layout.addContext, bind_eq_ok] at hadd
  obtain ⟨root, hroot, hadd⟩ := hadd
  rw [bind_eq_ok] at hadd
  obtain ⟨depth, hdepth, hadd⟩ := hadd
  cases hadd
  refine ⟨?_, ?_, ?_, ?_, ?_, ?_, ?_, ?_, ?_, ?_⟩
  · intro d hd
    rw [functionRoot, IdentMap.get?_insert]
    split
    · next heq => exact heq ▸ hroot
    · next hne =>
      have hd := (List.mem_append.1 hd).resolve_right fun hd => hne (by simp_all)
      exact h.root d hd
  · intro d hd
    rw [callDepth, IdentMap.get?_insert]
    split
    · next heq => exact heq ▸ hdepth
    · next hne =>
      have hd := (List.mem_append.1 hd).resolve_right fun hd => hne (by simp_all)
      exact h.depth d hd
  · intro i place hplace
    rcases mem_of_get_foldl_put IdentMap.get?_insert hplace with ⟨e, he, hi, rfl⟩ | hplace
    · exact ⟨c, by simp, e, he, hi, rfl⟩
    · obtain ⟨d, hd, he⟩ := h.place_from hplace
      exact ⟨d, List.mem_append_left _ hd, he⟩
  · intro d hd e he
    refine isSome_get_foldl_put IdentMap.get?_insert ?_
    rcases List.mem_append.1 hd with hd | hd
    · exact .inr (h.place_to d hd e he)
    · rw [List.mem_singleton] at hd
      exact .inl ⟨e, hd ▸ he, rfl⟩
  · intro f b k hk
    rcases mem_of_get_foldl_put Table.get?_insert hk with ⟨b', hb', hkey, rfl⟩ | hk
    · cases hkey
      exact ⟨c, by simp, rfl, hroot, hb'⟩
    · obtain ⟨d, hd, hd'⟩ := h.owner_from hk
      exact ⟨d, List.mem_append_left _ hd, hd'⟩
  · intro d hd f hf b hb
    refine isSome_get_foldl_put Table.get?_insert ?_
    rcases List.mem_append.1 hd with hd | hd
    · exact .inr (h.owner_to d hd f hf b hb)
    · rw [List.mem_singleton] at hd
      subst hd
      rw [hroot, Except.ok.injEq] at hf
      exact .inl ⟨b, hb, by rw [hf]⟩
  · intro k loop peel hpeel
    rcases mem_of_get_foldl_put Table.get?_insert hpeel with ⟨e, he, hkey, rfl⟩ | hpeel
    · cases hkey
      obtain ⟨hinfo, hpeel⟩ := mem_peeled.1 he
      exact ⟨c, by simp, rfl, e.1, hinfo, rfl, hpeel⟩
    · obtain ⟨d, hd, hd'⟩ := h.peel_from hpeel
      exact ⟨d, List.mem_append_left _ hd, hd'⟩
  · intro d hd info hinfo peel hpeel
    refine isSome_get_foldl_put Table.get?_insert ?_
    rcases List.mem_append.1 hd with hd | hd
    · exact .inr (h.peel_to d hd info hinfo peel hpeel)
    · rw [List.mem_singleton] at hd
      subst hd
      exact .inl ⟨(info, peel), mem_peeled.2 ⟨hinfo, hpeel⟩, rfl⟩
  · intro k b loop hloop
    rcases mem_of_get_foldl_put Table.get?_insert hloop with ⟨e, he, hkey, rfl⟩ | hloop
    · cases hkey
      obtain ⟨he, hterm⟩ := List.mem_filter.1 he
      obtain ⟨hinfo, hpeel⟩ := mem_peeled.1 he
      exact ⟨c, by simp, rfl, e.1, hinfo, e.2, terminatedPeel?_eq_some.2 ⟨hpeel, hterm⟩, rfl, rfl⟩
    · obtain ⟨d, hd, hd'⟩ := h.header_from hloop
      exact ⟨d, List.mem_append_left _ hd, hd'⟩
  · intro d hd info hinfo peel hpeel
    refine isSome_get_foldl_put Table.get?_insert ?_
    rcases List.mem_append.1 hd with hd | hd
    · exact .inr (h.header_to d hd info hinfo peel hpeel)
    · rw [List.mem_singleton] at hd
      subst hd
      obtain ⟨hpeel, hterm⟩ := terminatedPeel?_eq_some.1 hpeel
      refine .inl ⟨(info, peel), List.mem_filter.2 ⟨mem_peeled.2 ⟨hinfo, hpeel⟩, hterm⟩, rfl⟩

/-- The tables of a program list all its contexts. -/
theorem lists_of_ofProgram (h : ofProgram p = .ok l) : l.Lists p p.contexts.values := by
  rw [ofProgram, bind_eq_ok] at h
  obtain ⟨l', hl', h⟩ := h
  rw [bind_eq_ok] at h
  obtain ⟨order, -, h⟩ := h
  cases h
  obtain ⟨h₁, h₂, h₃, h₄, h₅, h₆, h₇, h₈, h₉, h₁₀⟩ :=
    foldlM_induction hl' (fun cs l => l.Lists p cs) lists_nil fun _ _ _ _ _ hadd h =>
      h.addContext hadd
  exact ⟨h₁, h₂, h₃, h₄, h₅, h₆, h₇, h₈, h₉, h₁₀⟩

end Layout

/-! ## The order of contexts -/

namespace Program

/-- Every context that `c` enters exists. -/
def Resolved (p : Program) (c : Context) : Prop :=
  ∀ e ∈ enteredAll c c.regions, ∃ k d, e = .ok k ∧ p.contexts.get? k = some d

/-- What a visit that succeeds adds to the visited contexts enters only contexts that exist. -/
structure Extends (p : Program) (visited visited' : List ContextId) : Prop where
  mono : ∀ k ∈ visited, k ∈ visited'
  resolved : ∀ k ∈ visited', k ∉ visited → ∀ c, p.contexts.get? k = some c → p.Resolved c

theorem Extends.refl (visited : List ContextId) : p.Extends visited visited :=
  ⟨fun _ h => h, fun _ h h' => absurd h h'⟩

theorem Extends.trans {a b d : List ContextId} (h : p.Extends a b) (h' : p.Extends b d) :
    p.Extends a d where
  mono k hk := h'.mono k (h.mono k hk)
  resolved k hk hka := by
    by_cases hkb : k ∈ b
    · exact h.resolved k hkb hka
    · exact h'.resolved k hk hkb

theorem OwnNames.visit_extends (hown : p.OwnNames) {n : Nat} {visited visited' : List ContextId}
    (hc : p.contexts.get? c.id = some c) (h : p.visit n visited c = .ok visited') :
    p.Extends visited visited' ∧ c.id ∈ visited' := by
  induction n generalizing visited visited' c with
  | zero => cases h
  | succ n ih =>
    rw [visit] at h
    split at h
    · next hmem =>
      cases h
      exact ⟨.refl _, List.contains_iff_mem.1 hmem⟩
    · -- The children were looked up one after the other.
      obtain ⟨hext, hchildren⟩ := foldlM_induction h
        (fun done visited' => p.Extends (c.id :: visited) visited' ∧
          ∀ e ∈ done, ∃ k d, e = .ok k ∧ p.contexts.get? k = some d)
        ⟨.refl _, by simp⟩ (by
          rintro done seen child seen' - hstep ⟨hext, hdone⟩
          rw [bind_eq_ok] at hstep
          obtain ⟨k, rfl, hstep⟩ := hstep
          rw [bind_eq_ok] at hstep
          obtain ⟨d, hd, hstep⟩ := hstep
          rw [context_eq_ok] at hd
          refine ⟨hext.trans (ih (by rwa [hown k d hd]) hstep).1, fun e he => ?_⟩
          rcases List.mem_append.1 he with he | he
          · exact hdone e he
          · exact ⟨k, d, List.mem_singleton.1 he, hd⟩)
      refine ⟨⟨fun k hk => hext.mono k (List.mem_cons_of_mem _ hk), fun k hk hnew d hd => ?_⟩,
        hext.mono _ List.mem_cons_self⟩
      by_cases hkc : k = c.id
      · subst hkc
        cases hd.symm.trans hc
        exact hchildren
      · exact hext.resolved k hk (by simp [hkc, hnew]) d hd

/-- The order of contexts lists them all, each with everything it enters resolved. -/
theorem OwnNames.extends_visitOrder (hown : p.OwnNames) {order : List ContextId}
    (h : p.visitOrder = .ok order) :
    ∃ visited, order = visited.reverse ∧ p.Extends [] visited ∧
      ∀ d ∈ p.contexts.values, d.id ∈ visited := by
  rw [visitOrder, bind_eq_ok] at h
  obtain ⟨root, hroot, h⟩ := h
  rw [bind_eq_ok] at h
  obtain ⟨visited₁, h₁, h⟩ := h
  rw [bind_eq_ok] at h
  obtain ⟨visited₂, h₂, h⟩ := h
  rw [bind_eq_ok] at h
  obtain ⟨visited₃, h₃, h⟩ := h
  rw [context_eq_ok] at hroot
  have hext₁ := (hown.visit_extends (by rwa [hown _ _ hroot]) h₁).1
  have hext₂ : p.Extends [] visited₂ := by
    refine foldlM_induction h₂ (fun _ visited => p.Extends [] visited) hext₁ ?_
    intro done visited cond visited' _ hstep hext
    cases hfact : cond.fact with
    | bytes =>
      simp only [hfact] at hstep
      cases hstep
      exact hext
    | checker d =>
      simp only [hfact] at hstep
      rw [bind_eq_ok] at hstep
      obtain ⟨checker, hd, hstep⟩ := hstep
      rw [context_eq_ok] at hd
      exact hext.trans (hown.visit_extends (by rwa [hown _ _ hd]) hstep).1
  refine ⟨visited₃, (Except.ok.inj h).symm, ?_⟩
  refine foldlM_induction h₃ (fun done visited => p.Extends [] visited ∧
    ∀ d ∈ done, d.id ∈ visited) ⟨hext₂, by simp⟩ ?_
  rintro done visited d visited' hd hstep ⟨hext, hdone⟩
  have hd := hown.visit_extends (hown.mem_values.1 hd) hstep
  refine ⟨hext.trans hd.1, fun e he => ?_⟩
  rcases List.mem_append.1 he with he | he
  · exact hd.1.mono _ (hdone e he)
  · exact List.mem_singleton.1 he ▸ hd.2

theorem OwnNames.resolved_of_visitOrder (hown : p.OwnNames) {order : List ContextId}
    (h : p.visitOrder = .ok order) (hc : p.contexts.get? k = some c) : p.Resolved c := by
  obtain ⟨visited, -, hext, hall⟩ := hown.extends_visitOrder h
  have hid := hown k c hc
  have hmem := hall c (hown.mem_values.2 (hid ▸ hc))
  exact hext.resolved k (hid ▸ hmem) (by simp) c hc

theorem OwnNames.mem_visitOrder (hown : p.OwnNames) {order : List ContextId}
    (h : p.visitOrder = .ok order) (hc : p.context k = .ok c) : k ∈ order := by
  obtain ⟨visited, rfl, -, hall⟩ := hown.extends_visitOrder h
  have hget := context_eq_ok.1 hc
  have hmem := hall c (Table.mem_values_of_get? hget)
  rw [hown k c hget] at hmem
  exact List.mem_reverse.2 hmem

/-- The layout orders all contexts. -/
theorem OwnNames.mem_order (hown : p.OwnNames) {l : Layout} (hl : Layout.ofProgram p = .ok l)
    (hc : p.context k = .ok c) : k ∈ l.order := by
  obtain ⟨l', -, hl⟩ := bind_eq_ok.1 hl
  obtain ⟨order, horder, hl⟩ := bind_eq_ok.1 hl
  rw [← Except.ok.inj hl]
  exact hown.mem_visitOrder horder hc

end Program

end ByteTrust
