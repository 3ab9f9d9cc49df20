import ByteTrust.Proofs.Interference.Balanced
import ByteTrust.Proofs.Interference.Tentative

/-!
# The contexts being walked

The contexts being walked form a stack (`Stacked`). It has no repetition (`Stacked.nodup`): an
iteration is entered from the context around it only, and a function from the call that came to it
first. So walks enter each other no deeper than there are contexts (`Stacked.length_le`), even
where functions call each other in circles.
-/

namespace ByteTrust

/-- A call stands at position `i` of the block `b` of `k`. -/
def Program.CallsAt (p : Program) (k : ContextId) (b : BlockId) (i : Nat) (inst : Instr)
    (g : ContextId) : Prop :=
  ∃ c block, p.contexts.get? k = some c ∧ c.blocks.get? b = some block ∧
    block.insts[i]? = some inst ∧ inst.op.callee? = some g

namespace Walk

variable {w : Setting} {calls calls' : Table ContextId InstId} {e k k' : ContextId}
  {stack : List ContextId}

/-- The context `e` is entered from `k`: it is an iteration of a loop there, or a callee that a
call there came to first. -/
def EntersFrom (w : Setting) (calls : Table ContextId InstId) (e k : ContextId) : Prop :=
  w.program.Encloses e k ∨
    ∃ b i inst, w.program.CallsAt k b i inst e ∧ calls.get? e = some inst.id

/-- The contexts that are being walked, the innermost first. -/
inductive Stacked (w : Setting) (calls : Table ContextId InstId) : List ContextId → Prop
  | root : Stacked w calls [w.program.root]
  | push {e k : ContextId} {stack : List ContextId} (h : Stacked w calls (k :: stack))
      (he : EntersFrom w calls e k) : Stacked w calls (e :: k :: stack)

theorem Stacked.extend (h : Stacked w calls stack) (hext : Extends calls calls') :
    Stacked w calls' stack := by
  induction h with
  | root => exact .root
  | push _ he ih =>
    refine .push ih (he.imp id ?_)
    rintro ⟨b, i, inst, hat, hcall⟩
    exact ⟨b, i, inst, hat, hext _ _ hcall⟩

namespace Regular

variable (hw : Regular w)

include hw

theorem isFunction_of_callsAt {b : BlockId} {i : Nat} {inst : Instr}
    (h : w.program.CallsAt k b i inst e) :
    ∃ d, w.program.contexts.get? e = some d ∧ d.isFunction = true := by
  obtain ⟨c, block, hc, hb, hi, hcallee⟩ := h
  exact hw.linked.callee hc hb (List.mem_of_getElem? hi) hcallee

theorem entersFrom_unique (h : EntersFrom w calls e k) (h' : EntersFrom w calls e k') : k = k' := by
  rcases h with henc | ⟨b, i, inst, hat, hcall⟩
  · rcases h' with henc' | ⟨b', i', inst', hat', -⟩
    · exact henc.unique henc'
    · obtain ⟨d, hd, hfun⟩ := hw.isFunction_of_callsAt hat'
      exact (Program.not_encloses_of_isFunction hd hfun henc).elim
  · rcases h' with henc | ⟨b', i', inst', hat', hcall'⟩
    · obtain ⟨d, hd, hfun⟩ := hw.isFunction_of_callsAt hat
      exact (Program.not_encloses_of_isFunction hd hfun henc).elim
    · obtain ⟨c, block, hc, hb, hi, -⟩ := hat
      obtain ⟨c', block', hc', hb', hi', -⟩ := hat'
      have hid : inst.id = inst'.id := Option.some.inj (hcall.symm.trans hcall')
      exact (Program.eq_place_of_id hw.linked.names hc hc' hb hb' hi hi' hid).1

theorem not_entersFrom_root : ¬ EntersFrom w calls w.program.root k := by
  rintro (henc | ⟨b, i, inst, ⟨c, block, hc, hb, hi, hcallee⟩, -⟩)
  · obtain ⟨d, hd, hfun⟩ := hw.linked.root
    exact Program.not_encloses_of_isFunction hd hfun henc
  · exact hw.rootFree inst ((Program.mem_instrs hw.linked.own).2
      ⟨k, c, b, block, hc, hb, List.mem_of_getElem? hi⟩) hcallee

end Regular

/-- Below a context on the stack stands the one that it was entered from. -/
theorem Stacked.source (h : Stacked w calls stack) (he : e ∈ stack) :
    e = w.program.root ∨
      ∃ k before after, stack = before ++ e :: k :: after ∧ EntersFrom w calls e k := by
  induction h with
  | root => exact .inl (List.mem_singleton.1 he)
  | @push e' k stack _ he' ih =>
    rcases List.mem_cons.1 he with rfl | he
    · exact .inr ⟨k, [], stack, rfl, he'⟩
    · refine (ih he).imp id ?_
      rintro ⟨k', before, after, heq, hfrom⟩
      exact ⟨k', e' :: before, after, by rw [heq, List.cons_append], hfrom⟩

/-- No context is entered within itself. -/
theorem Stacked.nodup (hw : Regular w) (h : Stacked w calls stack) : stack.Nodup := by
  induction h with
  | root => exact List.nodup_singleton _
  | @push e k stack h he ih =>
    refine List.nodup_cons.2 ⟨fun hmem => ?_, ih⟩
    rcases h.source hmem with rfl | ⟨k', before, after, heq, hfrom⟩
    · exact hw.not_entersFrom_root he
    · -- then `k` stood on the stack below `e` already, and would stand there twice
      obtain rfl := hw.entersFrom_unique he hfrom
      cases before with
      | nil =>
        obtain ⟨-, rfl⟩ := List.cons.inj heq
        exact (List.nodup_cons.1 ih).1 List.mem_cons_self
      | cons a before =>
        obtain ⟨rfl, rfl⟩ := List.cons.inj heq
        exact (List.nodup_cons.1 ih).1 (by simp)

theorem Stacked.exists (hw : Regular w) (h : Stacked w calls stack) : w.program.Exist stack := by
  induction h with
  | root =>
    obtain ⟨c, hc, -⟩ := hw.linked.root
    exact List.forall_mem_singleton.2 ⟨c, hc⟩
  | push _ he ih =>
    refine List.forall_mem_cons.2 ⟨?_, ih⟩
    rcases he with ⟨d, hd, -⟩ | ⟨b, i, inst, hat, -⟩
    · exact ⟨d, hd⟩
    · obtain ⟨d, hd, -⟩ := hw.isFunction_of_callsAt hat
      exact ⟨d, hd⟩

/-- Walks enter each other no deeper than there are contexts. -/
theorem Stacked.length_le (hw : Regular w) (h : Stacked w calls stack) :
    stack.length ≤ w.program.contexts.size :=
  Table.length_le_size (h.nodup hw) (h.exists hw)

end Walk

end ByteTrust
