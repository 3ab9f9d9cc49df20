import ByteTrust.Json.Decode
import ByteTrust.Proofs.Json.Spelling
import ByteTrust.Proofs.Lookup
import ByteTrust.Program.Encode
import Mathlib.Data.List.Forall2

/-!
# Readers that take back what is written

A reader and a writer of one type belong together when the reader, given enough levels, takes what
is written for a value back to that value (`Restores`). Only values that the reader gives at all
count: a number that is out of range is written, and not read again. Each way to build a reader
from smaller ones has its rule here.
-/

namespace ByteTrust.Json

open Decode

variable {α β : Type} {κ : IdentKind} {r : Reader α} {write : α → Json} {k : Nat}

/-- `r` gives `a` for some value. -/
def Reader.Gives (r : Reader α) (a : α) : Prop := ∃ d j, r d j = some a

/-- With `k` levels left or more, `r` reads `j` as `a`. -/
def ReadsAs (r : Reader α) (k : Nat) (j : Json) (a : α) : Prop := ∀ d, k ≤ d → r d j = some a

/-- What `write` writes can be put into text, and with `k` levels left `r` reads it back. -/
structure Restores (r : Reader α) (write : α → Json) (k : Nat) : Prop where
  written : ∀ a, (write a).Written
  reads : ∀ {a}, r.Gives a → ReadsAs r k (write a) a

theorem ReadsAs.mono {j : Json} {a : α} {l : Nat} (h : ReadsAs r k j a) (hl : k ≤ l) :
    ReadsAs r l j a :=
  fun d hd => h d (Nat.le_trans hl hd)

/-! ## Plain values -/

namespace Restores

theorem bool : Restores Decode.bool .bool 0 where
  written := .bool
  reads _ _ _ := rfl

theorem natBelow (bound : Nat) : Restores (natBelow bound) .ofNat 0 where
  written n := .int n
  reads := by
    rintro n ⟨d, j, h⟩ e -
    cases j with
    | num s =>
      obtain ⟨-, hlt⟩ := Option.filter_eq_some_iff.1 h
      simpa [Decode.natBelow, ofNat] using hlt
    | _ => cases h

theorem size : Restores Decode.size .ofNat 0 := natBelow _

theorem offset : Restores Decode.offset .ofInt 0 where
  written := .int
  reads := by
    rintro i ⟨d, j, h⟩ e -
    cases j with
    | num s =>
      obtain ⟨-, hrange⟩ := Option.filter_eq_some_iff.1 h
      simpa [Decode.offset, ofInt] using hrange
    | _ => cases h

theorem ident : Restores (Decode.ident (κ := κ)) Ident.json 0 where
  written i := .int i.number
  reads := by
    rintro i ⟨d, j, h⟩ e he
    obtain ⟨n, hn, rfl⟩ := Option.map_eq_some_iff.1 h
    exact congrArg (Option.map Ident.mk) ((natBelow Ident.bound).reads ⟨d, j, hn⟩ e he)

theorem text : Restores Decode.text .ofString 0 where
  written := .text
  reads {t} _ _ _ := unescape?_escape t

/-- `null` stands for nothing, so no value may be written as `null`. -/
theorem option (h : Restores r write k) (hnull : ∀ a, write a ≠ .null) :
    Restores (Decode.option r) (.ofOption write) k where
  written
    | none => .null
    | some a => h.written a
  reads := by
    rintro a ⟨d, j, ha⟩ e he
    cases a with
    | none => rfl
    | some a =>
      have hgives : r.Gives a := by
        refine ⟨d, j, ?_⟩
        cases j with
        | null => cases ha
        | _ =>
          obtain ⟨b, hb, hba⟩ := Option.map_eq_some_iff.1 ha
          rw [hb, Option.some.inj hba]
      have hread : r e (write a) = some a := h.reads hgives e he
      rw [ofOption, Decode.option, hread, Option.map_some]
      exact hnull a

theorem identOption : Restores (Decode.option Decode.ident) (.ofOption (Ident.json (κ := κ))) 0 :=
  ident.option nofun

theorem natOption (bound : Nat) :
    Restores (Decode.option (Decode.natBelow bound)) (.ofOption .ofNat) 0 :=
  (natBelow bound).option nofun

theorem sizeOption : Restores (Decode.option Decode.size) (.ofOption .ofNat) 0 := natOption _

theorem textOption : Restores (Decode.option Decode.text) (.ofOption .ofString) 0 :=
  text.option nofun

end Restores

/-! ## Arrays and maps -/

theorem mapM_eq_some {f : β → Option α} {bs : List β} {as : List α} :
    bs.mapM f = some as ↔ List.Forall₂ (fun b a => f b = some a) bs as := by
  induction bs generalizing as with
  | nil => simp [eq_comm, List.forall₂_nil_left_iff]
  | cons b bs ih =>
    simp only [List.mapM_cons, Option.bind_eq_bind, Option.bind_eq_some_iff, Option.pure_def,
      Option.some.injEq, ih, List.forall₂_cons_left_iff]
    constructor
    · rintro ⟨a, ha, as, has, rfl⟩
      exact ⟨a, as, ha, has, rfl⟩
    · rintro ⟨a, as, ha, has, rfl⟩
      exact ⟨a, ha, as, has, rfl⟩

theorem exists_source {f : β → Option α} {bs : List β} {as : List α}
    (h : bs.mapM f = some as) {a : α} (ha : a ∈ as) : ∃ b ∈ bs, f b = some a := by
  rw [mapM_eq_some] at h
  induction h with
  | nil => cases ha
  | cons hb _ ih =>
    rcases List.mem_cons.1 ha with rfl | ha
    · exact ⟨_, List.mem_cons_self, hb⟩
    · obtain ⟨b, hmem, hb⟩ := ih ha
      exact ⟨b, List.mem_cons_of_mem _ hmem, hb⟩

/-- A list is mapped entry by entry. -/
theorem mapM_map_eq_some {γ : Type} {f : β → Option α} {g : γ → β} {g' : γ → α} {cs : List γ}
    (h : ∀ c ∈ cs, f (g c) = some (g' c)) : (cs.map g).mapM f = some (cs.map g') := by
  rw [mapM_eq_some, List.forall₂_map_left_iff, List.forall₂_map_right_iff, List.forall₂_same]
  exact h

theorem list_eq_some {d : Nat} {j : Json} {as : List α} (h : list r d j = some as) :
    ∃ e, d = e + 1 ∧ ∀ a ∈ as, ∃ v, r e v = some a := by
  cases d with
  | zero => cases j <;> cases h
  | succ d =>
    cases j with
    | arr items =>
      refine ⟨d, rfl, fun a ha => ?_⟩
      obtain ⟨v, -, hv⟩ := exists_source h ha
      exact ⟨v, hv⟩
    | _ => cases h

theorem list_ofList {d : Nat} {as : List α} (h : ∀ a ∈ as, r d (write a) = some a) :
    list r (d + 1) (.ofList write as) = some as := by
  have hread : (as.map write).mapM (r d) = some (as.map id) := mapM_map_eq_some h
  rwa [List.map_id] at hread

theorem Restores.list (h : Restores r write k) : Restores (list r) (.ofList write) (k + 1) where
  written as := .arr fun v hv => by
    obtain ⟨a, -, rfl⟩ := List.mem_map.1 hv
    exact h.written a
  reads := by
    rintro as ⟨d, j, has⟩ e he
    obtain ⟨d, -, hgives⟩ := list_eq_some has
    obtain ⟨e, rfl⟩ := Nat.exists_eq_add_of_le' he
    exact list_ofList fun a ha => h.reads ⟨d, hgives a ha⟩ _ (Nat.le_add_left k e)

theorem Restores.identList : Restores (Decode.list (Decode.ident (κ := κ))) Ident.jsonList 1 :=
  Restores.ident.list

theorem Restores.identSet :
    Restores (Decode.identSet (κ := κ)) (fun s => Ident.jsonList s.toList) 1 where
  written s := Restores.identList.written s.toList
  reads := by
    rintro s ⟨d, j, hs⟩ e he
    obtain ⟨is, his, rfl⟩ := Option.map_eq_some_iff.1 hs
    obtain ⟨d, -, hgives⟩ := list_eq_some his
    obtain ⟨e, rfl⟩ := Nat.exists_eq_add_of_le' he
    have hread : Decode.list Decode.ident (e + 1) (Ident.jsonList (IdentSet.ofList is).toList) =
        some (IdentSet.ofList is).toList := list_ofList fun i hi =>
      Restores.ident.reads ⟨d, hgives i (by simpa using hi)⟩ e (Nat.zero_le e)
    have hback : IdentSet.ofList (IdentSet.ofList is).toList = IdentSet.ofList is :=
      IdentSet.ext fun i => by simp
    rw [Decode.identSet, hread, Option.map_some, hback]

theorem key_repr {i : Ident κ} (h : i.number < Ident.bound) :
    key (Nat.repr i.number) = some i := by
  simp [key, h]

theorem written_jsonMap {es : List (Ident κ × α)} (h : ∀ a, (write a).Written) :
    (Ident.jsonMap write es).Written := by
  refine .obj (fun f hf => ?_) fun f hf => ?_
  · obtain ⟨e, -, rfl⟩ := List.mem_map.1 hf
    exact ⟨_, (escape_repr e.1.number).symm⟩
  · obtain ⟨e, -, rfl⟩ := List.mem_map.1 hf
    exact h e.2

theorem keyed_eq_some {d : Nat} {j : Json} {es : List (Ident κ × α)} (h : keyed r d j = some es) :
    ∃ c, d = c + 1 ∧ ∀ e ∈ es, e.1.number < Ident.bound ∧ ∃ v, r c v = some e.2 := by
  cases d with
  | zero => cases j <;> cases h
  | succ d =>
    cases j with
    | obj fields =>
      refine ⟨d, rfl, fun e he => ?_⟩
      obtain ⟨f, -, hf⟩ := exists_source h he
      simp only [Option.bind_eq_bind, Option.bind_eq_some_iff, Option.pure_def,
        Option.some.injEq] at hf
      obtain ⟨i, hi, a, ha, rfl⟩ := hf
      obtain ⟨n, hn, rfl⟩ := Option.map_eq_some_iff.1 hi
      exact ⟨by simpa using (Option.filter_eq_some_iff.1 hn).2, f.2, ha⟩
    | _ => cases h

theorem keyed_jsonMap {d : Nat} {f : α → β} {r : Reader β} {es : List (Ident κ × α)}
    (hes : ∀ e ∈ es, e.1.number < Ident.bound ∧ r d (write e.2) = some (f e.2)) :
    keyed r (d + 1) (Ident.jsonMap write es) = some (es.map fun e => (e.1, f e.2)) :=
  mapM_map_eq_some fun e he => by
    obtain ⟨hbound, hread⟩ := hes e he
    simp [key_repr hbound, hread]

theorem Restores.identMap (h : Restores r write k) :
    Restores (Decode.identMap (κ := κ) r) (fun m => Ident.jsonMap write m.entries) (k + 1) where
  written m := written_jsonMap h.written
  reads := by
    rintro m ⟨d, j, hm⟩ e he
    obtain ⟨es, hes, rfl⟩ := Option.map_eq_some_iff.1 hm
    obtain ⟨d, -, hgives⟩ := keyed_eq_some hes
    obtain ⟨e, rfl⟩ := Nat.exists_eq_add_of_le' he
    have hread : keyed r (e + k + 1) (Ident.jsonMap write (IdentMap.ofList es).entries) =
        some ((IdentMap.ofList es).entries.map fun e => (e.1, id e.2)) :=
      keyed_jsonMap fun f hf => by
        obtain ⟨hbound, hf⟩ := hgives f (IdentMap.mem_of_mem_ofList hf)
        exact ⟨hbound, h.reads ⟨d, hf⟩ _ (Nat.le_add_left k e)⟩
    have hsame : (IdentMap.ofList es).entries.map (fun e => (e.1, id e.2)) =
        (IdentMap.ofList es).entries := List.map_id _
    rw [Decode.identMap, ← Nat.add_assoc, hread, hsame, Option.map_some, IdentMap.ofList_entries]

/-! ## Records -/

theorem gives_none (r : Reader α) : (Decode.option r).Gives none := ⟨0, .null, rfl⟩

theorem gives_nil (r : Reader α) : (Decode.list r).Gives [] := ⟨1, .arr [], rfl⟩

theorem gives_bool (b : Bool) : Decode.bool.Gives b := ⟨0, .bool b, rfl⟩

/-- A name whose characters all come after the backslash: none of them is escaped. -/
def isPlain (name : String) : Bool := name.toList.all fun c => 92 < c.toNat

/-- Plain names without a repetition. -/
def arePlain : List String → Bool
  | [] => true
  | name :: names => isPlain name && !names.contains name && arePlain names

theorem escape_of_isPlain {name : String} (h : isPlain name = true) : escape name = name := by
  have hchar : ∀ c ∈ name.toList, escapeChar c = [c] := by
    intro c hc
    have hcode : 92 < c.toNat := by simpa using List.all_eq_true.1 h c hc
    have hne {x : Char} (hx : x.toNat ≤ 92) : c ≠ x := by
      rintro rfl
      omega
    rw [escapeChar, if_neg (hne (by decide)), if_neg (hne (by decide)), if_neg (by omega),
      if_neg (by omega), if_neg (hne (by decide)), if_neg (hne (by decide)),
      if_neg (hne (by decide)), if_neg (by omega)]
  rw [escape, List.flatMap_congr hchar, List.flatMap_singleton', String.ofList_toList]

theorem unescape?_of_isPlain {name : String} (h : isPlain name = true) :
    unescape? name = some name := by
  have hback : unescape? (escape name) = some name := unescape?_escape name
  rwa [escape_of_isPlain h] at hback

theorem isPlain_of_arePlain {names : List String} (h : arePlain names = true) :
    ∀ name ∈ names, isPlain name = true := by
  induction names with
  | nil => nofun
  | cons name names ih =>
    simp only [arePlain, Bool.and_eq_true] at h
    exact List.forall_mem_cons.2 ⟨h.1.1, ih h.2⟩

theorem nodup_of_arePlain {names : List String} (h : arePlain names = true) : names.Nodup := by
  induction names with
  | nil => exact List.nodup_nil
  | cons name names ih =>
    simp only [arePlain, Bool.and_eq_true, Bool.not_eq_true', List.contains_eq_mem,
      decide_eq_false_iff_not] at h
    exact List.nodup_cons.2 ⟨h.1.2, ih h.2⟩

section Record

variable {names : List String} {fields : List (String × Json)}
  {body : Nat → List Decode.Slot → Option α} {a : α}

theorem written_record (names : List String) (hnames : arePlain names = true)
    (hfields : fields.map Prod.fst = names) (h : ∀ v ∈ fields.map Prod.snd, v.Written) :
    (Json.obj fields).Written := by
  refine .obj (fun f hf => ⟨f.1, ?_⟩) fun f hf => h f.2 (List.mem_map_of_mem hf)
  have hplain : isPlain f.1 = true :=
    isPlain_of_arePlain hnames f.1 (hfields ▸ List.mem_map_of_mem hf)
  exact (escape_of_isPlain hplain).symm

theorem resolveKeys_of_isPlain (h : ∀ f ∈ fields, isPlain f.1 = true) :
    resolveKeys fields = some fields := by
  have hmap : (fields.map id).mapM (fun f => do return (← unescape? f.1, f.2)) =
      some (fields.map id) :=
    mapM_map_eq_some fun f hf => by simp [unescape?_of_isPlain (h f hf)]
  rwa [List.map_id] at hmap

theorem valuesOf_eq_nil {name : String} (h : name ∉ fields.map Prod.fst) :
    valuesOf name fields = [] := by
  rw [valuesOf, List.map_eq_nil_iff, List.filter_eq_nil_iff]
  intro f hf hname
  exact h (beq_iff_eq.1 hname ▸ List.mem_map_of_mem hf)

theorem valuesOf_of_mem {f : String × Json} (h : (fields.map Prod.fst).Nodup) (hf : f ∈ fields) :
    valuesOf f.1 fields = [f.2] := by
  induction fields with
  | nil => cases hf
  | cons g fields ih =>
    obtain ⟨hg, hfields⟩ := List.nodup_cons.1 h
    rcases List.mem_cons.1 hf with rfl | hf
    · rw [valuesOf, List.filter_cons, if_pos (beq_self_eq_true f.1), List.map_cons]
      exact congrArg (f.2 :: ·) (valuesOf_eq_nil hg)
    · have hne : ¬ (g.1 == f.1) = true := fun hname =>
        hg (beq_iff_eq.1 hname ▸ List.mem_map_of_mem hf)
      rw [valuesOf, List.filter_cons, if_neg hne]
      exact ih hfields hf

/-- Fields with distinct names hold each its own value. -/
theorem mapM_slotOf (h : (fields.map Prod.fst).Nodup) :
    (fields.map Prod.fst).mapM (slotOf fields) = some (fields.map fun f => .given f.2) :=
  mapM_map_eq_some fun f hf => by rw [slotOf, valuesOf_of_mem h hf]

/-- A record written as an object, with every field. -/
theorem slots_obj (hnames : arePlain names = true) (hfields : fields.map Prod.fst = names) :
    slots names (.obj fields) = some (fields.map fun f => .given f.2) := by
  have hplain : ∀ f ∈ fields, isPlain f.1 = true := fun f hf =>
    isPlain_of_arePlain hnames f.1 (hfields ▸ List.mem_map_of_mem hf)
  subst hfields
  rw [slots, resolveKeys_of_isPlain hplain]
  exact mapM_slotOf (nodup_of_arePlain hnames)

theorem readsAs_record (hnames : arePlain names = true) (hfields : fields.map Prod.fst = names)
    (hbody : ∀ d, k ≤ d → body d (fields.map fun f => .given f.2) = some a) :
    ReadsAs (record names body) (k + 1) (.obj fields) a := by
  intro d hd
  obtain ⟨d, rfl⟩ := Nat.exists_eq_add_of_le' hd
  rw [← Nat.add_assoc, record, slots_obj hnames hfields]
  exact hbody _ (Nat.le_add_left k d)

theorem length_slotsOf {vs : List Json} {ss : List Decode.Slot} (h : slotsOf names vs = some ss) :
    ss.length = names.length := by
  induction names generalizing vs ss with
  | nil =>
    cases vs with
    | nil =>
      cases h
      rfl
    | cons v vs => cases h
  | cons name names ih =>
    cases vs with
    | _ =>
      obtain ⟨ss, hss, rfl⟩ := Option.map_eq_some_iff.1 h
      exact congrArg Nat.succ (ih hss)

theorem length_slots {j : Json} {ss : List Decode.Slot} (h : slots names j = some ss) :
    ss.length = names.length := by
  unfold slots at h
  split at h
  · obtain ⟨fields, -, h⟩ := Option.bind_eq_some_iff.1 h
    exact (mapM_eq_some.1 h).length_eq.symm
  · exact length_slotsOf h
  · cases h

theorem record_eq_some {d : Nat} {j : Json} (h : record names body d j = some a) :
    ∃ e ss, d = e + 1 ∧ ss.length = names.length ∧ body e ss = some a := by
  cases d with
  | zero => cases h
  | succ d =>
    obtain ⟨ss, hslots, hss⟩ := Option.bind_eq_some_iff.1 h
    exact ⟨d, ss, rfl, length_slots hslots, hss⟩

end Record

section Slots

variable {d e : Nat} {s : Decode.Slot}

theorem required_eq_some {a : α} (hs : s.required r d = some a) : ∃ v, r d v = some a := by
  cases s with
  | given v => exact ⟨v, hs⟩
  | _ => cases hs

theorem gives_of_required {a : α} (hs : s.required r d = some a) : r.Gives a :=
  ⟨d, required_eq_some hs⟩

/-- The default must be a value that the reader gives. -/
theorem gives_of_withDefault {a b : α} (hb : r.Gives b) (hs : s.withDefault r b d = some a) :
    r.Gives a := by
  cases s with
  | given v => exact ⟨d, v, hs⟩
  | _ =>
    cases hs
    exact hb

namespace Restores

variable (h : Restores r write k)

include h

theorem required {a : α} (hs : s.required r d = some a) (he : k ≤ e) :
    (Decode.Slot.given (write a)).required r e = some a :=
  h.reads (gives_of_required hs) e he

theorem withDefault {a b : α} (hb : r.Gives b) (hs : s.withDefault r b d = some a) (he : k ≤ e) :
    (Decode.Slot.given (write a)).withDefault r b e = some a :=
  h.reads (gives_of_withDefault hb hs) e he

theorem optional (hnull : ∀ a, write a ≠ .null) {a : Option α} (hs : s.optional r d = some a)
    (he : k ≤ e) : (Decode.Slot.given (.ofOption write a)).optional r e = some a := by
  refine (h.option hnull).reads ?_ e he
  cases s with
  | given v => exact ⟨d, v, hs⟩
  | omitted =>
    cases hs
    exact gives_none r
  | cutOff => cases hs

end Restores

end Slots

/-! ## Records, field by field -/

/-- A field of a record: a value that was read is read back from where it is written, with `k`
levels left. -/
structure RecordField (k : Nat) where
  /-- The name of the field. -/
  name : String
  /-- The values of the field. -/
  Value : Type
  /-- Read the field from what the record holds for it. -/
  read : Nat → Decode.Slot → Option Value
  /-- Write the field. -/
  write : Value → Json
  written : ∀ b, (write b).Written
  again : ∀ {d s b}, read d s = some b → ∀ {e}, k ≤ e → read e (.given (write b)) = some b

namespace RecordField

section

variable {r : Reader β} {write : β → Json} {l : Nat} (name : String) (h : Restores r write l)
  (hl : l ≤ k)

/-- A field that must be there. -/
def required : RecordField k where
  name := name
  Value := β
  read d s := s.required r d
  write := write
  written := h.written
  again hs _ he := h.required hs (hl.trans he)

/-- A field with a default. -/
def withDefault {b : β} (hb : r.Gives b) : RecordField k where
  name := name
  Value := β
  read d s := s.withDefault r b d
  write := write
  written := h.written
  again hs _ he := h.withDefault hb hs (hl.trans he)

/-- A field that may be left out of an object. -/
def optional (hnull : ∀ b, write b ≠ .null) : RecordField k where
  name := name
  Value := Option β
  read d s := s.optional r d
  write := .ofOption write
  written := (h.option hnull).written
  again hs _ he := h.optional hnull hs (hl.trans he)

end

/-- What makes a record from the values of its fields. -/
def Make (α : Type) : List (RecordField k) → Type
  | [] => α
  | f :: fs => f.Value → Make α fs

/-- Read the fields in order, then make the record. -/
def readAll : (fs : List (RecordField k)) → Make α fs → Nat → List Decode.Slot → Option α
  | [], a, _, _ => some a
  | f :: fs, make, d, s :: ss => do readAll fs (make (← f.read d s)) d ss
  | _ :: _, _, _, [] => none

/-- `P` holds of every record that is made, together with `written` and what is written for its
fields after it. -/
def Writes (P : α → List (String × Json) → Prop) :
    (fs : List (RecordField k)) → Make α fs → List (String × Json) → Prop
  | [], a, written => P a written
  | f :: fs, make, written => ∀ b, Writes P fs (make b) (written ++ [(f.name, f.write b)])

/-- The record is made from some values of its fields. -/
def IsMade (a : α) : (fs : List (RecordField k)) → Make α fs → Prop
  | [], b => b = a
  | _ :: fs, make => ∃ b, IsMade a fs (make b)

/-- `P` holds of every list with a slot for each field. -/
def ForSlots (P : List Decode.Slot → Prop) : List (RecordField k) → Prop
  | [] => P []
  | _ :: fs => ∀ s, ForSlots (fun ss => P (s :: ss)) fs

theorem ForSlots.of_length {P : List Decode.Slot → Prop} {fs : List (RecordField k)}
    (h : ForSlots P fs) {ss : List Decode.Slot} (hss : ss.length = fs.length) : P ss := by
  induction fs generalizing P ss with
  | nil =>
    rw [List.length_eq_zero_iff.1 hss]
    exact h
  | cons f fs ih =>
    obtain ⟨s, ss, rfl⟩ := List.exists_cons_of_length_eq_add_one hss
    exact ih (h s) (Nat.succ.inj hss)

section

variable {P : α → List (String × Json) → Prop} {fs : List (RecordField k)} {make : Make α fs}
  {written : List (String × Json)} {a : α} (hP : Writes P fs make written)

include hP

/-- A record that was read is made from fields that are read back. -/
theorem readAll_again {d : Nat} {ss : List Decode.Slot} (h : readAll fs make d ss = some a) :
    ∃ rest, P a (written ++ rest) ∧ rest.map Prod.fst = fs.map RecordField.name ∧
      ∀ e, k ≤ e → readAll fs make e (rest.map fun f => .given f.2) = some a := by
  induction fs generalizing written ss with
  | nil =>
    cases h
    exact ⟨[], (List.append_nil written).symm ▸ hP, rfl, fun _ _ => rfl⟩
  | cons f fs ih =>
    cases ss with
    | nil => cases h
    | cons s ss =>
      obtain ⟨b, hb, h⟩ := Option.bind_eq_some_iff.1 h
      obtain ⟨rest, hrest, hnames, hagain⟩ := ih (hP b) h
      refine ⟨(f.name, f.write b) :: rest, by simpa using hrest, by simp [hnames],
        fun e he => ?_⟩
      rw [List.map_cons, readAll, f.again hb he]
      exact hagain e he

theorem exists_written (h : IsMade a fs make) :
    ∃ rest, P a (written ++ rest) ∧ rest.map Prod.fst = fs.map RecordField.name ∧
      ∀ v ∈ rest.map Prod.snd, v.Written := by
  induction fs generalizing written with
  | nil =>
    cases h
    exact ⟨[], (List.append_nil written).symm ▸ hP, rfl, nofun⟩
  | cons f fs ih =>
    obtain ⟨b, hb⟩ := h
    obtain ⟨rest, hrest, hnames, hwritten⟩ := ih (hP b) hb
    exact ⟨(f.name, f.write b) :: rest, by simpa using hrest, by simp [hnames],
      List.forall_mem_cons.2 ⟨f.written b, hwritten⟩⟩

end

end RecordField

section Fields

open RecordField

variable {names : List String} {body : Nat → List Decode.Slot → Option α}
  {fs : List (RecordField k)} {make : Make α fs}

/-- The record with these names and this body is read field by field. -/
structure ReadsFields (names : List String) (body : Nat → List Decode.Slot → Option α)
    (fs : List (RecordField k)) (make : Make α fs) : Prop where
  names_eq : fs.map RecordField.name = names
  plain : arePlain names = true
  body_eq : ∀ d, ForSlots (fun ss => body d ss = readAll fs make d ss) fs

/-- A record that was read is read back from its fields. -/
theorem ReadsFields.readsAs {P : α → List (String × Json) → Prop} {d : Nat} {j : Json} {a : α}
    (hr : ReadsFields names body fs make) (hP : Writes P fs make [])
    (h : record names body d j = some a) :
    ∃ written, P a written ∧ ReadsAs (record names body) (k + 1) (.obj written) a := by
  obtain ⟨rfl, hplain, hbody⟩ := hr
  obtain ⟨d, ss, -, hlength, h⟩ := record_eq_some h
  rw [(hbody d).of_length (by simpa using hlength)] at h
  obtain ⟨written, hwritten, hnames, hagain⟩ := readAll_again hP h
  refine ⟨written, hwritten, readsAs_record hplain hnames fun e he => ?_⟩
  rw [(hbody e).of_length (by simpa using congrArg List.length hnames)]
  exact hagain e he

/-- A record all of whose fields are read back. -/
theorem Restores.record {json : α → Json} (fs : List (RecordField k)) (make : Make α fs)
    (hr : ReadsFields names body fs make)
    (hP : Writes (fun a written => json a = .obj written) fs make [])
    (hmade : ∀ a, IsMade a fs make) : Restores (Decode.record names body) json (k + 1) where
  written a := by
    obtain ⟨written, ha, hnames, hwritten⟩ := exists_written hP (hmade a)
    exact ha ▸ written_record _ hr.plain (hnames.trans hr.names_eq) hwritten
  reads := by
    rintro a ⟨d, j, h⟩
    obtain ⟨written, ha, hread⟩ := hr.readsAs hP h
    exact ha ▸ hread

end Fields

/-! ## Choices -/

section Choice

variable {body : Nat → String → Option Json → Option α} {name : String} {a : α}

theorem choice_eq_some {d : Nat} {j : Json} (h : choice body d j = some a) :
    ∃ e name content, body e name content = some a := by
  unfold choice at h
  split at h
  · obtain ⟨name, -, hname⟩ := Option.bind_eq_some_iff.1 h
    exact ⟨_, name, _, hname⟩
  · obtain ⟨name, -, hname⟩ := Option.bind_eq_some_iff.1 h
    exact ⟨_, name, _, hname⟩
  · cases h

theorem bare_eq_some {content : Option Json} {b : α} (h : bare a content = some b) : a = b := by
  unfold bare at h
  split at h
  · exact Option.some.inj h
  · exact Option.some.inj h
  · cases h

theorem written_name (h : isPlain name = true) : (Json.str name).Written := by
  have := Written.text name
  rwa [ofString, escape_of_isPlain h] at this

theorem written_tagged {v : Json} (h : isPlain name = true) (hv : v.Written) :
    (Json.obj [(name, v)]).Written :=
  .obj (by simpa using ⟨name, (escape_of_isPlain h).symm⟩) (by simpa using hv)

/-- A choice without content is read back from its name. -/
theorem readsAs_name (h : isPlain name = true) (hbody : ∀ d, body d name none = some a) :
    ReadsAs (choice body) 0 (.str name) a := by
  intro d _
  rw [choice, unescape?_of_isPlain h]
  exact hbody d

/-- A choice is read back with its content. -/
theorem readsAs_tagged {v : Json} (h : isPlain name = true)
    (hv : ReadsAs (fun d v => body d name (some v)) k v a) :
    ReadsAs (choice body) (k + 1) (.obj [(name, v)]) a := by
  intro d hd
  obtain ⟨d, rfl⟩ := Nat.exists_eq_add_of_le' hd
  rw [← Nat.add_assoc, choice, unescape?_of_isPlain h]
  exact hv _ (Nat.le_add_left k d)

/-- A choice whose content is a record is read back from its fields. -/
theorem readsAs_tagged_record {json : α → Json} {names : List String}
    {content : Nat → List Decode.Slot → Option α} {d : Nat} {v : Json}
    (h : record names content d v = some a) (fs : List (RecordField k))
    (make : RecordField.Make α fs) (hr : ReadsFields names content fs make)
    (hname : isPlain name = true)
    (hbody : ∀ d v, body d name (some v) = record names content d v)
    (hP : RecordField.Writes (fun a written => json a = .obj [(name, .obj written)]) fs make []) :
    ReadsAs (choice body) (k + 2) (json a) a := by
  obtain ⟨written, ha, hread⟩ := hr.readsAs hP h
  rw [ha]
  exact readsAs_tagged hname fun e he => (hbody e _).trans (hread e he)

theorem ReadsAs.map {r : Reader β} {v : Json} {b : β} (h : ReadsAs r k v b) (f : β → α) :
    ReadsAs (fun d v => (r d v).map f) k v (f b) := by
  intro d hd
  exact congrArg (Option.map f) (h d hd)

theorem find?_of_mem {options : List (String × α)} {o : String × α}
    (h : (options.map Prod.fst).Nodup) (ho : o ∈ options) :
    options.find? (fun p => p.1 == o.1) = some o := by
  induction options with
  | nil => cases ho
  | cons p options ih =>
    obtain ⟨hp, hoptions⟩ := List.nodup_cons.1 h
    rcases List.mem_cons.1 ho with rfl | ho
    · rw [List.find?_cons, beq_self_eq_true]
    · have hne : (p.1 == o.1) = false := beq_false_of_ne fun hname =>
        hp (hname ▸ List.mem_map_of_mem ho)
      rw [List.find?_cons, hne]
      exact ih hoptions ho

/-- A choice among names, each written as itself. -/
theorem Restores.oneOf {options : List (String × α)}
    (hoptions : arePlain (options.map Prod.fst) = true)
    (hwrite : ∀ a, ∃ o ∈ options, o.2 = a ∧ write a = .str o.1) :
    Restores (Decode.oneOf options) write 0 := by
  have hplain : ∀ o ∈ options, isPlain o.1 = true := fun o ho =>
    isPlain_of_arePlain hoptions o.1 (List.mem_map_of_mem ho)
  constructor
  · intro a
    obtain ⟨o, ho, -, hname⟩ := hwrite a
    rw [hname]
    exact written_name (hplain o ho)
  · intro a _
    obtain ⟨o, ho, rfl, hname⟩ := hwrite a
    rw [hname]
    refine readsAs_name (hplain o ho) fun d => ?_
    rw [find?_of_mem (nodup_of_arePlain hoptions) ho]
    rfl

end Choice

end ByteTrust.Json
