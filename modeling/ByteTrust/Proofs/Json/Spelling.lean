import ByteTrust.Json.Read
import ByteTrust.Json.Text
import ByteTrust.Json.Write
import Mathlib.Data.List.Basic
import Mathlib.Data.List.TakeWhile

/-!
# Written values are read back

`compact` writes a value without blanks, so what keeps its tokens apart is their order alone: a
number or a word is always followed by a comma, a closing bracket or the end. A value whose
numbers are plain decimal numerals and whose strings and keys are spelled by `escape` is `Written`,
and a written value comes back unchanged from its text (`Json.parse?_compact`).
-/

namespace ByteTrust

/-! ## Decimal numerals -/

theorem ne_of_isDigit {c x : Char} (hc : c.isDigit = true) (hx : x.isDigit = false) : c ≠ x := by
  rintro rfl
  exact absurd hc (by simp [hx])

namespace Decimal

theorem accumulate_of_digits {cs : List Char} (h : ∀ c ∈ cs, c.isDigit = true) (n : Nat) :
    accumulate n cs = some (Nat.ofDigitChars 10 cs n) := by
  rw [Nat.ofDigitChars_eq_foldl]
  induction cs generalizing n with
  | nil => rfl
  | cons c cs ih =>
    rw [accumulate, if_pos (h c List.mem_cons_self), List.foldl_cons]
    exact ih (fun d hd => h d (List.mem_cons_of_mem c hd)) _

theorem isDigit_toDigits (n : Nat) : ∀ c ∈ Nat.toDigits 10 n, c.isDigit = true := fun _ hc =>
  Nat.isDigit_of_mem_toDigits (b := 10) (by decide) (by decide) hc

/-- A numeral has a first digit, and only zero starts with `0`. -/
theorem toDigits_eq_cons (n : Nat) : ∃ c cs, Nat.toDigits 10 n = c :: cs ∧ (c = '0' → n = 0) := by
  induction n using Nat.strongRecOn with
  | _ n ih =>
    rcases Nat.lt_or_ge n 10 with hn | hn
    · exact ⟨n.digitChar, [], Nat.toDigits_of_lt_base hn, Nat.digitChar_eq_zero.1⟩
    · obtain ⟨c, cs, hcs, hzero⟩ := ih (n / 10) (by omega)
      refine ⟨c, cs ++ [(n % 10).digitChar], ?_, fun hc => ?_⟩
      · rw [Nat.toDigits_of_base_le (by decide) hn, hcs, List.cons_append]
      · have := hzero hc
        omega

@[simp] theorem nat?_toDigits (n : Nat) : nat? (Nat.toDigits 10 n) = some n := by
  obtain ⟨c, cs, hcs, hzero⟩ := toDigits_eq_cons n
  by_cases hc : c = '0'
  · rw [hzero hc]
    rfl
  · have hread : accumulate 0 (Nat.toDigits 10 n) = some n := by
      rw [accumulate_of_digits (isDigit_toDigits n), Nat.ofDigitChars_ten_toDigits]
    rw [hcs] at hread ⊢
    rw [nat?, hread] <;> simp [hc]

@[simp] theorem int?_ofInt (i : Int) : int? (ofInt i).toList = some i := by
  cases i with
  | ofNat n =>
    obtain ⟨c, cs, hcs, -⟩ := toDigits_eq_cons n
    have hc : c ≠ '-' :=
      ne_of_isDigit (isDigit_toDigits n c (hcs ▸ List.mem_cons_self)) rfl
    rw [ofInt, Nat.toList_repr, int?, nat?_toDigits, Option.map_some]
    simp [hcs, hc]
  | negSucc n =>
    have hspell : (ofInt (.negSucc n)).toList = '-' :: Nat.toDigits 10 (n + 1) := by
      simp [ofInt, String.toList_append]
    rw [hspell, int?, nat?_toDigits]
    rfl

end Decimal

namespace Json

theorem isUnsigned_toDigits (n : Nat) : isUnsigned (Nat.toDigits 10 n) = true := by
  obtain ⟨c, cs, hcs, hzero⟩ := Decimal.toDigits_eq_cons n
  by_cases hc : c = '0'
  · rw [hzero hc]
    rfl
  · have htake : (Nat.toDigits 10 n).takeWhile Char.isDigit = Nat.toDigits 10 n :=
      List.takeWhile_eq_self_iff.2 (Decimal.isDigit_toDigits n)
    have hdrop : (Nat.toDigits 10 n).dropWhile Char.isDigit = [] :=
      List.dropWhile_eq_nil_iff.2 (Decimal.isDigit_toDigits n)
    rw [hcs] at htake hdrop ⊢
    rw [isUnsigned, htake, hdrop]
    · rfl
    · simp [hc]

/-- The characters of a numeral continue a number, the first one starts it, and together they are
one. -/
theorem ofInt_eq_cons (i : Int) : ∃ c cs, (Decimal.ofInt i).toList = c :: cs ∧
    (c = '-' ∨ c.isDigit = true) ∧ (∀ d ∈ cs, isNumberChar d = true) ∧
    isNumber (c :: cs) = true := by
  have hchar (n : Nat) : ∀ d ∈ Nat.toDigits 10 n, isNumberChar d = true := fun d hd => by
    simp [isNumberChar, Decimal.isDigit_toDigits n d hd]
  cases i with
  | ofNat n =>
    obtain ⟨c, cs, hcs, -⟩ := Decimal.toDigits_eq_cons n
    have hdigit : c.isDigit = true := Decimal.isDigit_toDigits n c (hcs ▸ List.mem_cons_self)
    have hc : c ≠ '-' := ne_of_isDigit hdigit rfl
    refine ⟨c, cs, by rw [Decimal.ofInt, Nat.toList_repr, hcs], .inr hdigit,
      fun d hd => hchar n d (hcs ▸ List.mem_cons_of_mem c hd), ?_⟩
    rw [isNumber, ← hcs]
    · exact isUnsigned_toDigits n
    · simp [hc]
  | negSucc n =>
    refine ⟨'-', Nat.toDigits 10 (n + 1), ?_, .inl rfl, hchar _, isUnsigned_toDigits _⟩
    simp [Decimal.ofInt, String.toList_append]

/-! ## Escapes -/

theorem hexDigit?_hexChar {n : Nat} (h : n < 16) : hexDigit? (hexChar n) = some n := by
  revert n
  decide

theorem isHexDigit_hexChar {n : Nat} (h : n < 16) : isHexDigit (hexChar n) = true := by
  revert n
  decide

/-- The character `c` is spelled by the short escape `e`. -/
def IsShort (c e : Char) : Prop :=
  escapeChar c = ['\\', e] ∧ shortEscape? e = some c ∧ isShortEscape e = true ∧ e ≠ 'u'

instance (c e : Char) : Decidable (IsShort c e) := inferInstanceAs (Decidable (_ ∧ _))

/-- A character is spelled as itself, by a short escape or by its code. -/
theorem escapeChar_cases (c : Char) :
    (escapeChar c = [c] ∧ c ≠ '"' ∧ c ≠ '\\' ∧ ¬ c.toNat < 0x20) ∨ (∃ e, IsShort c e) ∨
    (escapeChar c = ['\\', 'u', '0', '0', hexChar (c.toNat / 16), hexChar (c.toNat % 16)] ∧
      c.toNat < 0x20) := by
  have hcode {n : Nat} (h : c.toNat = n) : c = Char.ofNat n := by rw [← h, Char.ofNat_toNat]
  by_cases hquote : c = '"'
  · exact .inr (.inl ⟨'"', by rw [hquote]; decide⟩)
  by_cases hback : c = '\\'
  · exact .inr (.inl ⟨'\\', by rw [hback]; decide⟩)
  by_cases hb : c.toNat = 8
  · exact .inr (.inl ⟨'b', by rw [hcode hb]; decide⟩)
  by_cases hf : c.toNat = 12
  · exact .inr (.inl ⟨'f', by rw [hcode hf]; decide⟩)
  by_cases hn : c = '\n'
  · exact .inr (.inl ⟨'n', by rw [hn]; decide⟩)
  by_cases hr : c = '\r'
  · exact .inr (.inl ⟨'r', by rw [hr]; decide⟩)
  by_cases ht : c = '\t'
  · exact .inr (.inl ⟨'t', by rw [ht]; decide⟩)
  rw [escapeChar, if_neg hquote, if_neg hback, if_neg hb, if_neg hf, if_neg hn, if_neg hr,
    if_neg ht]
  by_cases hlow : c.toNat < 0x20
  · exact .inr (.inr ⟨if_pos hlow, hlow⟩)
  · exact .inl ⟨if_neg hlow, hquote, hback, hlow⟩

theorem unescapeOnto_escapeChar (acc : List Char) (c : Char) (rest : List Char) :
    unescapeOnto acc (escapeChar c ++ rest) = unescapeOnto (c :: acc) rest := by
  rcases escapeChar_cases c with ⟨h, -, hc, -⟩ | ⟨e, h, he, -, hu⟩ | ⟨h, hlt⟩
  · rw [h, List.singleton_append, unescapeOnto, if_neg hc] <;> simp [hc]
  · rw [h, List.cons_append, List.cons_append, List.nil_append, unescapeOnto, he]
    simp [hu]
  · have hcode : hexCode? '0' '0' (hexChar (c.toNat / 16)) (hexChar (c.toNat % 16)) =
        some c.toNat := by
      have hzero : hexDigit? '0' = some 0 := rfl
      simp only [hexCode?, hzero, hexDigit?_hexChar (show c.toNat / 16 < 16 by omega),
        hexDigit?_hexChar (show c.toNat % 16 < 16 by omega), Option.bind_eq_bind, Option.bind_some]
      exact congrArg some (by omega)
    simp only [h, List.cons_append, List.nil_append, unescapeOnto, hcode]
    rw [if_neg (by omega), if_neg (by omega), Char.ofNat_toNat]

theorem unescape?_escape (text : String) : unescape? (escape text) = some text := by
  have hchars (acc cs : List Char) :
      unescapeOnto acc (cs.flatMap escapeChar) = some (cs.reverse ++ acc) := by
    induction cs generalizing acc with
    | nil => rfl
    | cons c cs ih =>
      rw [List.flatMap_cons, unescapeOnto_escapeChar, ih, List.reverse_cons, List.append_assoc,
        List.singleton_append]
  rw [unescape?, escape, String.toList_ofList, hchars]
  simp

/-- A numeral needs no escapes. -/
theorem escape_repr (n : Nat) : escape (Nat.repr n) = Nat.repr n := by
  have hchar : ∀ c ∈ Nat.toDigits 10 n, escapeChar c = [c] := by
    intro c hc
    have hdigit : c.isDigit = true := Decimal.isDigit_toDigits n c hc
    have hcode : 48 ≤ c.toNat := by
      simp only [Char.isDigit, Bool.and_eq_true, decide_eq_true_eq] at hdigit
      exact hdigit.1
    rw [escapeChar, if_neg (ne_of_isDigit hdigit rfl), if_neg (ne_of_isDigit hdigit rfl),
      if_neg (by omega), if_neg (by omega), if_neg (ne_of_isDigit hdigit rfl),
      if_neg (ne_of_isDigit hdigit rfl), if_neg (ne_of_isDigit hdigit rfl), if_neg (by omega)]
  have hchars : (Nat.toDigits 10 n).flatMap escapeChar = Nat.toDigits 10 n := by
    rw [List.flatMap_congr hchar, List.flatMap_singleton']
  rw [escape, Nat.toList_repr, hchars, Nat.repr]

/-! ## Tokens in their order -/

theorem scanAll_string_escapeChar (r : List Char) (acc : List Token) (c : Char) (cs : List Char) :
    scanAll (.string r) acc (escapeChar c ++ cs) =
      scanAll (.string ((escapeChar c).reverse ++ r)) acc cs := by
  rcases escapeChar_cases c with ⟨h, hquote, hback, hlow⟩ | ⟨e, h, -, he, hu⟩ | ⟨h, hlt⟩
  · simp [h, scanAll, scan, hquote, hback, hlow]
  · simp [h, scanAll, scan, he, hu]
  · have hzero : isHexDigit '0' = true := rfl
    simp [h, scanAll, scan, hzero, isHexDigit_hexChar (show c.toNat / 16 < 16 by omega),
      isHexDigit_hexChar (show c.toNat % 16 < 16 by omega)]

theorem scanAll_string_escape (text : String) (acc : List Token) (cs : List Char) :
    scanAll (.string []) acc ((escape text).toList ++ '"' :: cs) =
      scanAll .between (.str (escape text) :: acc) cs := by
  have hchars (r ts : List Char) : scanAll (.string r) acc (ts.flatMap escapeChar ++ '"' :: cs) =
      scanAll .between (.str (String.ofList (r.reverse ++ ts.flatMap escapeChar)) :: acc) cs := by
    induction ts generalizing r with
    | nil => simp [scanAll, scan]
    | cons c ts ih =>
      rw [List.flatMap_cons, List.append_assoc, scanAll_string_escapeChar, ih]
      simp
  simpa [escape] using hchars [] text.toList

/-- A number ends before a character that cannot continue it, or with the text. -/
theorem scanAll_number {r cs : List Char} (acc : List Token) (hr : isNumber r.reverse = true)
    (hcs : ∀ c ∈ cs.head?, isNumberChar c = false) :
    scanAll (.number r) acc cs = scanAll .between (.num (String.ofList r.reverse) :: acc) cs := by
  cases cs with
  | nil => simp [scanAll, finish, numberToken?, hr]
  | cons c cs => simp [scanAll, scan, numberToken?, hr, hcs c rfl]

theorem scanAll_numberChars (r : List Char) (acc : List Token) {ds : List Char} (cs : List Char)
    (hds : ∀ d ∈ ds, isNumberChar d = true) :
    scanAll (.number r) acc (ds ++ cs) = scanAll (.number (ds.reverse ++ r)) acc cs := by
  induction ds generalizing r with
  | nil => rfl
  | cons d ds ih =>
    have hd : isNumberChar d = true := hds d List.mem_cons_self
    simp [scanAll, scan, hd, ih _ fun e he => hds e (List.mem_cons_of_mem d he)]

theorem startToken_number {c : Char} (hc : c = '-' ∨ c.isDigit = true) (acc : List Token) :
    startToken c acc = some (acc, .number [c]) := by
  rcases hc with rfl | hc
  · rfl
  · simp [startToken, isBlank, hc, ne_of_isDigit hc]

theorem scanAll_ofInt (i : Int) (acc : List Token) {cs : List Char}
    (hcs : ∀ c ∈ cs.head?, isNumberChar c = false) :
    scanAll .between acc ((Decimal.ofInt i).toList ++ cs) =
      scanAll .between (.num (Decimal.ofInt i) :: acc) cs := by
  obtain ⟨c, ds, hspell, hc, hds, hnum⟩ := ofInt_eq_cons i
  have hreverse : (ds.reverse ++ [c]).reverse = c :: ds := by simp
  have hback : String.ofList (c :: ds) = Decimal.ofInt i := by rw [← hspell, String.ofList_toList]
  rw [hspell, List.cons_append, scanAll, scan, startToken_number hc]
  simp only
  rw [scanAll_numberChars _ _ _ hds, scanAll_number _ (by rwa [hreverse]) hcs, hreverse, hback]

/-- A word ends before a character that cannot continue it, or with the text. -/
theorem scanAll_word {r cs : List Char} {t : Token} (acc : List Token) (hr : wordToken? r = some t)
    (hcs : ∀ c ∈ cs.head?, c.isLower = false) :
    scanAll (.word r) acc cs = scanAll .between (t :: acc) cs := by
  cases cs with
  | nil => simp [scanAll, finish, hr]
  | cons c cs => simp [scanAll, scan, hr, hcs c rfl]

namespace Token

/-- The spelling of the token is that of a decimal numeral or of a text. -/
def Written : Token → Prop
  | .num s => ∃ i, s = Decimal.ofInt i
  | .str s => ∃ text, s = escape text
  | _ => True

/-- The token goes on until something else begins: numbers and words. -/
def IsOpen : Token → Prop
  | .null | .bool _ | .num _ => True
  | _ => False

/-- The token may come after a value. -/
def Closes : Token → Prop
  | .comma | .closeArray | .closeObject => True
  | _ => False

end Token

/-- The characters of a list of tokens. -/
def spellAll (ts : List Token) : List Char := ts.flatMap fun t => t.spell.toList

/-- Written tokens that stay apart without blanks. -/
def Separable : List Token → Prop
  | [] => True
  | t :: ts => t.Written ∧ (t.IsOpen → ∀ u ∈ ts.head?, u.Closes) ∧ Separable ts

/-- What comes after a value neither continues a number nor a word. -/
theorem head?_spellAll {ts : List Token} (h : ∀ u ∈ ts.head?, u.Closes) :
    ∀ c ∈ (spellAll ts).head?, isNumberChar c = false ∧ c.isLower = false := by
  cases ts with
  | nil => simp [spellAll]
  | cons u ts =>
    have hu : u.Closes := h u rfl
    cases u with
    | comma => simp [spellAll, Token.spell, isNumberChar]
    | closeArray => simp [spellAll, Token.spell, isNumberChar]
    | closeObject => simp [spellAll, Token.spell, isNumberChar]
    | _ => exact hu.elim

theorem scanAll_spell {t : Token} {ts : List Token} (acc : List Token) (ht : t.Written)
    (hts : t.IsOpen → ∀ u ∈ ts.head?, u.Closes) :
    scanAll .between acc (t.spell.toList ++ spellAll ts) =
      scanAll .between (t :: acc) (spellAll ts) := by
  cases t with
  | null => exact scanAll_word acc rfl fun c hc => (head?_spellAll (hts trivial) c hc).2
  | bool b =>
    cases b with
    | true => exact scanAll_word acc rfl fun c hc => (head?_spellAll (hts trivial) c hc).2
    | false => exact scanAll_word acc rfl fun c hc => (head?_spellAll (hts trivial) c hc).2
  | num s =>
    obtain ⟨i, rfl⟩ := ht
    exact scanAll_ofInt i acc fun c hc => (head?_spellAll (hts trivial) c hc).1
  | str s =>
    obtain ⟨text, rfl⟩ := ht
    have hspell : (Token.spell (.str (escape text))).toList =
        '"' :: ((escape text).toList ++ ['"']) := by
      simp [Token.spell, String.toList_append]
    have hopen (cs : List Char) : scanAll .between acc ('"' :: cs) = scanAll (.string []) acc cs :=
      rfl
    rw [hspell, List.cons_append, List.append_assoc, List.singleton_append, hopen,
      scanAll_string_escape]
  | _ => rfl

theorem tokens?_join {ts : List Token} (h : Separable ts) :
    tokens? (String.join (ts.map Token.spell)) = some ts := by
  have hscan (acc : List Token) :
      scanAll .between acc (spellAll ts) = some (acc.reverse ++ ts) := by
    induction ts generalizing acc with
    | nil => simp [spellAll, scanAll, finish]
    | cons t ts ih =>
      obtain ⟨ht, hts, hrest⟩ := h
      have hcons : spellAll (t :: ts) = t.spell.toList ++ spellAll ts := List.flatMap_cons
      rw [hcons, scanAll_spell acc ht hts, ih hrest]
      simp
  have hchars : (String.join (ts.map Token.spell)).toList = spellAll ts := by
    rw [String.toList_join, List.flatMap_map]
    rfl
  rw [tokens?, hchars, hscan]
  rfl

/-! ## Values -/

/-- A value whose numbers are decimal numerals, and whose strings and keys are spelled as `escape`
spells texts. -/
inductive Written : Json → Prop
  | null : Written .null
  | bool (b : Bool) : Written (.bool b)
  | int (i : Int) : Written (.ofInt i)
  | text (t : String) : Written (.ofString t)
  | arr {items : List Json} (h : ∀ v ∈ items, Written v) : Written (.arr items)
  | obj {fields : List (String × Json)} (hkeys : ∀ f ∈ fields, ∃ t, f.1 = escape t)
      (h : ∀ f ∈ fields, Written f.2) : Written (.obj fields)

theorem separable_itemTokensOnto {vs : List Json}
    (h : ∀ v ∈ vs, ∀ ts, Separable ts → (∀ u ∈ ts.head?, u.Closes) → Separable (tokensOnto v ts))
    {ts : List Token} (hts : Separable ts) (hhead : ∀ u ∈ ts.head?, u.Closes) :
    Separable (itemTokensOnto vs ts) ∧ ∀ u ∈ (itemTokensOnto vs ts).head?, u.Closes := by
  induction vs with
  | nil => exact ⟨hts, hhead⟩
  | cons v vs ih =>
    obtain ⟨hvs, hvshead⟩ := ih fun w hw => h w (List.mem_cons_of_mem v hw)
    refine ⟨⟨trivial, nofun, h v List.mem_cons_self _ hvs hvshead⟩, ?_⟩
    simp [itemTokensOnto, Token.Closes]

theorem separable_fieldTokensOnto {fs : List (String × Json)}
    (hkeys : ∀ f ∈ fs, ∃ t, f.1 = escape t)
    (h : ∀ f ∈ fs, ∀ ts, Separable ts → (∀ u ∈ ts.head?, u.Closes) →
      Separable (tokensOnto f.2 ts))
    {ts : List Token} (hts : Separable ts) (hhead : ∀ u ∈ ts.head?, u.Closes) :
    Separable (fieldTokensOnto fs ts) ∧ ∀ u ∈ (fieldTokensOnto fs ts).head?, u.Closes := by
  induction fs with
  | nil => exact ⟨hts, hhead⟩
  | cons f fs ih =>
    obtain ⟨hfs, hfshead⟩ := ih (fun g hg => hkeys g (List.mem_cons_of_mem f hg))
      fun g hg => h g (List.mem_cons_of_mem f hg)
    refine ⟨⟨trivial, nofun, hkeys f List.mem_cons_self, nofun, trivial, nofun,
      h f List.mem_cons_self _ hfs hfshead⟩, ?_⟩
    simp [fieldTokensOnto, Token.Closes]

theorem Written.separable {v : Json} (h : v.Written) {ts : List Token} (hts : Separable ts)
    (hhead : ∀ u ∈ ts.head?, u.Closes) : Separable (tokensOnto v ts) := by
  induction h generalizing ts with
  | null => exact ⟨trivial, fun _ => hhead, hts⟩
  | bool b => exact ⟨trivial, fun _ => hhead, hts⟩
  | int i => exact ⟨⟨i, rfl⟩, fun _ => hhead, hts⟩
  | text t => exact ⟨⟨t, rfl⟩, nofun, hts⟩
  | @arr items _ ih =>
    have hclose : Separable (.closeArray :: ts) := ⟨trivial, nofun, hts⟩
    cases items with
    | nil => exact ⟨trivial, nofun, hclose⟩
    | cons v vs =>
      obtain ⟨hvs, hvshead⟩ := separable_itemTokensOnto
        (fun w hw us hus hushead => ih w (List.mem_cons_of_mem v hw) hus hushead) hclose
        (by simp [Token.Closes])
      exact ⟨trivial, nofun, ih v List.mem_cons_self hvs hvshead⟩
  | @obj fields hkeys _ ih =>
    have hclose : Separable (.closeObject :: ts) := ⟨trivial, nofun, hts⟩
    cases fields with
    | nil => exact ⟨trivial, nofun, hclose⟩
    | cons f fs =>
      obtain ⟨hfs, hfshead⟩ := separable_fieldTokensOnto
        (fun g hg => hkeys g (List.mem_cons_of_mem f hg))
        (fun g hg us hus hushead => ih g (List.mem_cons_of_mem f hg) hus hushead) hclose
        (by simp [Token.Closes])
      exact ⟨trivial, nofun, hkeys f List.mem_cons_self, nofun, trivial, nofun,
        ih f List.mem_cons_self hfs hfshead⟩

/-- No value starts with a closing bracket, so the first item of an array is read like any
value. -/
theorem run_firstItem (v : Json) (stack : List Open) (ts : List Token) :
    (State.firstItem stack).run (tokensOnto v ts) =
      (State.value (.arr [] :: stack)).run (tokensOnto v ts) := by
  match v with
  | .null | .bool _ | .num _ | .str _ => rfl
  | .arr [] | .arr (_ :: _) | .obj [] | .obj ((_, _) :: _) => rfl

mutual

theorem run_tokensOnto (stack : List Open) (ts : List Token) :
    ∀ v : Json, (State.value stack).run (tokensOnto v ts) = (settle v stack).run ts
  | .null | .bool _ | .num _ | .str _ => rfl
  | .arr [] | .obj [] => rfl
  | .arr (v :: vs) => by
    change (State.firstItem stack).run (tokensOnto v _) = _
    rw [run_firstItem, run_tokensOnto _ _ v]
    exact run_itemTokensOnto [v] stack ts vs
  | .obj ((k, v) :: fs) => by
    change (State.value (.obj [] k :: stack)).run (tokensOnto v _) = _
    rw [run_tokensOnto _ _ v]
    exact run_fieldTokensOnto [(k, v)] stack ts fs

theorem run_itemTokensOnto (items : List Json) (stack : List Open) (ts : List Token) :
    ∀ vs : List Json, (State.afterItem items stack).run (itemTokensOnto vs (.closeArray :: ts)) =
      (settle (.arr (items.reverse ++ vs)) stack).run ts
  | [] => by
    rw [List.append_nil]
    rfl
  | v :: vs => by
    change (State.value (.arr items :: stack)).run (tokensOnto v _) = _
    rw [run_tokensOnto _ _ v]
    refine (run_itemTokensOnto (v :: items) stack ts vs).trans ?_
    rw [List.reverse_cons, List.append_assoc, List.singleton_append]

theorem run_fieldTokensOnto (fields : List (String × Json)) (stack : List Open)
    (ts : List Token) : ∀ fs : List (String × Json),
    (State.afterField fields stack).run (fieldTokensOnto fs (.closeObject :: ts)) =
      (settle (.obj (fields.reverse ++ fs)) stack).run ts
  | [] => by
    rw [List.append_nil]
    rfl
  | (k, v) :: fs => by
    change (State.value (.obj fields k :: stack)).run (tokensOnto v _) = _
    rw [run_tokensOnto _ _ v]
    refine (run_fieldTokensOnto ((k, v) :: fields) stack ts fs).trans ?_
    rw [List.reverse_cons, List.append_assoc, List.singleton_append]

end

/-- The text of a written value holds that value. -/
theorem parse?_compact {v : Json} (h : v.Written) : parse? (compact v) = some v := by
  have htokens : tokens? (compact v) = some v.tokens := tokens?_join (h.separable trivial (by simp))
  rw [parse?, htokens]
  exact run_tokensOnto [] [] v

end Json

end ByteTrust
