/-
# Phrases of compiled expressions

A phrase is a text that is one factor, wherever it stands: it is cut into the same tokens whatever
follows it, and those tokens are read as the same expression whatever follows them (`Phrase`).  This
needs no look at what surrounds a phrase, since every phrase ends with a closing mark.

The texts that trees are compiled to are built from phrases by four constructions, and each makes a
phrase again: variables (`phrase_input`), signs in parentheses (`phrase_sign`), calls of primitives
(`phrase_call`) and calls of nodes (`phrase_node`).  Numbers in parentheses are phrases if they are
numerals (`phrase_number`, `phrase_negated`).

A bound of four for each token is enough for reading: every level of the grammar takes one, and
between two brackets there are at most four of them.
-/
import FormulaEvolution.Compilation
import FormulaEvolution.Proofs.Text.Quoting

namespace FormulaEvolution

/-! ## 1. Cutting into tokens -/

namespace Token

theorem scan_nil : scan [] = some [] := by rw [scan]

theorem scan_blank (cs : List Char) : scan (' ' :: cs) = scan cs := by
  rw [scan, if_pos rfl]

theorem scan_mark {c : Char} (h : isMark c = true) (cs : List Char) :
    scan (c :: cs) = (scan cs).map (.mark c :: ·) := by
  have hblank : c ≠ ' ' := by
    rintro rfl
    simp [isMark] at h
  rw [scan, if_neg hblank, if_pos h]

/-- A quoted text is one token, whatever follows it. -/
theorem scan_encode (text rest : List Char) :
    scan (Text.Quoted.encode text ++ rest) =
      (scan rest).map (.quoted (String.ofList text) :: ·) := by
  have hread := Text.Quoted.decodeBody_body (Text.Quoted.quoteFor_eq text) text rest
  simp only [Text.Quoted.encode, List.cons_append, List.append_assoc, List.nil_append]
  rcases Text.Quoted.quoteFor_eq text with hq | hq
  · rw [hq] at hread ⊢
    rw [scan, if_neg (by decide), if_neg (by decide), if_pos (by decide)]
    split
    · next hsome =>
      rw [hread] at hsome
      cases hsome
      rfl
    · next hnone =>
      rw [hread] at hnone
      cases hnone
  · rw [hq] at hread ⊢
    rw [scan, if_neg (by decide), if_neg (by decide), if_pos (by decide)]
    split
    · next hsome =>
      rw [hread] at hsome
      cases hsome
      rfl
    · next hnone =>
      rw [hread] at hnone
      cases hnone

/-- The characters of a name. -/
def isNameText : List Char → Bool
  | [] => false
  | c :: cs => isNameStart c && cs.all isNameChar

/-- What follows begins with a mark. -/
def Marked (rest : List Char) : Prop := ∃ c cs, rest = c :: cs ∧ isMark c = true

theorem isNameChar_of_isMark {c : Char} (h : isMark c = true) : isNameChar c = false := by
  simp only [isMark, List.contains_iff_mem, List.mem_cons, List.not_mem_nil, or_false] at h
  rcases h with rfl | rfl | rfl | rfl | rfl | rfl | rfl | rfl | rfl <;> decide

theorem isMark_of_isNameStart {c : Char} (h : isNameStart c = true) : isMark c = false := by
  cases hm : isMark c with
  | false => rfl
  | true =>
    have hnot := isNameChar_of_isMark hm
    simp [isNameChar, h] at hnot

theorem takeWhile_marked {p : Char → Bool} {cs rest : List Char} (hcs : cs.all p = true)
    (hrest : ∀ c, isMark c = true → p c = false) (h : Marked rest) :
    (cs ++ rest).takeWhile p = cs ∧ (cs ++ rest).dropWhile p = rest := by
  obtain ⟨c, tail, rfl, hc⟩ := h
  have hstop := hrest c hc
  rw [List.takeWhile_append_of_pos (by simpa using hcs),
    List.dropWhile_append_of_pos (by simpa using hcs)]
  simp [hstop]

/-- A name before a mark is one token. -/
theorem scan_name {cs rest : List Char} (hcs : isNameText cs = true) (hrest : Marked rest) :
    scan (cs ++ rest) = (scan rest).map (.name (String.ofList cs) :: ·) := by
  match cs, hcs with
  | c :: cs, hcs =>
    simp only [isNameText, Bool.and_eq_true] at hcs
    obtain ⟨hstart, hall⟩ := hcs
    have hblank : c ≠ ' ' := by
      rintro rfl
      simp [isNameStart] at hstart
    have hquote : (decide (c = '\'') || decide (c = '"')) = false := by
      simp only [Bool.or_eq_false_iff, decide_eq_false_iff_not]
      constructor <;> (rintro rfl; simp [isNameStart] at hstart)
    obtain ⟨htake, hdrop⟩ := takeWhile_marked hall (fun _ => isNameChar_of_isMark) hrest
    rw [List.cons_append, scan, if_neg hblank, if_neg (by simp [isMark_of_isNameStart hstart]),
      if_neg (by simp [hquote]), if_pos hstart, htake, hdrop]

/-- A numeral: a digit, and then characters that all belong to it. -/
def isNumeral : List Char → Bool
  | [] => false
  | c :: cs => c.isDigit && (spanNumber false cs).2.isEmpty

theorem isMark_iff {c : Char} : isMark c = true ↔
    c = '(' ∨ c = ')' ∨ c = '[' ∨ c = ']' ∨ c = ',' ∨ c = '+' ∨ c = '-' ∨ c = '*' ∨ c = '/' := by
  simp [isMark]

/-- What is cut off a numeral, before a bracket or a comma, is the numeral. -/
theorem spanNumber_append {close : Char} (hclose : close = ')' ∨ close = ']' ∨ close = ',')
    (rest : List Char) : ∀ (cs : List Char) (afterMark : Bool),
      (spanNumber afterMark cs).2.isEmpty = true →
        spanNumber afterMark (cs ++ close :: rest) = (cs, close :: rest)
  | [], afterMark, _ => by
    rcases hclose with rfl | rfl | rfl <;> simp [spanNumber, Char.isDigit]
  | c :: cs, afterMark, h => by
    simp only [List.cons_append, spanNumber] at h ⊢
    split
    · next hdigit =>
      rw [if_pos hdigit] at h
      rw [spanNumber_append hclose rest cs false h]
    · next hdigit =>
      rw [if_neg hdigit] at h
      split
      · next hmark =>
        rw [if_pos hmark] at h
        rw [spanNumber_append hclose rest cs true h]
      · next hmark =>
        rw [if_neg hmark] at h
        simp at h

/-- What holds of ten characters holds of every digit. -/
@[elab_as_elim]
theorem of_isDigit {motive : Char → Prop} {c : Char} (hc : c.isDigit = true)
    (h : ∀ i : Fin 10, motive (Char.ofNat (48 + i))) : motive c := by
  have hrange : 48 ≤ c.toNat ∧ c.toNat ≤ 57 := by
    simpa [Char.isDigit, Char.le_def, UInt32.le_iff_toNat_le] using hc
  have hthis := h ⟨c.toNat - 48, by omega⟩
  rwa [Nat.add_sub_cancel' hrange.1, Char.ofNat_toNat] at hthis

/-- A digit begins nothing but a numeral. -/
theorem digit_begins_numeral {c : Char} (h : c.isDigit = true) :
    c ≠ ' ' ∧ isMark c = false ∧ c ≠ '\'' ∧ c ≠ '"' ∧ isNameStart c = false :=
  of_isDigit h (by decide)

/-- A numeral before a bracket or a comma is one token. -/
theorem scan_numeral {cs rest : List Char} {token : Token} {close : Char}
    (hcs : isNumeral cs = true) (htoken : ofNumeral? cs = some token)
    (hclose : close = ')' ∨ close = ']' ∨ close = ',') :
    scan (cs ++ close :: rest) = (scan (close :: rest)).map (token :: ·) := by
  match cs, hcs with
  | c :: cs, hcs =>
    simp only [isNumeral, Bool.and_eq_true] at hcs
    obtain ⟨hdigit, hspan⟩ := hcs
    obtain ⟨hblank, hmark, hsingle, hdouble, hstart⟩ := digit_begins_numeral hdigit
    have hfollow : (some close).any isNameChar = false := by
      rcases hclose with rfl | rfl | rfl <;> decide
    have hall := spanNumber_append hclose rest cs false hspan
    rw [List.cons_append, scan, if_neg hblank, if_neg (by simp [hmark]),
      if_neg (by simp [hsingle, hdouble]), if_neg (by simp [hstart]), if_pos (by simp [hdigit])]
    simp only [hall, htoken, List.head?_cons, hfollow]
    rfl

/-- The digits of a whole number are a numeral, and its token is the number. -/
theorem ofNumeral_toDigits (n : Nat) : isNumeral (Nat.toDigits 10 n) = true ∧
    ofNumeral? (Nat.toDigits 10 n) = some (.whole n) := by
  have hdigits : ∀ c ∈ Nat.toDigits 10 n, c.isDigit = true :=
    fun c hc => Nat.isDigit_of_mem_toDigits (by decide) (by decide) hc
  constructor
  · have hspan : ∀ cs : List Char, (∀ c ∈ cs, c.isDigit = true) →
        (spanNumber false cs).2.isEmpty = true := by
      intro cs hcs
      induction cs with
      | nil => rfl
      | cons c cs ih =>
        rw [spanNumber, if_pos (by simp [hcs c List.mem_cons_self])]
        exact ih fun d hd => hcs d (List.mem_cons_of_mem c hd)
    cases hds : Nat.toDigits 10 n with
    | nil => exact absurd hds Nat.toDigits_ne_nil
    | cons c cs =>
      rw [hds] at hdigits
      rw [isNumeral, hdigits c List.mem_cons_self,
        hspan cs fun d hd => hdigits d (List.mem_cons_of_mem c hd)]
      rfl
  · have hvalue : Number.ofDigits (Nat.toDigits 10 n) = n := Nat.ofDigitChars_ten_toDigits
    rw [ofNumeral?, if_pos (List.all_eq_true.mpr hdigits), hvalue]

end Token

/-! ## 2. Phrases -/

/-- A text that is one factor wherever it stands: it is cut into these tokens, of which the first
closes nothing, and they are read as this expression. -/
structure Phrase (text : List Char) (tokens : List Token) (code : Code) : Prop where
  opens : ∀ close rest, close = ')' ∨ close = ']' → Code.expectMark close (tokens ++ rest) = none
  scan : ∀ rest, Token.scan (text ++ rest) = (Token.scan rest).map (tokens ++ ·)
  read : ∀ bound rest, 4 * tokens.length ≤ bound →
    Code.readFactor bound (tokens ++ rest) = some (code, rest)

/-- Texts that are phrases, with all their tokens, a comma between each two of them. -/
inductive Phrases : List (List Char) → List Token → List Code → Prop
  | nil : Phrases [] [] []
  | single {text tokens code} : Phrase text tokens code → Phrases [text] tokens [code]
  | cons {text texts tokens rest code codes} : Phrase text tokens code →
      Phrases texts rest codes → texts ≠ [] →
        Phrases (text :: texts) (tokens ++ .mark ',' :: rest) (code :: codes)

/-- What follows ends a sum. -/
def Stops (rest : List Token) : Prop :=
  rest = [] ∨ ∃ c ts, rest = .mark c :: ts ∧ Code.sumSign? c = none ∧ Code.productSign? c = none

theorem stops_mark {c : Char} (hsum : Code.sumSign? c = none) (hproduct : Code.productSign? c = none)
    (ts : List Token) : Stops (.mark c :: ts) := .inr ⟨c, ts, rfl, hsum, hproduct⟩

theorem readSum_of {bound : Nat} {ts rest : List Token} {x : Code}
    (h : Code.readProduct bound ts = some (x, rest)) :
    Code.readSum (bound + 1) ts = Code.readSumAfter bound x rest := by
  rw [Code.readSum, h]
  rfl

theorem readProduct_of {bound : Nat} {ts rest : List Token} {x : Code}
    (h : Code.readFactor bound ts = some (x, rest)) :
    Code.readProduct (bound + 1) ts = Code.readProductAfter bound x rest := by
  rw [Code.readProduct, h]
  rfl

theorem readSumAfter_sign {c : Char} {s : Sign} (hc : Code.sumSign? c = some s) {bound : Nat}
    {ts rest : List Token} {y : Code} (h : Code.readProduct bound ts = some (y, rest)) (x : Code) :
    Code.readSumAfter (bound + 1) x (.mark c :: ts) =
      Code.readSumAfter bound (.signed s x y) rest := by
  conv => lhs; unfold Code.readSumAfter
  simp only [hc, h, Option.bind_eq_bind, Option.bind_some]

theorem readProductAfter_sign {c : Char} {s : Sign} (hc : Code.productSign? c = some s)
    {bound : Nat} {ts rest : List Token} {y : Code}
    (h : Code.readFactor bound ts = some (y, rest)) (x : Code) :
    Code.readProductAfter (bound + 1) x (.mark c :: ts) =
      Code.readProductAfter bound (.signed s x y) rest := by
  conv => lhs; unfold Code.readProductAfter
  simp only [hc, h, Option.bind_eq_bind, Option.bind_some]

/-- A mark that is no sign between factors ends a product. -/
theorem readProductAfter_mark {c : Char} (hc : Code.productSign? c = none) (bound : Nat) (x : Code)
    (ts : List Token) :
    Code.readProductAfter (bound + 1) x (.mark c :: ts) = some (x, .mark c :: ts) := by
  conv => lhs; unfold Code.readProductAfter
  simp only [hc]

theorem readProductAfter_stops {rest : List Token} (h : Stops rest) (bound : Nat) (x : Code) :
    Code.readProductAfter (bound + 1) x rest = some (x, rest) := by
  rcases h with rfl | ⟨c, ts, rfl, -, hproduct⟩
  · simp [Code.readProductAfter]
  · exact readProductAfter_mark hproduct bound x ts

theorem readSumAfter_stops {rest : List Token} (h : Stops rest) (bound : Nat) (x : Code) :
    Code.readSumAfter (bound + 1) x rest = some (x, rest) := by
  rcases h with rfl | ⟨c, ts, rfl, hsum, -⟩
  · simp [Code.readSumAfter]
  · simp [Code.readSumAfter, hsum]

section Reading

variable {text : List Char} {tokens rest : List Token} {code : Code}

theorem Phrase.length_pos (h : Phrase text tokens code) : 0 < tokens.length := by
  cases tokens with
  | nil => simpa [Code.expectMark] using h.opens ')' [.mark ')'] (.inl rfl)
  | cons t ts => simp

/-- A phrase is a sum. -/
theorem Phrase.readSum (h : Phrase text tokens code) (hrest : Stops rest) {bound : Nat}
    (hbound : 4 * tokens.length + 2 ≤ bound) :
    Code.readSum bound (tokens ++ rest) = some (code, rest) := by
  obtain ⟨k, rfl⟩ : ∃ k, bound = k + 3 := ⟨bound - 3, by have := h.length_pos; omega⟩
  have hproduct : Code.readProduct (k + 2) (tokens ++ rest) = some (code, rest) := by
    rw [readProduct_of (h.read (k + 1) rest (by omega)), readProductAfter_stops hrest]
  rw [readSum_of hproduct, readSumAfter_stops hrest]

/-- **A phrase is the whole expression of its text**, unless it is nested too deeply. -/
theorem Phrase.ofText (h : Phrase text tokens code) :
    Code.ofText? text = if Token.staysWithin 0 tokens then some code else none := by
  have hscan : Token.scan text = some tokens := by
    have := h.scan []
    rwa [List.append_nil, Token.scan_nil, Option.map_some, List.append_nil] at this
  have hread : Code.readSum (Code.readingBound tokens.length) tokens = some (code, []) := by
    have := h.readSum (.inl rfl : Stops [])
      (show 4 * tokens.length + 2 ≤ Code.readingBound tokens.length by
        simp only [Code.readingBound]; omega)
    rwa [List.append_nil] at this
  simp only [Code.ofText?, hscan, Option.bind_eq_bind, Option.bind_some, hread]

end Reading

/-! ## 3. Several phrases -/

section Several

variable {texts : List (List Char)} {tokens : List Token} {codes : List Code}

/-- A phrase in front of phrases. -/
theorem Phrases.push {text : List Char} {front : List Token} {code : Code}
    (hfront : Phrase text front code) (h : Phrases texts tokens codes) :
    ∃ tokens', Phrases (text :: texts) tokens' (code :: codes) := by
  cases h with
  | nil => exact ⟨_, .single hfront⟩
  | single hphrase => exact ⟨_, .cons hfront (.single hphrase) (by simp)⟩
  | cons hphrase hrest hne => exact ⟨_, .cons hfront (.cons hphrase hrest hne) (by simp)⟩

/-- Two phrases. -/
theorem Phrases.pair {x y : Code} (h : Phrases texts tokens [x, y]) :
    ∃ text text' front back, texts = [text, text'] ∧ Phrase text front x ∧
      Phrase text' back y := by
  cases h with
  | cons hx hrest _ =>
    cases hrest with
    | single hy => exact ⟨_, _, _, _, rfl, hx, hy⟩
    | cons _ hnone hne =>
      cases hnone
      exact absurd rfl hne

/-- Phrases that are joined are cut one after the other. -/
theorem Phrases.scan (h : Phrases texts tokens codes) (rest : List Char) :
    Token.scan (Text.join [',', ' '] texts ++ rest) = (Token.scan rest).map (tokens ++ ·) := by
  induction h with
  | nil => simp [Text.join]
  | single hphrase => exact hphrase.scan rest
  | @cons text texts ts ts' code codes hphrase _ hne ih =>
    obtain ⟨next, others, rfl⟩ := List.exists_cons_of_ne_nil hne
    rw [Text.join]
    · simp only [List.append_assoc, List.cons_append, List.nil_append]
      rw [hphrase.scan, Token.scan_mark (by decide), Token.scan_blank, ih]
      simp [Option.map_map, Function.comp_def]
    · simp

/-- **Phrases up to a closing bracket are read as the arguments of a call.** -/
theorem Phrases.read (h : Phrases texts tokens codes) {close : Char}
    (hclose : close = ')' ∨ close = ']') (rest : List Token) : ∀ bound : Nat,
      4 * tokens.length + 4 ≤ bound →
        Code.readArguments bound close (tokens ++ .mark close :: rest) = some (codes, rest) := by
  have hends : Code.expectMark close (.mark close :: rest) = some rest := by
    simp [Code.expectMark]
  have hstops : Stops (.mark close :: rest) := by
    rcases hclose with rfl | rfl <;> exact stops_mark rfl rfl rest
  induction h with
  | nil =>
    intro bound hbound
    obtain ⟨k, rfl⟩ : ∃ k, bound = k + 1 := ⟨bound - 1, by omega⟩
    simp only [Code.readArguments, List.nil_append, hends]
  | single hphrase =>
    intro bound hbound
    obtain ⟨k, rfl⟩ : ∃ k, bound = k + 1 := ⟨bound - 1, by omega⟩
    simp only [Code.readArguments, hphrase.opens close _ hclose, Option.bind_eq_bind,
      hphrase.readSum hstops (show _ ≤ k by omega), Option.bind_some, hends]
  | @cons text texts ts ts' code codes hphrase _ _ ih =>
    intro bound hbound
    simp only [List.length_append, List.length_cons] at hbound
    obtain ⟨k, rfl⟩ : ∃ k, bound = k + 1 := ⟨bound - 1, by omega⟩
    have hcomma : Stops (.mark ',' :: (ts' ++ .mark close :: rest)) := stops_mark rfl rfl _
    have hnotEnd : Code.expectMark close (.mark ',' :: (ts' ++ .mark close :: rest)) = none := by
      rcases hclose with rfl | rfl <;> simp [Code.expectMark]
    have hnext : Code.expectMark ',' (.mark ',' :: (ts' ++ .mark close :: rest)) =
        some (ts' ++ .mark close :: rest) := by
      simp [Code.expectMark]
    have hpos := hphrase.length_pos
    simp only [List.append_assoc, List.cons_append, Code.readArguments,
      hphrase.opens close _ hclose, Option.bind_eq_bind,
      hphrase.readSum hcomma (show _ ≤ k by omega), Option.bind_some, hnotEnd, hnext,
      ih k (by omega)]

end Several

/-! ## 4. Constructions -/

/-- A variable is a phrase. -/
theorem phrase_input (name : String) : Phrase (Symbol.variableText name).toList
    [.name Code.variablesName, .mark '[', .quoted name, .mark ']'] (.input name) where
  opens := fun _ _ _ => rfl
  scan := by
    intro rest
    have htext : (Symbol.variableText name).toList ++ rest =
        "variables".toList ++ '[' :: (Text.Quoted.encode name.toList ++ ']' :: rest) := by
      simp [Symbol.variableText, Text.Quoted.quote]
    rw [htext, Token.scan_name (by decide) ⟨'[', _, rfl, by decide⟩, Token.scan_mark (by decide),
      Token.scan_encode, Token.scan_mark (by decide)]
    simp [Option.map_map, Function.comp_def, Code.variablesName]
  read := by
    intro bound rest hbound
    obtain ⟨k, rfl⟩ : ∃ k, bound = k + 1 := ⟨bound - 1, by simp at hbound; omega⟩
    simp [Code.readFactor]

/-- The marks of signs. -/
theorem isMark_of_sign {c : Char} {s : Sign}
    (hc : Code.sumSign? c = some s ∨ Code.productSign? c = some s) : Token.isMark c = true := by
  rw [Token.isMark_iff]
  simp only [Code.sumSign?, Code.productSign?] at hc
  grind

/-- A sign of sums stands between no factors. -/
theorem productSign_of_sum {c : Char} {s : Sign} (hc : Code.sumSign? c = some s) :
    Code.productSign? c = none := by
  simp only [Code.sumSign?] at hc
  split at hc
  · next h => rw [h]; rfl
  · split at hc
    · next h => rw [h]; rfl
    · cases hc

/-- A phrase and a sign after it are the beginning of a sum. -/
theorem Phrase.readSigned {c : Char} {s : Sign} {text text' : List Char}
    {tokens tokens' rest : List Token} {code code' : Code}
    (hc : Code.sumSign? c = some s ∨ Code.productSign? c = some s)
    (h : Phrase text tokens code) (h' : Phrase text' tokens' code') (hrest : Stops rest)
    {bound : Nat} (hbound : 4 * (tokens.length + tokens'.length) + 4 ≤ bound) :
    Code.readSum bound (tokens ++ .mark c :: (tokens' ++ rest)) =
      some (.signed s code code', rest) := by
  have hpos := h.length_pos
  have hpos' := h'.length_pos
  obtain ⟨k, rfl⟩ : ∃ k, bound = k + 5 := ⟨bound - 5, by omega⟩
  rcases hc with hsum | hproduct
  · -- The sign ends the first product and goes on with the sum.
    have hfirst : Code.readProduct (k + 4) (tokens ++ .mark c :: (tokens' ++ rest)) =
        some (code, .mark c :: (tokens' ++ rest)) := by
      rw [readProduct_of (h.read (k + 3) _ (by omega)),
        readProductAfter_mark (productSign_of_sum hsum)]
    have hsecond : Code.readProduct (k + 3) (tokens' ++ rest) = some (code', rest) := by
      rw [readProduct_of (h'.read (k + 2) rest (by omega)), readProductAfter_stops hrest]
    rw [readSum_of hfirst, readSumAfter_sign hsum hsecond, readSumAfter_stops hrest]
  · -- The sign goes on with the first product.
    have hproducts : Code.readProduct (k + 4) (tokens ++ .mark c :: (tokens' ++ rest)) =
        some (.signed s code code', rest) := by
      rw [readProduct_of (h.read (k + 3) _ (by omega)),
        readProductAfter_sign hproduct (h'.read (k + 2) rest (by omega)),
        readProductAfter_stops hrest]
    rw [readSum_of hproducts, readSumAfter_stops hrest]

/-- **Two phrases around a sign, in parentheses, are a phrase.** -/
theorem phrase_sign {c : Char} {s : Sign} {text text' : List Char} {tokens tokens' : List Token}
    {code code' : Code} (hc : Code.sumSign? c = some s ∨ Code.productSign? c = some s)
    (h : Phrase text tokens code) (h' : Phrase text' tokens' code') :
    Phrase ('(' :: (text ++ ' ' :: c :: ' ' :: (text' ++ [')'])))
      (.mark '(' :: (tokens ++ .mark c :: (tokens' ++ [.mark ')']))) (.signed s code code') where
  opens := by
    rintro close rest (rfl | rfl) <;> simp [Code.expectMark]
  scan := by
    intro rest
    simp only [List.cons_append, List.append_assoc, List.nil_append]
    rw [Token.scan_mark (by decide), h.scan, Token.scan_blank, Token.scan_mark (isMark_of_sign hc),
      Token.scan_blank, h'.scan, Token.scan_mark (by decide)]
    simp [Option.map_map, Function.comp_def]
  read := by
    intro bound rest hbound
    simp only [List.length_cons, List.length_append, List.length_nil] at hbound
    obtain ⟨k, rfl⟩ : ∃ k, bound = k + 1 := ⟨bound - 1, by omega⟩
    have hends : Stops (.mark ')' :: rest) := stops_mark rfl rfl rest
    have hread := h.readSigned hc h' hends (show _ ≤ k by omega)
    simp only [List.cons_append, List.append_assoc, List.nil_append, Code.readFactor, hread,
      Option.bind_eq_bind, Option.bind_some, Code.expectMark, if_true]

/-- **The call of a primitive with phrases is a phrase.** -/
theorem phrase_call {f : String} {texts : List (List Char)} {tokens : List Token}
    {codes : List Code} (hname : Token.isNameText f.toList = true) (hf : f ≠ Code.nodeCallName)
    (h : Phrases texts tokens codes) :
    Phrase (Symbol.callText f texts) (.name f :: .mark '(' :: (tokens ++ [.mark ')']))
      (.call f codes) where
  opens := fun _ _ _ => rfl
  scan := by
    intro rest
    simp only [Symbol.callText, List.cons_append, List.append_assoc, List.nil_append]
    rw [Token.scan_name hname ⟨'(', _, rfl, by decide⟩, Token.scan_mark (by decide), h.scan,
      Token.scan_mark (by decide), String.ofList_toList]
    simp [Option.map_map, Function.comp_def]
  read := by
    intro bound rest hbound
    simp only [List.length_cons, List.length_append, List.length_nil] at hbound
    obtain ⟨k, rfl⟩ : ∃ k, bound = k + 1 := ⟨bound - 1, by omega⟩
    have hread := h.read (.inl rfl : (')' : Char) = ')' ∨ (')' : Char) = ']') rest k (by omega)
    simp only [List.cons_append, List.append_assoc, List.nil_append, Code.readFactor, hf, if_false,
      hread, Option.map_some]

/-- The names of primitives are names, and none of them is that of the call of a node. -/
theorem Primitive.isNameText_shortName (p : Primitive) :
    Token.isNameText p.shortName.toList = true ∧ p.shortName ≠ Code.nodeCallName := by
  cases p <;> decide

/-- **The call of a node with phrases is a phrase.** -/
theorem phrase_node (index : Nat) {texts : List (List Char)} {tokens : List Token}
    {codes : List Code} (h : Phrases texts tokens codes) :
    Phrase (nodeCallText index texts)
      (.name Code.nodeCallName :: .mark '(' :: .name Code.nodesName :: .mark '[' ::
        .whole index :: .mark ']' :: .mark ',' :: .mark '[' ::
          (tokens ++ [.mark ']', .mark ',', .name Code.variablesName, .mark ')']))
      (.node index codes) where
  opens := fun _ _ _ => rfl
  scan := by
    intro rest
    obtain ⟨hnumeral, htoken⟩ := Token.ofNumeral_toDigits index
    simp only [nodeCallText, List.cons_append, List.append_assoc, List.nil_append]
    rw [Token.scan_name (by decide) ⟨'(', _, rfl, by decide⟩, Token.scan_mark (by decide),
      Token.scan_name (by decide) ⟨'[', _, rfl, by decide⟩, Token.scan_mark (by decide),
      Token.scan_numeral hnumeral htoken (.inr (.inl rfl)), Token.scan_mark (by decide),
      Token.scan_mark (by decide), Token.scan_blank, Token.scan_mark (by decide), h.scan,
      Token.scan_mark (by decide), Token.scan_mark (by decide), Token.scan_blank,
      Token.scan_name (by decide) ⟨')', _, rfl, by decide⟩, Token.scan_mark (by decide)]
    simp only [Option.map_map, Function.comp_def, String.ofList_toList]
  read := by
    intro bound rest hbound
    simp only [List.length_cons, List.length_append, List.length_nil] at hbound
    obtain ⟨k, rfl⟩ : ∃ k, bound = k + 2 := ⟨bound - 2, by omega⟩
    have hread := h.read (.inr rfl : (']' : Char) = ')' ∨ (']' : Char) = ']')
      (.mark ',' :: .name Code.variablesName :: .mark ')' :: rest) k (by omega)
    simp only [List.cons_append, List.append_assoc, List.nil_append, Code.readFactor, if_true,
      Code.readNodeCall, hread, Option.bind_eq_bind, Option.bind_some, decide_true, Bool.and_self]

/-- **A numeral in parentheses is a phrase.** -/
theorem phrase_number {cs : List Char} {x : Float} (hcs : Token.isNumeral cs = true)
    (hx : Token.ofNumeral? cs = some (.number x)) :
    Phrase ('(' :: (cs ++ [')'])) [.mark '(', .number x, .mark ')'] (.number x) where
  opens := by
    rintro close rest (rfl | rfl) <;> simp [Code.expectMark]
  scan := by
    intro rest
    simp only [List.cons_append, List.append_assoc, List.nil_append]
    rw [Token.scan_mark (by decide), Token.scan_numeral hcs hx (.inl rfl),
      Token.scan_mark (by decide)]
    simp [Option.map_map, Function.comp_def]
  read := by
    intro bound rest hbound
    simp only [List.length_cons, List.length_nil] at hbound
    obtain ⟨k, rfl⟩ : ∃ k, bound = k + 4 := ⟨bound - 4, by omega⟩
    have hends : Stops (.mark ')' :: rest) := stops_mark rfl rfl rest
    simp only [List.cons_append, List.nil_append, Code.readFactor, Code.readSum, Code.readProduct,
      Option.bind_eq_bind, Option.bind_some, readProductAfter_stops hends,
      readSumAfter_stops hends, Code.expectMark, if_true]

/-- **A numeral with a minus sign, in parentheses, is a phrase.** -/
theorem phrase_negated {cs : List Char} {x : Float} (hcs : Token.isNumeral cs = true)
    (hx : Token.ofNumeral? cs = some (.number x)) :
    Phrase ('(' :: '-' :: (cs ++ [')'])) [.mark '(', .mark '-', .number x, .mark ')']
      (.negated (.number x)) where
  opens := by
    rintro close rest (rfl | rfl) <;> simp [Code.expectMark]
  scan := by
    intro rest
    simp only [List.cons_append, List.append_assoc, List.nil_append]
    rw [Token.scan_mark (by decide), Token.scan_mark (by decide),
      Token.scan_numeral hcs hx (.inl rfl), Token.scan_mark (by decide)]
    simp [Option.map_map, Function.comp_def]
  read := by
    intro bound rest hbound
    simp only [List.length_cons, List.length_nil] at hbound
    obtain ⟨k, rfl⟩ : ∃ k, bound = k + 5 := ⟨bound - 5, by omega⟩
    have hends : Stops (.mark ')' :: rest) := stops_mark rfl rfl rest
    simp only [List.cons_append, List.nil_append, Code.readFactor, Code.readSum, Code.readProduct,
      Option.map_some, Option.bind_eq_bind, Option.bind_some, readProductAfter_stops hends,
      readSumAfter_stops hends, Code.expectMark, if_true]

end FormulaEvolution
