/-
# Words, numbers and strings read back

A leaf of a document is read back as the value that was written, whatever ends it (`takeWord_word`,
`takeLeaf_int`, `takeLeaf_float`, `takeString_quoteText`).

* A whole number is written without leading zeros and so is the shortest text of a double: the
  digits that are chosen for a double begin with a zero only when it is one of the two zeros.
* A double that is not finite is written by a word.  There is one absent number only, so nothing
  about it is lost; the sign of a zero is written.
* A character beyond the first plane is written by two code units and read back from both.
-/
import FormulaEvolution.Json.Reader
import FormulaEvolution.Json.Writer
import FormulaEvolution.Proofs.Code.Constants
import FormulaEvolution.Proofs.Text.Quoting

namespace FormulaEvolution
namespace Json

/-! ## 1. Strings -/

section Strings

variable {start fuel : Nat}

/-- A code unit is read back; more text has to follow it. -/
theorem takeUnit_hex {n : Nat} (hn : n < 0x10000) {rest : List Char} (hrest : rest ≠ []) :
    takeUnit? (Text.Quoted.hex 4 n ++ rest) = some (n, rest) := by
  obtain ⟨c, cs, rfl⟩ := List.exists_cons_of_ne_nil hrest
  have hread : Text.Quoted.hexNumber? (Text.Quoted.hex 4 n) = some n :=
    Text.Quoted.hexNumber_hex (by simpa using hn)
  simp only [Text.Quoted.hex, List.nil_append, List.cons_append] at hread ⊢
  rw [takeUnit?, hread, Option.map_some]

/-- Put a character in front of what has been read. -/
def readBefore (c : Char) (read : Except Stop (List Char × List Char)) :
    Except Stop (List Char × List Char) :=
  read.map fun (text, rest) => (c :: text, rest)

/-- One code unit is a character unless a second one has to follow it. -/
theorem takeString_unit {n : Nat} (hn : n < 0x10000) (hsingle : isHighUnit n = false)
    {rest : List Char} (hrest : rest ≠ []) :
    takeString start (fuel + 1) (unitEscape n ++ rest) =
      readBefore (Char.ofNat n) (takeString start fuel rest) := by
  rw [unitEscape, List.cons_append, List.cons_append, takeString, takeUnit_hex hn hrest]
  simp only [hsingle]
  rfl

/-- Two code units are one character. -/
theorem takeString_pair {high low : Nat} (hhigh : isHighUnit high = true)
    (hlow : isLowUnit low = true) {rest : List Char} (hrest : rest ≠ []) :
    takeString start (fuel + 1) (unitEscape high ++ (unitEscape low ++ rest)) =
      readBefore (joinUnits high low) (takeString start fuel rest) := by
  have hhigh' : high < 0x10000 := by
    simp [isHighUnit] at hhigh
    omega
  have hlow' : low < 0x10000 := by
    simp [isLowUnit] at hlow
    omega
  rw [unitEscape, List.cons_append, List.cons_append, takeString,
    takeUnit_hex hhigh' (by simp [unitEscape])]
  simp only [hhigh, if_true]
  rw [unitEscape, List.cons_append, List.cons_append]
  simp only [takeUnit_hex hlow' hrest, hlow, if_true]
  rfl

/-- A character with a letter of its own is read back. -/
theorem takeString_letter {letter c : Char} (hu : letter ≠ 'u') (h : escaped? letter = some c)
    (rest : List Char) :
    takeString start (fuel + 1) ('\\' :: letter :: rest) =
      readBefore c (takeString start fuel rest) := by
  rw [takeString]
  · simp only [h]
    rfl
  · exact hu

/-- A character that is not escaped stands for itself. -/
theorem takeString_plain {c : Char} (hquote : c ≠ '"') (hescape : c ≠ '\\')
    (hcontrol : 0x20 ≤ c.toNat) (rest : List Char) :
    takeString start (fuel + 1) (c :: rest) = readBefore c (takeString start fuel rest) := by
  rw [takeString]
  · rw [if_neg (by omega)]
    rfl
  · exact hquote
  · intro h _
    exact hescape h
  · intro cs h _
    exact hescape h
  · intro d cs h _
    exact hescape h

/-- The code units of a character beyond the first plane. -/
theorem joinUnits_split {c : Char} (hwide : 0x10000 ≤ c.toNat) :
    isHighUnit (0xD800 + (c.toNat - 0x10000) / 0x400) = true ∧
      isLowUnit (0xDC00 + (c.toNat - 0x10000) % 0x400) = true ∧
      joinUnits (0xD800 + (c.toNat - 0x10000) / 0x400) (0xDC00 + (c.toNat - 0x10000) % 0x400) =
        c := by
  have hvalid : c.toNat < 0xD800 ∨ 0xDFFF < c.toNat ∧ c.toNat < 0x110000 := c.valid
  refine ⟨by simp [isHighUnit]; omega, by simp [isLowUnit]; omega, ?_⟩
  have hcode : 0x10000 + (0xD800 + (c.toNat - 0x10000) / 0x400 - 0xD800) * 0x400 +
      (0xDC00 + (c.toNat - 0x10000) % 0x400 - 0xDC00) = c.toNat := by omega
  rw [joinUnits, hcode]
  exact Char.ofNat_toNat c

/-- No character has the code of a unit that a second one follows. -/
theorem isHighUnit_toNat (c : Char) : isHighUnit c.toNat = false := by
  have hvalid : c.toNat < 0xD800 ∨ 0xDFFF < c.toNat ∧ c.toNat < 0x110000 := c.valid
  simp only [isHighUnit, Bool.and_eq_false_iff, decide_eq_false_iff_not]
  omega

/-- **A character is read back**, escaped or not. -/
theorem takeString_escape (c : Char) {rest : List Char} (hrest : rest ≠ []) :
    takeString start (fuel + 1) (escape c ++ rest) = readBefore c (takeString start fuel rest) := by
  simp only [escape]
  split_ifs with hself hline hreturn htab hback hfeed hprintable hnarrow
  · have hc : c = '"' ∨ c = '\\' := by simpa using hself
    rcases hc with rfl | rfl
    · exact takeString_letter (by decide) rfl rest
    · exact takeString_letter (by decide) rfl rest
  · subst hline
    exact takeString_letter (by decide) rfl rest
  · subst hreturn
    exact takeString_letter (by decide) rfl rest
  · subst htab
    exact takeString_letter (by decide) rfl rest
  · obtain rfl : c = '\x08' := Char.ext (UInt32.toNat_inj.mp hback)
    exact takeString_letter (by decide) rfl rest
  · obtain rfl : c = '\x0c' := Char.ext (UInt32.toNat_inj.mp hfeed)
    exact takeString_letter (by decide) rfl rest
  · simp only [Bool.or_eq_true, decide_eq_true_eq, not_or] at hself
    simp only [Bool.and_eq_true, decide_eq_true_eq] at hprintable
    exact takeString_plain hself.1 hself.2 hprintable.1 rest
  · rw [takeString_unit hnarrow (isHighUnit_toNat c) hrest, Char.ofNat_toNat]
  · obtain ⟨hhigh, hlow, hjoin⟩ := joinUnits_split (Nat.le_of_not_lt hnarrow)
    rw [List.append_assoc, takeString_pair hhigh hlow hrest, hjoin]

/-- **The characters between two quotes are read back**, whatever follows. -/
theorem takeString_body (cs rest : List Char) (hfuel : cs.length < fuel) :
    takeString start fuel (cs.flatMap escape ++ '"' :: rest) = .ok (cs, rest) := by
  induction cs generalizing fuel with
  | nil =>
    obtain ⟨fuel, rfl⟩ := Nat.exists_eq_succ_of_ne_zero hfuel.ne'
    rfl
  | cons c cs ih =>
    obtain ⟨fuel, rfl⟩ := Nat.exists_eq_succ_of_ne_zero (Nat.ne_zero_of_lt hfuel)
    rw [List.flatMap_cons, List.append_assoc, takeString_escape c (by simp),
      ih (Nat.lt_of_succ_lt_succ hfuel)]
    rfl

/-- A character takes some room. -/
theorem length_le_flatMap_escape (cs : List Char) : cs.length ≤ (cs.flatMap escape).length := by
  induction cs with
  | nil => exact Nat.le_refl _
  | cons c cs ih =>
    have hone : 0 < (escape c).length := by
      simp only [escape]
      split_ifs <;> simp [unitEscape]
    rw [List.flatMap_cons, List.length_append, List.length_cons]
    omega

/-- A string is read back from the text behind its opening quote. -/
theorem takeString_quoteText (s : String) (rest : List Char) :
    ∃ body, quoteText s ++ rest = '"' :: body ∧
      takeString ('"' :: body).length ('"' :: body).length body = .ok (s.toList, rest) := by
  refine ⟨s.toList.flatMap escape ++ '"' :: rest, by simp [quoteText], ?_⟩
  refine takeString_body s.toList rest ?_
  have := length_le_flatMap_escape s.toList
  rw [List.length_cons, List.length_append]
  omega

end Strings

/-! ## 2. Digits in front -/

/-- What may follow a value: the end of the document, or what separates or closes items. -/
def Ended (rest : List Char) : Prop := ∀ c, rest.head? = some c → c = ',' ∨ c = '\n'

/-- What ends a value belongs to no number. -/
theorem Ended.head {rest : List Char} (h : Ended rest) {c : Char} (hc : rest.head? = some c) :
    c.isDigit = false ∧ c ≠ '.' ∧ c ≠ 'e' ∧ c ≠ 'E' := by
  rcases h c hc with rfl | rfl
  · decide
  · decide

/-- The digits of a whole part: a single zero, or no zero in front. -/
def Leads (ds : List Char) : Prop := ds = ['0'] ∨ ds.head? ≠ some '0'

/-- A whole part is cut off where its digits end. -/
theorem wholePart_append {ds rest : List Char} (hds : Number.AreDigits ds) (hlead : Leads ds)
    (hrest : ∀ c, rest.head? = some c → c.isDigit = false) : wholePart (ds ++ rest) = ds := by
  rcases hlead with rfl | hzero
  · rfl
  · obtain ⟨c, cs, rfl⟩ := List.exists_cons_of_ne_nil hds.1
    have hc : c ≠ '0' := fun h => hzero (by rw [h]; rfl)
    rw [wholePart]
    · exact (Number.digits_end hds.2 hrest).1
    · rintro tail ⟨⟩
      exact hc rfl

/-- The digits of a number have no leading zero. -/
theorem head_toDigits {n : Nat} (hn : 0 < n) : (Nat.toDigits 10 n).head? ≠ some '0' := by
  intro hhead
  obtain ⟨ds, hds⟩ : ∃ ds, Nat.toDigits 10 n = '0' :: ds := List.head?_eq_some_iff.mp hhead
  have hdigits := (Number.areDigits_toDigits n).2
  rw [hds] at hdigits
  have hlt := Number.ofDigits_lt fun c hc => hdigits c (List.mem_cons_of_mem '0' hc)
  have hvalue : Number.ofDigits ds = n := by
    have : Number.ofDigits ('0' :: ds) = n := by
      rw [← hds]
      exact Nat.ofDigitChars_ten_toDigits
    exact this
  have hcount : Number.digitCount n = ds.length + 1 := by
    rw [Number.digitCount, hds, List.length_cons]
  have hlow := (Number.digitCount_bounds hn).2.1
  rw [hcount, Nat.add_sub_cancel] at hlow
  omega

theorem leads_toDigits (n : Nat) : Leads (Nat.toDigits 10 n) := by
  rcases Nat.eq_zero_or_pos n with rfl | hn
  · exact .inl rfl
  · exact .inr (head_toDigits hn)

/-! ## 3. Numbers -/

section Numbers

/-- A sign in front of the text of a number. -/
def withSign (negative : Bool) (text : List Char) : List Char :=
  if negative then '-' :: text else text

/-- Digits are not taken for a sign. -/
theorem takeMinus_withSign (negative : Bool) {ds : List Char} (hds : Number.AreDigits ds)
    (rest : List Char) : takeMinus (withSign negative (ds ++ rest)) = (negative, ds ++ rest) := by
  cases negative with
  | true => rfl
  | false =>
    obtain ⟨c, cs, rfl⟩ := List.exists_cons_of_ne_nil hds.1
    have hc : c ≠ '-' := Token.of_isDigit (hds.2 c List.mem_cons_self) (by decide)
    exact takeMinus.eq_2 _ fun tail h => hc (List.cons.inj h).1

/-- How a number is read once its sign and its whole part are split off. -/
theorem takeNumber_eq (negative : Bool) {ds rest : List Char} (hds : Number.AreDigits ds)
    (hlead : Leads ds) (hrest : ∀ c, rest.head? = some c → c.isDigit = false) :
    takeNumber? (withSign negative (ds ++ rest)) =
      if (takeFraction rest).1 = [] && (takeExponent (takeFraction rest).2).1.isNone then
        some (.int (if negative then -(Number.ofDigits ds : Int) else Number.ofDigits ds),
          (takeExponent (takeFraction rest).2).2)
      else
        some (.float (Number.Numeral.toFloat ⟨negative, ds, (takeFraction rest).1,
          (takeExponent (takeFraction rest).2).1.getD 0⟩), (takeExponent (takeFraction rest).2).2) := by
  rw [takeNumber?, takeMinus_withSign negative hds]
  simp only [wholePart_append hds hlead hrest, if_neg hds.1, List.drop_left]

theorem takeFraction_none {rest : List Char} (h : ∀ c, rest.head? = some c → c ≠ '.') :
    takeFraction rest = ([], rest) := by
  rw [takeFraction]
  rintro tail rfl
  exact h '.' rfl rfl

theorem takeFraction_digits {ds rest : List Char} (hds : Number.AreDigits ds)
    (hrest : ∀ c, rest.head? = some c → c.isDigit = false) :
    takeFraction ('.' :: (ds ++ rest)) = (ds, rest) := by
  obtain ⟨htake, hdrop⟩ := Number.digits_end hds.2 hrest
  simp only [takeFraction, htake, hdrop, if_neg hds.1]

theorem takeExponent_none {rest : List Char}
    (h : ∀ c, rest.head? = some c → c ≠ 'e' ∧ c ≠ 'E') : takeExponent rest = (none, rest) := by
  cases rest with
  | nil => rfl
  | cons c cs =>
    obtain ⟨hlower, hupper⟩ := h c rfl
    rw [takeExponent, if_neg (by simp [hlower, hupper])]

theorem takeExponent_text (e : Int) {rest : List Char}
    (hrest : ∀ c, rest.head? = some c → c.isDigit = false) :
    takeExponent (Number.exponentText e ++ rest) = (some e, rest) := by
  obtain ⟨sign, ds, htext, hsign, hds, hvalue⟩ := Number.exponentText_eq e
  obtain ⟨htake, hdrop⟩ := Number.digits_end hds.2 hrest
  have hread : Number.readSign (sign :: (ds ++ rest)) = (decide (e < 0), ds ++ rest) := by
    by_cases hnegative : e < 0
    · simp [hsign, hnegative, Number.readSign]
    · simp [hsign, hnegative, Number.readSign]
  rw [htext, List.cons_append, List.cons_append, takeExponent, if_pos (by decide)]
  simp only [hread, htake, hdrop, if_neg hds.1, hvalue, decide_eq_true_eq]
  congr 2
  split <;> omega

/-- A whole number as text. -/
theorem toString_int (n : Int) :
    (toString n).toList = withSign (decide (n < 0)) (Nat.toDigits 10 n.natAbs) := by
  have htext : toString n = n.repr := rfl
  rw [htext, Int.repr_eq_if, withSign]
  by_cases hnegative : n < 0
  · have hvalue : (-n).toNat = n.natAbs := by omega
    rw [if_neg (by omega), if_pos (decide_eq_true hnegative), String.toList_append,
      Nat.toList_repr, hvalue]
    rfl
  · have hvalue : n.toNat = n.natAbs := by omega
    rw [if_pos (by omega), if_neg (by simpa using hnegative), Nat.toList_repr, hvalue]

theorem withSign_append (negative : Bool) (text rest : List Char) :
    withSign negative text ++ rest = withSign negative (text ++ rest) := by
  cases negative <;> rfl

/-- **A whole number is read back.** -/
theorem takeNumber_int (n : Int) {rest : List Char} (hrest : Ended rest) :
    takeNumber? ((toString n).toList ++ rest) = some (.int n, rest) := by
  have hfraction : takeFraction rest = ([], rest) :=
    takeFraction_none fun c hc => (hrest.head hc).2.1
  have hexponent : takeExponent rest = (none, rest) :=
    takeExponent_none fun c hc => (hrest.head hc).2.2
  have hvalue : Number.ofDigits (Nat.toDigits 10 n.natAbs) = n.natAbs :=
    Nat.ofDigitChars_ten_toDigits
  rw [toString_int, withSign_append, takeNumber_eq _ (Number.areDigits_toDigits _)
    (leads_toDigits _) fun c hc => (hrest.head hc).1]
  simp only [hfraction, hexponent, hvalue, decide_eq_true_eq]
  refine congrArg some (Prod.ext (congrArg Json.int ?_) rfl)
  split <;> omega

/-- **A numeral with a point or an exponent is read back** as the double nearest to it. -/
theorem takeNumber_numeral {n : Number.Numeral} {scientific : Bool} {d : Number.Decimal}
    (h : Number.Spells n scientific d) (hlead : Leads n.whole) (negative : Bool)
    {rest : List Char} (hrest : Ended rest) :
    takeNumber? (withSign negative (Number.numeralText n scientific) ++ rest) =
      some (.float (Number.Numeral.toFloat { n with negative }), rest) := by
  -- The exponent, written or not, is read back up to the end of the value.
  obtain ⟨tail, htail⟩ : ∃ tail, tail =
    (if scientific then Number.exponentText n.exponent else []) ++ rest := ⟨_, rfl⟩
  have hhead : ∀ c, tail.head? = some c → c.isDigit = false ∧ c ≠ '.' := by
    intro c hc
    rw [htail] at hc
    cases scientific with
    | true =>
      cases hc
      decide
    | false => exact ⟨(hrest.head hc).1, (hrest.head hc).2.1⟩
  have hexponent : takeExponent tail = (if scientific then some n.exponent else none, rest) := by
    rw [htail]
    cases scientific with
    | true => exact takeExponent_text n.exponent fun c hc => (hrest.head hc).1
    | false => exact takeExponent_none fun c hc => (hrest.head hc).2.2
  -- The fraction, written or not, is read back up to the exponent.
  obtain ⟨behind, hbehind⟩ : ∃ behind, behind =
    (if n.fraction = [] then [] else '.' :: n.fraction) ++ tail := ⟨_, rfl⟩
  have hpoint : (∀ c, behind.head? = some c → c.isDigit = false) ∧
      takeFraction behind = (n.fraction, tail) := by
    rw [hbehind]
    split
    · next hnone =>
      rw [hnone]
      exact ⟨fun c hc => (hhead c hc).1, takeFraction_none fun c hc => (hhead c hc).2⟩
    · next hsome =>
      refine ⟨?_, takeFraction_digits ⟨hsome, h.fraction⟩ fun c hc => (hhead c hc).1⟩
      rintro c ⟨⟩
      decide
  have htext : Number.numeralText n scientific ++ rest = n.whole ++ behind := by
    simp only [Number.numeralText, hbehind, htail, List.append_assoc]
  have hnumber : ¬ (n.fraction = [] && (if scientific then some n.exponent else none).isNone) := by
    rcases h.pointed with hscientific | hfraction
    · simp [hscientific]
    · simp [hfraction]
  have hwritten : (if scientific then some n.exponent else none).getD 0 = n.exponent := by
    cases scientific with
    | true => rfl
    | false => exact (h.written rfl).symm
  rw [withSign_append, htext, takeNumber_eq negative h.whole hlead hpoint.1]
  simp only [hpoint.2, hexponent, if_neg hnumber, hwritten]

end Numbers

/-! ## 4. Doubles -/

/-- The negative of a numeral stands for the negative number. -/
theorem toFloat_withSign {n : Number.Numeral} (h : n.negative = false) (negative : Bool) :
    Number.Numeral.toFloat { n with negative } = if negative then -n.toFloat else n.toFloat := by
  cases negative <;> simp [Number.Numeral.toFloat, h]

/-- The shortest digits of a number that is not zero begin with none. -/
theorem head_shortest {m : Nat} {q : Int} (hc : Number.Canonical m q) (hq : q ≤ 971) :
    (Number.shortest m q).digits.head? ≠ some '0' := by
  obtain ⟨c, e, hshortest, hcontains⟩ := Number.shortest_contains hc
  obtain ⟨⟨hne, -⟩, k, hdigits⟩ := Number.ofScaled_digits c e
  have hpos : 0 < c := by
    refine Nat.pos_of_ne_zero fun hzero => ?_
    obtain ⟨hrange, -⟩ := Number.contains_range hc hq hcontains
    have hmin : (0 : ℚ) < 2 ^ (-1075 : Int) := by positivity
    rw [hzero, Nat.cast_zero, zero_mul] at hrange
    linarith
  have hhead := head_toDigits hpos
  rw [hdigits, List.head?_append, List.head?_eq_some_head hne, Option.some_or] at hhead
  rwa [hshortest, List.head?_eq_some_head hne]

/-- Zero is written with one zero on either side of the point. -/
theorem exact_zero : ∃ n, Number.Spells n false ⟨['0'], 0⟩ ∧ Leads n.whole ∧
    Number.Layout.exact.apply ⟨['0'], 0⟩ = Number.numeralText n false :=
  ⟨⟨false, ['0'], ['0'], 0⟩, ⟨rfl, by simp [Number.AreDigits, Char.isDigit],
    Number.isDigit_of_zeros (k := 1), fun _ => rfl, .inr (by simp), ⟨0, 1, rfl, rfl⟩, .inl rfl⟩,
    .inl rfl, rfl⟩

/-- **A finite number is written as a numeral without leading zeros.** -/
theorem exactText_leads {x : Float} {negative : Bool} {m : Nat} {q : Int}
    (hx : Number.decode x = .finite negative m q) : ∃ n scientific d,
    Number.Spells n scientific d ∧ Leads n.whole ∧
      Number.exactText x = Number.signed negative (Number.numeralText n scientific) ∧
      x = if negative then -n.toFloat else n.toFloat := by
  rcases Nat.eq_zero_or_pos m with rfl | hm
  · obtain ⟨n, hspells, hlead, htext⟩ := exact_zero
    refine ⟨n, false, _, hspells, hlead, ?_, hspells.magnitude (q := q) hx⟩
    rw [← htext]
    simp only [Number.exactText, Number.textBy, hx]
    rfl
  · obtain ⟨hc, hq, -⟩ := Number.decode_eq_pack hx hm
    obtain ⟨n, scientific, hspells, htext, hvalue⟩ := Number.exactText_finite hx
    refine ⟨n, scientific, _, hspells, ?_, htext, hvalue⟩
    rcases hspells.lead with hzero | hhead
    · exact .inl hzero
    · exact .inr (by rw [hhead]; exact head_shortest hc hq)

/-! ## 5. Words -/

/-- A word is read back as its value: no word begins another one. -/
theorem takeWord_word {word : List Char} {value : Json} (h : (word, value) ∈ words)
    (rest : List Char) : takeWord? (word ++ rest) = some (value, rest) := by
  simp only [words, List.mem_cons, List.not_mem_nil, or_false, Prod.mk.injEq] at h
  obtain ⟨rfl, rfl⟩ | ⟨rfl, rfl⟩ | ⟨rfl, rfl⟩ | ⟨rfl, rfl⟩ | ⟨rfl, rfl⟩ | ⟨rfl, rfl⟩ := h
  all_goals rfl

/-- A number is no word. -/
theorem takeWord_number (negative : Bool) {ds : List Char} (hds : Number.AreDigits ds)
    (rest : List Char) : takeWord? (withSign negative (ds ++ rest)) = none := by
  obtain ⟨c, cs, rfl⟩ := List.exists_cons_of_ne_nil hds.1
  have hc : c ≠ 'n' ∧ c ≠ 't' ∧ c ≠ 'f' ∧ c ≠ 'N' ∧ c ≠ 'I' ∧ c ≠ '-' :=
    Token.of_isDigit (hds.2 c List.mem_cons_self) (by decide)
  obtain ⟨hn, ht, hf, hN, hI, hminus⟩ := hc
  cases negative with
  | true => simp [takeWord?, words, withSign, hI.symm]
  | false => simp [takeWord?, words, withSign, hn.symm, ht.symm, hf.symm, hN.symm, hI.symm, hminus.symm]

/-- A whole number is read back, and not as a word. -/
theorem takeLeaf_int (n : Int) {rest : List Char} (hrest : Ended rest) :
    (takeWord? ((toString n).toList ++ rest)).or (takeNumber? ((toString n).toList ++ rest)) =
      some (.int n, rest) := by
  rw [takeNumber_int n hrest, toString_int, withSign_append,
    takeWord_number _ (Number.areDigits_toDigits _)]
  rfl

/-- **A double is read back**, the absent number, the infinities and the zeros included. -/
theorem takeLeaf_float (x : Float) {rest : List Char} (hrest : Ended rest) :
    (takeWord? ((floatText x).toList ++ rest)).or (takeNumber? ((floatText x).toList ++ rest)) =
      some (.float x, rest) := by
  match hx : Number.decode x with
  | .nan =>
    have htext : floatText x = "NaN" := by simp only [floatText, hx]
    have hword : ("NaN".toList, Json.float Number.notANumber) ∈ words := by simp [words]
    rw [htext, takeWord_word hword,
      Number.eq_notANumber hx, Option.some_or]
  | .infinite true =>
    have htext : floatText x = "-Infinity" := by simp only [floatText, hx, if_true]
    have hword : ("-Infinity".toList, Json.float (-Number.infinity)) ∈ words := by simp [words]
    rw [htext, takeWord_word hword,
      Number.eq_infinity hx, if_pos rfl, Option.some_or]
  | .infinite false =>
    have htext : floatText x = "Infinity" := by simp [floatText, hx]
    have hword : ("Infinity".toList, Json.float Number.infinity) ∈ words := by simp [words]
    rw [htext, takeWord_word hword,
      Number.eq_infinity hx, if_neg (by decide), Option.some_or]
  | .finite negative m q =>
    obtain ⟨n, scientific, d, hspells, hlead, htext, hvalue⟩ := exactText_leads hx
    have hlist : (floatText x).toList = withSign negative (Number.numeralText n scientific) := by
      simp only [floatText, hx, htext, Number.signed, String.toList_ofList]
      rfl
    rw [hlist, takeNumber_numeral hspells hlead negative hrest, Number.numeralText,
      withSign_append, List.append_assoc, takeWord_number negative hspells.whole,
      toFloat_withSign hspells.unsigned, ← hvalue]
    rfl

end Json
end FormulaEvolution
