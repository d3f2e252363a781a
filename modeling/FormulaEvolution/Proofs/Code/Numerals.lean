/-
# Numerals that numbers are written as

The shortest text of a finite double is, without its sign, a numeral: digits, then a point with
digits or an exponent or both (`exact_spells`).  Such a text is cut off as one token and it is no
whole number, so a compiled expression never takes a constant for an index.
-/
import FormulaEvolution.Proofs.Code.Phrase

namespace FormulaEvolution
namespace Number

/-! ## 1. Digits -/

/-- Decimal digits, and one of them at least. -/
def AreDigits (ds : List Char) : Prop := ds ≠ [] ∧ ∀ c ∈ ds, c.isDigit = true

theorem areDigits_toDigits (n : Nat) : AreDigits (Nat.toDigits 10 n) :=
  ⟨Nat.toDigits_ne_nil, fun _ hc => Nat.isDigit_of_mem_toDigits (by decide) (by decide) hc⟩

theorem AreDigits.of_subset {ds ds' : List Char} (h : AreDigits ds) (hne : ds' ≠ [])
    (hsub : ∀ c ∈ ds', c ∈ ds) : AreDigits ds' := ⟨hne, fun c hc => h.2 c (hsub c hc)⟩

/-- Dropping zeros drops zeros only, and not all digits. -/
theorem dropZeros_eq : ∀ {ds : List Char}, ds ≠ [] →
    dropZeros ds ≠ [] ∧ ∃ k, ds = List.replicate k '0' ++ dropZeros ds := by
  intro ds hds
  fun_induction dropZeros ds with
  | case1 d rest ih =>
    obtain ⟨hne, k, hk⟩ := ih (by simp)
    refine ⟨hne, k + 1, ?_⟩
    rw [List.replicate_succ, List.cons_append, ← hk]
  | case2 ds hnot => exact ⟨hds, 0, rfl⟩

/-- The digits of a scaled coefficient are those of the coefficient, without zeros at the end. -/
theorem ofScaled_digits (coefficient : Nat) (exponent : Int) :
    AreDigits (Decimal.ofScaled coefficient exponent).digits ∧
      ∃ k, Nat.toDigits 10 coefficient =
          (Decimal.ofScaled coefficient exponent).digits ++ List.replicate k '0' := by
  have hdigits := areDigits_toDigits coefficient
  have hreverse : (Nat.toDigits 10 coefficient).reverse ≠ [] := by simp
  obtain ⟨hne, k, hk⟩ := dropZeros_eq hreverse
  have hsplit : Nat.toDigits 10 coefficient =
      (dropZeros (Nat.toDigits 10 coefficient).reverse).reverse ++ List.replicate k '0' := by
    have := congrArg List.reverse hk
    rwa [List.reverse_reverse, List.reverse_append, List.reverse_replicate] at this
  refine ⟨?_, k, hsplit⟩
  refine hdigits.of_subset ?_ ?_
  · simpa [Decimal.ofScaled] using hne
  · intro c hc
    rw [hsplit]
    exact List.mem_append_left _ hc

theorem shortestFrom_eq (i : Interval) (q lead : Int) (tries count : Nat) :
    ∃ c e, shortestFrom i q lead tries count = Decimal.ofScaled c e := by
  induction tries generalizing count with
  | zero => exact ⟨_, _, rfl⟩
  | succ tries ih =>
    simp only [shortestFrom]
    split
    · exact ⟨_, _, rfl⟩
    · exact ih (count + 1)

/-- The shortest decimal has a digit. -/
theorem areDigits_shortest (m : Nat) (q : Int) : AreDigits (shortest m q).digits := by
  by_cases hm : m = 0
  · simp [shortest, hm, AreDigits, Char.isDigit]
  · obtain ⟨c, e, hce⟩ := shortestFrom_eq (.around m q) q
      (leadingPlace (m * (power 2 q).1) (power 2 q).2) 16 1
    have hshortest : shortest m q = Decimal.ofScaled c e := by
      simp only [shortest, hm, if_false]
      exact hce
    rw [hshortest]
    exact (ofScaled_digits c e).1

/-! ## 2. Layouts -/

/-- A numeral as text: its digits, a point if digits are behind it, and an exponent if it is to be
written. -/
def numeralText (n : Numeral) (scientific : Bool) : List Char :=
  n.whole ++ ((if n.fraction = [] then [] else '.' :: n.fraction) ++
    (if scientific then exponentText n.exponent else []))

/-- A numeral spells a decimal in its shortest layout: without a sign, with the digits of the
decimal among zeros, and with a point or an exponent.  It begins with the first of the digits, or
with a single zero before the point. -/
structure Spells (n : Numeral) (scientific : Bool) (d : Decimal) : Prop where
  unsigned : n.negative = false
  whole : AreDigits n.whole
  fraction : ∀ c ∈ n.fraction, c.isDigit = true
  written : scientific = false → n.exponent = 0
  pointed : scientific = true ∨ n.fraction ≠ []
  digits : ∃ i k, n.whole ++ n.fraction = List.replicate i '0' ++ d.digits ++ List.replicate k '0' ∧
    n.exponent - n.fraction.length = d.place - (d.digits.length - 1 : Nat) - k
  lead : n.whole = ['0'] ∨ n.whole.head? = d.digits.head?

theorem isDigit_of_zeros {k : Nat} : ∀ c ∈ List.replicate k '0', c.isDigit = true := by
  intro c hc
  rw [List.eq_of_mem_replicate hc]
  decide

section Layouts

variable {d : Decimal}

/-- One digit stands before the point, and there is an exponent. -/
theorem spells_scientific (h : AreDigits d.digits) : ∃ n, Spells n true d ∧
    pointed false d.digits 1 ++ exponentText d.place = numeralText n true := by
  obtain ⟨hne, hall⟩ := h
  obtain ⟨c, cs, hcs⟩ := List.exists_cons_of_ne_nil hne
  refine ⟨⟨false, [c], cs, d.place⟩, ⟨rfl, ⟨by simp, ?_⟩, ?_, by simp, .inl rfl, ⟨0, 0, ?_, ?_⟩, ?_⟩,
    ?_⟩
  · intro a ha
    rw [List.mem_singleton.mp ha]
    exact hall c (by rw [hcs]; exact List.mem_cons_self)
  · intro a ha
    exact hall a (by rw [hcs]; exact List.mem_cons_of_mem c ha)
  · simp [hcs]
  · simp [hcs]
  · simp [hcs]
  · simp only [numeralText, hcs, pointed, List.drop_succ_cons, List.drop_zero, if_true]
    cases cs <;> simp

/-- Zeros stand between the point and the digits. -/
theorem spells_fraction (h : AreDigits d.digits) (hplace : d.place < 0) : ∃ n, Spells n false d ∧
    '0' :: '.' :: (List.replicate (-d.place - 1).toNat '0' ++ d.digits) = numeralText n false := by
  obtain ⟨hne, hall⟩ := h
  have hpos : 0 < d.digits.length := List.length_pos_iff.mpr hne
  refine ⟨⟨false, ['0'], List.replicate (-d.place - 1).toNat '0' ++ d.digits, 0⟩,
    ⟨rfl, ⟨by simp, isDigit_of_zeros (k := 1)⟩, ?_, by simp, .inr (by simp [hne]),
      ⟨(-d.place - 1).toNat + 1, 0, ?_, ?_⟩, .inl rfl⟩, ?_⟩
  · intro c hc
    rcases List.mem_append.mp hc with hc | hc
    · exact isDigit_of_zeros c hc
    · exact hall c hc
  · simp [List.replicate_succ]
  · simp only [List.length_append, List.length_replicate]
    omega
  · simp [numeralText, hne]

/-- The point stands among the digits, or behind them and zeros. -/
theorem spells_pointed (h : AreDigits d.digits) (hplace : ¬ d.place < 0) : ∃ n, Spells n false d ∧
    pointed true d.digits (d.place.toNat + 1) = numeralText n false := by
  obtain ⟨hne, hall⟩ := h
  have hpos : 0 < d.digits.length := List.length_pos_iff.mpr hne
  simp only [pointed]
  cases hdrop : d.digits.drop (d.place.toNat + 1) with
  | nil =>
    have hlength : d.digits.length ≤ d.place.toNat + 1 := List.drop_eq_nil_iff.mp hdrop
    refine ⟨⟨false, d.digits ++ List.replicate (d.place.toNat + 1 - d.digits.length) '0', ['0'], 0⟩,
      ⟨rfl, ⟨by simp [hne], ?_⟩, isDigit_of_zeros (k := 1), by simp, .inr (by simp),
        ⟨0, d.place.toNat + 1 - d.digits.length + 1, ?_, ?_⟩, .inr ?_⟩, ?_⟩
    · intro c hc
      rcases List.mem_append.mp hc with hc | hc
      · exact hall c hc
      · exact isDigit_of_zeros c hc
    · simp [List.replicate_succ']
    · simp only [List.length_singleton]
      omega
    · rw [List.head?_append, List.head?_eq_some_head hne, Option.some_or]
    · simp [numeralText, List.take_of_length_le hlength]
  | cons c cs =>
    have hlength := congrArg List.length hdrop
    rw [List.length_drop, List.length_cons] at hlength
    have hfill : d.place.toNat + 1 - d.digits.length = 0 := by omega
    have hsplit : d.digits = d.digits.take (d.place.toNat + 1) ++ c :: cs := by
      rw [← hdrop, List.take_append_drop]
    refine ⟨⟨false, d.digits.take (d.place.toNat + 1), c :: cs, 0⟩,
      ⟨rfl, ⟨by simp [hne], ?_⟩, ?_, by simp, .inr (by simp), ⟨0, 0, ?_, ?_⟩, .inr ?_⟩, ?_⟩
    · intro a ha
      exact hall a (List.mem_of_mem_take ha)
    · intro a ha
      exact hall a (by rw [hsplit]; exact List.mem_append_right _ ha)
    · simpa using hsplit.symm
    · simp only [List.length_cons]
      omega
    · rw [List.head?_take, if_neg (Nat.succ_ne_zero _)]
    · simp [numeralText, hfill]

/-- **The shortest layout writes a numeral that spells the decimal.** -/
theorem exact_spells (h : AreDigits d.digits) :
    ∃ n scientific, Spells n scientific d ∧ Layout.exact.apply d = numeralText n scientific := by
  simp only [Layout.apply]
  split
  · obtain ⟨n, hn⟩ := spells_scientific h
    exact ⟨n, true, hn⟩
  · split
    · next hplace =>
      obtain ⟨n, hn⟩ := spells_fraction h hplace
      exact ⟨n, false, hn⟩
    · next hplace =>
      obtain ⟨n, hn⟩ := spells_pointed h hplace
      exact ⟨n, false, hn⟩

end Layouts

/-! ## 3. One token -/

/-- Digits belong to a numeral. -/
theorem spanNumber_digits {ds : List Char} (h : ∀ c ∈ ds, c.isDigit = true) (rest : List Char) :
    (Token.spanNumber false (ds ++ rest)).2 = (Token.spanNumber false rest).2 := by
  induction ds with
  | nil => rfl
  | cons c cs ih =>
    rw [List.cons_append, Token.spanNumber, if_pos (by simp [h c List.mem_cons_self])]
    exact ih fun d hd => h d (List.mem_cons_of_mem c hd)

/-- The digits of an exponent: two at least. -/
theorem exponentText_eq (e : Int) : ∃ sign ds, exponentText e = 'e' :: sign :: ds ∧
    sign = (if e < 0 then '-' else '+') ∧ AreDigits ds ∧ ofDigits ds = e.natAbs := by
  have hdigits := areDigits_toDigits e.natAbs
  have hvalue : ofDigits (Nat.toDigits 10 e.natAbs) = e.natAbs := Nat.ofDigitChars_ten_toDigits
  refine ⟨_, _, rfl, rfl, ?_⟩
  split
  · refine ⟨⟨by simp, ?_⟩, ?_⟩
    · rintro c (_ | ⟨_, hc⟩)
      · decide
      · exact hdigits.2 c hc
    · exact hvalue
  · exact ⟨hdigits, hvalue⟩

section Numerals

variable {n : Numeral} {scientific : Bool} {d : Decimal}

theorem spanNumber_exponent (e : Int) : (Token.spanNumber false (exponentText e)).2 = [] := by
  obtain ⟨sign, ds, hds, hsign, hdigits, -⟩ := exponentText_eq e
  have hmark : Token.spanNumber false ('e' :: sign :: ds) =
      ('e' :: (Token.spanNumber true (sign :: ds)).1, (Token.spanNumber true (sign :: ds)).2) := by
    rw [Token.spanNumber, if_neg (by decide), if_pos (by decide)]
  have hrest : (Token.spanNumber true (sign :: ds)).2 = (Token.spanNumber false ds).2 := by
    have hplus : sign = '+' ∨ sign = '-' := by
      rw [hsign]
      split <;> simp
    rw [Token.spanNumber, if_pos (by rcases hplus with h | h <;> simp [h])]
  rw [hds, hmark, hrest, ← List.append_nil ds, spanNumber_digits hdigits.2]
  rfl

/-- **A numeral is one token, and no whole number.** -/
theorem Spells.isNumeral (h : Spells n scientific d) :
    Token.isNumeral (numeralText n scientific) = true ∧
      (numeralText n scientific).all Char.isDigit = false := by
  constructor
  · obtain ⟨c, cs, hcs⟩ := List.exists_cons_of_ne_nil h.whole.1
    have hdigit := h.whole.2
    rw [hcs] at hdigit
    have hfraction : ∀ rest, (Token.spanNumber false rest).2 = [] →
        (Token.spanNumber false ((if n.fraction = [] then [] else '.' :: n.fraction) ++ rest)).2 =
          [] := by
      intro rest hrest
      split
      · exact hrest
      · rw [List.cons_append, Token.spanNumber, if_pos (by decide)]
        exact (spanNumber_digits h.fraction rest).trans hrest
    rw [numeralText, hcs, List.cons_append, Token.isNumeral, hdigit c List.mem_cons_self,
      spanNumber_digits fun a ha => hdigit a (List.mem_cons_of_mem c ha), hfraction]
    · rfl
    · split
      · exact spanNumber_exponent n.exponent
      · rfl
  · rcases h.pointed with hscientific | hfraction
    · simp [numeralText, hscientific, exponentText]
    · simp [numeralText, hfraction]

/-! ## 4. Reading -/

/-- The characters that numerals are made of. -/
def isNumeralChar (c : Char) : Bool := c.isDigit || ['.', 'e', '+', '-'].contains c

theorem isNumeralChar_of_digit {c : Char} (h : c.isDigit = true) : isNumeralChar c = true := by
  rw [isNumeralChar, h, Bool.true_or]

theorem isNumeralChar_exponentText (e : Int) : ∀ c ∈ exponentText e, isNumeralChar c = true := by
  obtain ⟨sign, ds, hds, rfl, hdigits, -⟩ := exponentText_eq e
  intro c hc
  rw [hds] at hc
  rcases List.mem_cons.mp hc with rfl | hc
  · decide
  · rcases List.mem_cons.mp hc with rfl | hc
    · split <;> decide
    · exact isNumeralChar_of_digit (hdigits.2 c hc)

theorem isNumeralChar_numeralText (h : Spells n scientific d) :
    ∀ c ∈ numeralText n scientific, isNumeralChar c = true := by
  intro c hc
  simp only [numeralText, List.mem_append] at hc
  rcases hc with hc | hc | hc
  · exact isNumeralChar_of_digit (h.whole.2 c hc)
  · split at hc
    · cases hc
    · rcases List.mem_cons.mp hc with rfl | hc
      · decide
      · exact isNumeralChar_of_digit (h.fraction c hc)
  · split at hc
    · exact isNumeralChar_exponentText n.exponent c hc
    · cases hc

theorem isNumeralChar_plain {c : Char} (h : isNumeralChar c = true) :
    Text.isBlank c = false ∧ c ≠ '_' := by
  simp only [isNumeralChar, Bool.or_eq_true, List.contains_iff_mem, List.mem_cons,
    List.not_mem_nil, or_false] at h
  rcases h with hdigit | rfl | rfl | rfl | rfl
  · exact Token.of_isDigit hdigit (by decide)
  · decide
  · decide
  · decide
  · decide

/-- A text without blanks is trimmed already. -/
theorem trim_eq {cs : List Char} (h : ∀ c ∈ cs, Text.isBlank c = false) : Text.trim cs = cs := by
  have hdrop : ∀ ds : List Char, (∀ c ∈ ds, Text.isBlank c = false) →
      ds.dropWhile Text.isBlank = ds := by
    intro ds hds
    cases ds with
    | nil => rfl
    | cons c ds => rw [List.dropWhile_cons_of_neg (by simp [hds c List.mem_cons_self])]
  rw [Text.trim, Text.trimBy, hdrop cs h, hdrop cs.reverse fun c hc => h c (List.mem_reverse.mp hc),
    List.reverse_reverse]

/-- A text without underscores keeps all its characters. -/
theorem dropUnderscores_eq {cs : List Char} (h : ∀ c ∈ cs, c ≠ '_') :
    ∀ previous, dropUnderscores? previous cs = some cs := by
  induction cs with
  | nil => intro previous; rfl
  | cons c cs ih =>
    intro previous
    have hc := h c List.mem_cons_self
    rw [dropUnderscores?, if_neg hc, ih fun a ha => h a (List.mem_cons_of_mem c ha)]
    · rfl
    · rintro d ds rfl
      exact absurd rfl hc

theorem readExponent_exponentText (e : Int) : readExponent? (exponentText e) = some e := by
  obtain ⟨sign, ds, hds, rfl, hdigits, hvalue⟩ := exponentText_eq e
  rw [hds, readExponent?, if_pos (by decide)]
  have hall : (decide (ds ≠ []) && ds.all Char.isDigit) = true := by
    simpa [AreDigits] using hdigits
  by_cases hnegative : e < 0
  · simp only [hnegative, if_true, readSign, hall, hvalue]
    congr 1
    omega
  · simp only [hnegative, if_false, readSign, hall, hvalue, if_true, Bool.false_eq_true]
    congr 1
    omega

/-- What follows the digits of a numeral is no digit. -/
theorem digits_end {ds rest : List Char} (hds : ∀ c ∈ ds, c.isDigit = true)
    (hrest : ∀ c, rest.head? = some c → c.isDigit = false) :
    (ds ++ rest).takeWhile Char.isDigit = ds ∧ (ds ++ rest).dropWhile Char.isDigit = rest := by
  rw [List.takeWhile_append_of_pos hds, List.dropWhile_append_of_pos hds]
  cases rest with
  | nil => simp
  | cons c cs => simp [hrest c rfl]

/-- **A numeral is read as it was written.** -/
theorem Spells.readMagnitude (h : Spells n scientific d) (negative : Bool) :
    readMagnitude? negative (numeralText n scientific) = some { n with negative } := by
  have hexponent : readExponent? (if scientific then exponentText n.exponent else []) =
      some n.exponent := by
    cases scientific with
    | true => exact readExponent_exponentText n.exponent
    | false => exact congrArg some (h.written rfl).symm
  have hlast : ∀ c, (if scientific then exponentText n.exponent else []).head? = some c →
      c.isDigit = false ∧ c ≠ '.' := by
    intro c hc
    cases scientific with
    | true =>
      cases hc
      decide
    | false => cases hc
  have hpoint : ∀ c, ((if n.fraction = [] then [] else '.' :: n.fraction) ++
      (if scientific then exponentText n.exponent else [])).head? = some c → c.isDigit = false := by
    intro c hc
    split at hc
    · exact (hlast c hc).1
    · cases hc
      decide
  obtain ⟨htake, hdrop⟩ := digits_end h.whole.2 hpoint
  have hwhole : (n.whole = []) = False := eq_false h.whole.1
  rw [readMagnitude?, numeralText, htake, hdrop]
  by_cases hfraction : n.fraction = []
  · have hrest : ∀ rest, (if scientific then exponentText n.exponent else []) ≠ '.' :: rest := by
      intro rest hrest
      exact (hlast '.' (by rw [hrest]; rfl)).2 rfl
    simp [hfraction, hwhole, hexponent]
  · obtain ⟨htake', hdrop'⟩ := digits_end h.fraction fun c hc => (hlast c hc).1
    simp only [hfraction, if_false, List.cons_append, htake', hdrop', hwhole, hexponent]
    rfl

/-- The number of a numeral is read out of it, and the negative one behind a minus sign. -/
theorem Spells.ofText (h : Spells n scientific d) :
    ofText? (String.ofList (numeralText n scientific)) = some n.toFloat ∧
      ofText? (String.ofList ('-' :: numeralText n scientific)) = some (-n.toFloat) := by
  obtain ⟨c, cs, hcs⟩ : ∃ c cs, numeralText n scientific = c :: cs :=
    List.exists_cons_of_ne_nil (by simp [numeralText, h.whole.1])
  have hdigit : c.isDigit = true := by
    have := h.isNumeral.1
    rw [hcs, Token.isNumeral, Bool.and_eq_true] at this
    exact this.1
  have hplain := fun a ha => isNumeralChar_plain (isNumeralChar_numeralText h a ha)
  have hword : readWord? (String.ofList ((numeralText n scientific).map Char.toLower)) = none := by
    have hne : ∀ word : String, word.toList.head? = some 'i' ∨ word.toList.head? = some 'n' →
        String.ofList ((numeralText n scientific).map Char.toLower) ≠ word := by
      rintro word hword rfl
      rw [String.toList_ofList, hcs] at hword
      have hnot : c.toLower ≠ 'i' ∧ c.toLower ≠ 'n' := Token.of_isDigit hdigit (by decide)
      simp [hnot] at hword
    simp [readWord?, hne "inf" (by decide), hne "infinity" (by decide), hne "nan" (by decide)]
  have hsign : readSign (numeralText n scientific) = (false, numeralText n scientific) := by
    obtain ⟨hminus, hplus⟩ : c ≠ '-' ∧ c ≠ '+' := Token.of_isDigit hdigit (by decide)
    simp [hcs, readSign, hminus, hplus]
  constructor
  · rw [ofText?, String.toList_ofList, trim_eq fun a ha => (hplain a ha).1,
      dropUnderscores_eq fun a ha => (hplain a ha).2]
    simp only [Option.bind_eq_bind, Option.bind_some, hsign, hword, h.readMagnitude,
      Option.map_some, Numeral.toFloat, h.unsigned]
  · have hplain' : ∀ a ∈ '-' :: numeralText n scientific, Text.isBlank a = false ∧ a ≠ '_' := by
      rintro a (_ | ⟨_, ha⟩)
      · decide
      · exact hplain a ha
    rw [ofText?, String.toList_ofList, trim_eq fun a ha => (hplain' a ha).1,
      dropUnderscores_eq fun a ha => (hplain' a ha).2]
    simp only [Option.bind_eq_bind, Option.bind_some, readSign, hword, h.readMagnitude,
      Option.map_some, Numeral.toFloat, h.unsigned]
    rfl

end Numerals

end Number
end FormulaEvolution
