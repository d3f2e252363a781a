/-
# Trees told apart by their texts

Trees of a grammar for regression have one text exactly if they are alike: of one shape, with one symbol at
every position, and with constants whose six digits are the same (`text_determines`).

A text begins with a word, the digits of a constant or the name of a symbol, and no word has a bracket or a
comma in it.  So texts that agree agree in their first words, and then in what comes behind
(`word_inj`); going on through the arguments, the trees are alike (`alike_of_chars`).  Names begin with
letters and digits do not, which tells constants from all else; the grammar tells the rest apart, since its names
are distinct and only one of its symbols is one of constants.

The texts are what the structures of a population are counted by, so its count is that of the classes of
trees that are alike.
-/
import FormulaEvolution.Population
import FormulaEvolution.Proofs.Code.Numerals
import FormulaEvolution.Proofs.Symbol.Regression
import FormulaEvolution.Proofs.Tree.Document
import Mathlib.Data.Set.Card

namespace FormulaEvolution

/-! ## 1. Words -/

namespace Text

/-- The characters that divide words. -/
def isDivider (c : Char) : Bool := ['(', ')', ','].contains c

/-- A letter: one of the alphabet, or anything beyond the first 128 characters. -/
def isLetter (c : Char) : Bool := c.isAlpha || 128 ≤ c.toNat

/-- Letters, digits and underscores, a letter first, but not what a number is written as. -/
structure IsName (name : String) : Prop where
  begins : name.toList.head?.any isLetter = true
  made : name.toList.all (fun c => isLetter c || c.isDigit || c = '_') = true
  notInfinity : name ≠ "inf"
  notNumber : name ≠ "nan"

/-- Characters without a divider. -/
def IsWord (cs : List Char) : Prop := ∀ c ∈ cs, isDivider c = false

theorem isWord_iff {cs : List Char} : IsWord cs ↔ cs.all (!isDivider ·) = true := by
  simp [IsWord]

instance (cs : List Char) : Decidable (IsWord cs) := decidable_of_iff _ isWord_iff.symm

/-- What follows a word: nothing, or a divider first. -/
def Follows (cs : List Char) : Prop := ∀ c, cs.head? = some c → isDivider c = true

theorem isDivider_cases {c : Char} (h : isDivider c = true) : c = '(' ∨ c = ')' ∨ c = ',' := by
  simpa [isDivider] using h

/-- A name is a word. -/
theorem IsName.isWord {name : String} (h : IsName name) : IsWord name.toList := by
  intro c hc
  have hmade := List.all_eq_true.mp h.made c hc
  cases hdivider : isDivider c with
  | false => rfl
  | true => rcases isDivider_cases hdivider with rfl | rfl | rfl <;> exact absurd hmade (by decide)

/-- **A word ends where a divider follows.** -/
theorem word_inj : ∀ {cs ds rest rest' : List Char}, IsWord cs → IsWord ds → Follows rest → Follows rest' →
    cs ++ rest = ds ++ rest' → cs = ds ∧ rest = rest'
  | [], [], _, _, _, _, _, _, h => ⟨rfl, h⟩
  | [], d :: ds, rest, rest', _, hds, hrest, _, h => by
    have hdivider := hrest d (by rw [← List.nil_append rest, h]; rfl)
    simp [hds d List.mem_cons_self] at hdivider
  | c :: cs, [], rest, rest', hcs, _, _, hrest', h => by
    have hdivider := hrest' c (by rw [← List.nil_append rest', ← h]; rfl)
    simp [hcs c List.mem_cons_self] at hdivider
  | c :: cs, d :: ds, rest, rest', hcs, hds, hrest, hrest', h => by
    rw [List.cons_append, List.cons_append, List.cons.injEq] at h
    obtain ⟨rfl, h⟩ := h
    obtain ⟨rfl, hsame⟩ := word_inj (fun a ha => hcs a (List.mem_cons_of_mem c ha))
      (fun a ha => hds a (List.mem_cons_of_mem c ha)) hrest hrest' h
    exact ⟨rfl, hsame⟩

end Text

/-! ## 2. The words of numbers -/

namespace Number

open Text (isDivider isLetter IsWord IsName)

/-- Digits with a point, with at least one before it: a digit comes first. -/
theorem pointed_chars {ds : List Char} (h : AreDigits ds) (keepPoint : Bool) (whole : Nat) :
    (∀ c ∈ pointed keepPoint ds (whole + 1), isNumeralChar c = true) ∧
      ∃ c cs, pointed keepPoint ds (whole + 1) = c :: cs ∧ c.isDigit = true := by
  obtain ⟨hne, hall⟩ := h
  obtain ⟨c, cs, rfl⟩ := List.exists_cons_of_ne_nil hne
  have hfront : ∀ a ∈ (c :: cs).take (whole + 1) ++ List.replicate (whole + 1 - (c :: cs).length) '0',
      isNumeralChar a = true := by
    intro a ha
    rcases List.mem_append.mp ha with ha | ha
    · exact isNumeralChar_of_digit (hall a (List.mem_of_mem_take ha))
    · exact isNumeralChar_of_digit (isDigit_of_zeros a ha)
  have hback : ∀ a ∈ (c :: cs).drop (whole + 1), isNumeralChar a = true := fun a ha =>
    isNumeralChar_of_digit (hall a (List.mem_of_mem_drop ha))
  simp only [pointed]
  split
  · split
    · refine ⟨fun a ha => ?_, c, _, rfl, hall c List.mem_cons_self⟩
      rcases List.mem_append.mp ha with ha | ha
      · exact hfront a ha
      · rcases List.mem_pair.mp ha with rfl | rfl <;> decide
    · exact ⟨hfront, c, _, rfl, hall c List.mem_cons_self⟩
  · refine ⟨fun a ha => ?_, c, _, rfl, hall c List.mem_cons_self⟩
    rcases List.mem_append.mp ha with ha | ha
    · exact hfront a ha
    · rcases List.mem_cons.mp ha with rfl | ha
      · decide
      · exact hback a ha

/-- **Any layout of digits begins with a digit.** -/
theorem apply_chars (l : Layout) {d : Decimal} (h : AreDigits d.digits) :
    (∀ c ∈ l.apply d, isNumeralChar c = true) ∧ ∃ c cs, l.apply d = c :: cs ∧ c.isDigit = true := by
  unfold Layout.apply
  split
  · obtain ⟨hall, c, cs, heq, hc⟩ := pointed_chars h false 0
    refine ⟨fun a ha => ?_, c, cs ++ exponentText d.place, by rw [heq, List.cons_append], hc⟩
    rcases List.mem_append.mp ha with ha | ha
    · exact hall a ha
    · exact isNumeralChar_exponentText d.place a ha
  · split
    · refine ⟨fun a ha => ?_, '0', _, rfl, rfl⟩
      rcases List.mem_cons.mp ha with rfl | ha
      · rfl
      · rcases List.mem_cons.mp ha with rfl | ha
        · rfl
        · rcases List.mem_append.mp ha with ha | ha
          · exact isNumeralChar_of_digit (isDigit_of_zeros a ha)
          · exact isNumeralChar_of_digit (h.2 a ha)
    · exact pointed_chars h l.keepPoint d.place.toNat

/-- A rounded number has a digit. -/
theorem areDigits_rounded (count m : Nat) (q : Int) : AreDigits (rounded count m q).digits := by
  unfold rounded
  split
  · simp [AreDigits, Char.isDigit]
  · exact (ofScaled_digits _ _).1

theorem isDivider_of_numeral {c : Char} (h : isNumeralChar c = true) : isDivider c = false := by
  cases hdivider : isDivider c with
  | false => rfl
  | true => rcases Text.isDivider_cases hdivider with rfl | rfl | rfl <;> exact absurd h (by decide)

/-- **A number is written as a word**, one of two or one that begins with a digit or a minus sign. -/
theorem significantText_word (n : Nat) (x : Float) : IsWord (significantText n x).toList ∧
    (significantText n x = "nan" ∨ significantText n x = "inf" ∨
      ∃ c cs, (significantText n x).toList = c :: cs ∧ (c.isDigit = true ∨ c = '-')) := by
  unfold significantText textBy
  split
  · exact ⟨by decide, .inl rfl⟩
  · next negative _ =>
    cases negative with
    | true => exact ⟨by decide, .inr (.inr ⟨'-', ['i', 'n', 'f'], by decide, .inr rfl⟩)⟩
    | false => exact ⟨by decide, .inr (.inl rfl)⟩
  · next negative m q _ =>
    obtain ⟨hall, c, cs, heq, hc⟩ := apply_chars (.significant n) (areDigits_rounded n m q)
    have hword : IsWord ((Layout.significant n).apply (rounded n m q)) := fun a ha =>
      isDivider_of_numeral (hall a ha)
    cases negative with
    | true =>
      rw [signed, if_pos rfl, String.toList_ofList]
      refine ⟨fun a ha => ?_, .inr (.inr ⟨'-', _, rfl, .inr rfl⟩)⟩
      rcases List.mem_cons.mp ha with rfl | ha
      · rfl
      · exact hword a ha
    | false =>
      rw [signed, if_neg Bool.false_ne_true, String.toList_ofList]
      exact ⟨hword, .inr (.inr ⟨c, cs, heq, .inl hc⟩)⟩

theorem isLetter_of_digit {c : Char} (h : c.isDigit = true) : isLetter c = false :=
  Token.of_isDigit h (by decide)

/-- **No number is written as a name.** -/
theorem significantText_ne_name {n : Nat} {x : Float} {name : String} (h : IsName name) :
    significantText n x ≠ name := by
  rintro rfl
  rcases (significantText_word n x).2 with hnan | hinf | ⟨c, cs, hcs, hc⟩
  · exact h.notNumber hnan
  · exact h.notInfinity hinf
  · have hbegins := h.begins
    rw [hcs] at hbegins
    have hletter : isLetter c = true := hbegins
    rcases hc with hdigit | rfl
    · rw [isLetter_of_digit hdigit] at hletter
      cases hletter
    · exact absurd hletter (by decide)

end Number

/-! ## 3. Trees that are alike -/

namespace Tree

mutual

/-- Trees of one shape, with one symbol at every position and with constants that are written the same. -/
inductive Alike : Tree → Tree → Prop
  | constant (s : Symbol) {x y : Float} (h : Number.briefText x = Number.briefText y) :
    Alike (.constant s x) (.constant s y)
  | variable (s : Symbol) : Alike (.variable s) (.variable s)
  | node (s : Symbol) {cs ds : List Tree} (h : AlikeAll cs ds) : Alike (.node s cs) (.node s ds)

/-- As many trees, and those at one place are alike. -/
inductive AlikeAll : List Tree → List Tree → Prop
  | nil : AlikeAll [] []
  | cons {c d : Tree} {cs ds : List Tree} (h : Alike c d) (hs : AlikeAll cs ds) :
    AlikeAll (c :: cs) (d :: ds)

end

mutual

theorem Alike.refl : ∀ t : Tree, Alike t t
  | .constant s _ => .constant s rfl
  | .variable s => .variable s
  | .node s cs => .node s (AlikeAll.refl cs)

theorem AlikeAll.refl : ∀ cs : List Tree, AlikeAll cs cs
  | [] => .nil
  | c :: cs => .cons (Alike.refl c) (AlikeAll.refl cs)

end

mutual

theorem Alike.symm : ∀ {t u : Tree}, Alike t u → Alike u t
  | _, _, .constant s h => .constant s h.symm
  | _, _, .variable s => .variable s
  | _, _, .node s h => .node s h.symm

theorem AlikeAll.symm : ∀ {cs ds : List Tree}, AlikeAll cs ds → AlikeAll ds cs
  | _, _, .nil => .nil
  | _, _, .cons h hs => .cons h.symm hs.symm

end

mutual

theorem Alike.trans : ∀ {t u v : Tree}, Alike t u → Alike u v → Alike t v
  | _, _, _, .constant s h, .constant _ h' => .constant s (h.trans h')
  | _, _, _, .variable s, .variable _ => .variable s
  | _, _, _, .node s h, .node _ h' => .node s (h.trans h')

theorem AlikeAll.trans : ∀ {cs ds es : List Tree}, AlikeAll cs ds → AlikeAll ds es → AlikeAll cs es
  | _, _, _, .nil, .nil => .nil
  | _, _, _, .cons h hs, .cons h' hs' => .cons (h.trans h') (hs.trans hs')

end

/-- Trees up to what is alike. -/
def alike : Setoid Tree := ⟨Alike, Alike.refl, Alike.symm, Alike.trans⟩

mutual

/-- Trees that are alike have one text. -/
theorem Alike.chars_eq : ∀ {t u : Tree}, Alike t u → t.chars = u.chars
  | _, _, .constant s h => by rw [chars, chars, h]
  | _, _, .variable s => rfl
  | _, _, .node s h => by rw [chars, chars, h.charsAll_eq.1]

theorem AlikeAll.charsAll_eq : ∀ {cs ds : List Tree}, AlikeAll cs ds →
    charsAll cs = charsAll ds ∧ charsRest cs = charsRest ds
  | _, _, .nil => ⟨rfl, rfl⟩
  | _, _, .cons h hs => by
    rw [charsAll, charsAll, charsRest, charsRest, h.chars_eq, hs.charsAll_eq.2]
    exact ⟨rfl, rfl⟩

end

/-! ## 4. Reading a text -/

/-- The word that the text of a tree begins with. -/
def word : Tree → List Char
  | .constant _ x => (Number.briefText x).toList
  | .variable s => s.name.toList
  | .node s _ => s.name.toList

/-- What comes behind the word: the children in brackets. -/
def arguments : Tree → List Char
  | .node _ cs => '(' :: (charsAll cs ++ [')'])
  | _ => []

theorem chars_eq (t : Tree) : t.chars = t.word ++ t.arguments := by
  cases t <;> simp [chars, word, arguments]

end Tree

/-- A grammar whose trees can be told by their texts: it has names throughout, and one symbol of constants at
most. -/
structure Grammar.Readable (g : Grammar) : Prop where
  names : ∀ s ∈ g.symbols, Text.IsName s.name
  constants : ∀ s ∈ g.symbols, ∀ s' ∈ g.symbols, s.isConstant = true → s'.isConstant = true → s = s'

/-- Symbols of one grammar with one name are the same. -/
theorem Grammar.eq_of_name {g : Grammar} {s s' : Symbol} (h : s ∈ g.symbols) (h' : s' ∈ g.symbols)
    (hname : s.name = s'.name) : s = s' := by
  have hfound := symbol?_of_mem h
  rw [hname, symbol?_of_mem h'] at hfound
  exact (Option.some.inj hfound).symm

namespace Tree

section Reading

open Text (IsWord Follows word_inj)

variable {g : Grammar} {t u : Tree} {cs ds : List Tree} {rest rest' : List Char}

/-- The word of a tree of a readable grammar is one, and begins with a letter, a digit or a minus sign. -/
theorem word_isWord (hg : g.Readable) (ht : t.Legible g) : IsWord t.word ∧
    ∃ c cs, t.word = c :: cs ∧ (Text.isLetter c || c.isDigit || c = '-') = true := by
  have hname : ∀ {name : String}, Text.IsName name → IsWord name.toList ∧
      ∃ c cs, name.toList = c :: cs ∧ (Text.isLetter c || c.isDigit || c = '-') = true := by
    intro name h
    obtain ⟨c, hc, hletter⟩ := Option.any_eq_true _ _ |>.mp h.begins
    obtain ⟨cs, hcs⟩ := List.head?_eq_some_iff.mp hc
    exact ⟨h.isWord, c, cs, hcs, by simp [hletter]⟩
  match t, ht with
  | .constant s x, _ =>
    obtain ⟨hword, hcases⟩ := Number.significantText_word 6 x
    refine ⟨hword, ?_⟩
    rcases hcases with h | h | ⟨c, cs, hcs, hc⟩
    · exact ⟨'n', ['a', 'n'], congrArg String.toList h, by decide⟩
    · exact ⟨'i', ['n', 'f'], congrArg String.toList h, by decide⟩
    · exact ⟨c, cs, hcs, by rcases hc with hdigit | rfl <;> simp [*]⟩
  | .variable s, ht => exact hname (hg.names s ht.known)
  | .node s cs, ht => exact hname (hg.names s ht.known)

theorem follows_divider {c : Char} (hc : Text.isDivider c = true) (cs : List Char) : Follows (c :: cs) := by
  rintro _ ⟨⟩
  exact hc

/-- No tree's text begins with a divider. -/
theorem chars_ne_divider (hg : g.Readable) (ht : t.Legible g) {c : Char} (hc : Text.isDivider c = true) :
    c :: rest ≠ t.chars ++ rest' := by
  intro h
  obtain ⟨hword, a, as, has, -⟩ := word_isWord hg ht
  rw [chars_eq, has, List.cons_append, List.cons_append, List.cons.injEq] at h
  have ha := hword a (by rw [has]; exact List.mem_cons_self)
  rw [← h.1, hc] at ha
  cases ha

theorem follows_charsRest (cs : List Tree) (rest : List Char) : Follows (charsRest cs ++ ')' :: rest) := by
  cases cs with
  | nil => exact follows_divider rfl _
  | cons c cs => exact follows_divider rfl _

/-- Roots with one word have one symbol, and are of one sort. -/
theorem root_of_word (hg : g.Readable) (ht : t.Legible g) (hu : u.Legible g) (h : t.word = u.word) :
    t.symbol = u.symbol ∧ t.kind? = u.kind? := by
  have hsorts : t.symbol = u.symbol → t.symbol = u.symbol ∧ t.kind? = u.kind? := fun hsymbol =>
    ⟨hsymbol, by rw [← (sorted_iff t).mp ht.sorted, ← (sorted_iff u).mp hu.sorted, hsymbol]⟩
  have hapart : ∀ {x : Float} {s : Symbol}, s ∈ g.symbols → (Number.briefText x).toList ≠ s.name.toList :=
    fun hs heq => Number.significantText_ne_name (hg.names _ hs) (String.toList_inj.mp heq)
  match t, u with
  | .constant s x, .constant s' y => exact hsorts (hg.constants s ht.known s' hu.known ht.sorted hu.sorted)
  | .constant s x, .variable s' => exact absurd h (hapart hu.known)
  | .constant s x, .node s' ds => exact absurd h (hapart hu.known)
  | .variable s, .constant s' y => exact absurd h.symm (hapart ht.known)
  | .node s cs, .constant s' y => exact absurd h.symm (hapart ht.known)
  | .variable s, .variable s' => exact hsorts (Grammar.eq_of_name ht.known hu.known (String.toList_inj.mp h))
  | .variable s, .node s' ds => exact hsorts (Grammar.eq_of_name ht.known hu.known (String.toList_inj.mp h))
  | .node s cs, .variable s' => exact hsorts (Grammar.eq_of_name ht.known hu.known (String.toList_inj.mp h))
  | .node s cs, .node s' ds => exact hsorts (Grammar.eq_of_name ht.known hu.known (String.toList_inj.mp h))

/-- **Texts that agree have one word first**, and so one symbol at the root, and agree in what comes behind. -/
theorem root_of_chars (hg : g.Readable) (ht : t.Legible g) (hu : u.Legible g) (hrest : Follows rest)
    (hrest' : Follows rest') (h : t.chars ++ rest = u.chars ++ rest') : t.word = u.word ∧
      (t.symbol = u.symbol ∧ t.kind? = u.kind?) ∧ t.arguments ++ rest = u.arguments ++ rest' := by
  have hfollows : ∀ (v : Tree) {cs}, Follows cs → Follows (v.arguments ++ cs)
    | .constant .., _, hcs => hcs
    | .variable _, _, hcs => hcs
    | .node .., _, _ => follows_divider rfl _
  rw [chars_eq, chars_eq, List.append_assoc, List.append_assoc] at h
  obtain ⟨hword, hbehind⟩ := word_inj (word_isWord hg ht).1 (word_isWord hg hu).1 (hfollows t hrest)
    (hfollows u hrest') h
  exact ⟨hword, root_of_word hg ht hu hword, hbehind⟩

theorem follows_nil : Follows [] := by
  rintro c ⟨⟩

theorem root_mem_preorder (t : Tree) : t ∈ t.preorder := by
  cases t <;> simp [preorder]

/-- Where lists of children agree, they agree as well with a comma before each of them. -/
theorem charsRest_of_charsAll (hg : g.Readable) (hcs : ∀ v ∈ preorderAll cs, v.Legible g)
    (hds : ∀ v ∈ preorderAll ds, v.Legible g)
    (h : charsAll cs ++ ')' :: rest = charsAll ds ++ ')' :: rest') :
    charsRest cs ++ ')' :: rest = charsRest ds ++ ')' :: rest' := by
  match cs, ds with
  | [], [] => exact h
  | c :: cs, d :: ds => exact congrArg (',' :: ' ' :: ·) h
  | [], d :: ds =>
    rw [charsAll, charsAll, List.append_assoc] at h
    exact absurd h (chars_ne_divider hg (hds d (List.mem_append_left _ (root_mem_preorder d))) rfl)
  | c :: cs, [] =>
    rw [charsAll, charsAll, List.append_assoc] at h
    exact absurd h.symm (chars_ne_divider hg (hcs c (List.mem_append_left _ (root_mem_preorder c))) rfl)

mutual

/-- **Texts that agree are those of trees that are alike**, and agree in what follows. -/
theorem alike_of_chars (hg : g.Readable) : ∀ {t u : Tree}, (∀ v ∈ t.preorder, v.Legible g) →
    (∀ v ∈ u.preorder, v.Legible g) → ∀ {rest rest' : List Char}, Follows rest → Follows rest' →
      t.chars ++ rest = u.chars ++ rest' → Alike t u ∧ rest = rest'
  | .constant s x, u, ht, hu, rest, rest', hrest, hrest', h => by
    obtain ⟨hword, ⟨hsymbol, hkind⟩, hbehind⟩ :=
      root_of_chars hg (ht _ (root_mem_preorder _)) (hu u (root_mem_preorder u)) hrest hrest' h
    cases u with
    | constant s' y =>
      cases hsymbol
      exact ⟨.constant s (String.toList_inj.mp hword), hbehind⟩
    | «variable» s' => cases hkind
    | node s' ds => cases hkind
  | .variable s, u, ht, hu, rest, rest', hrest, hrest', h => by
    obtain ⟨-, ⟨hsymbol, hkind⟩, hbehind⟩ :=
      root_of_chars hg (ht _ (root_mem_preorder _)) (hu u (root_mem_preorder u)) hrest hrest' h
    cases u with
    | constant s' y => cases hkind
    | «variable» s' =>
      cases hsymbol
      exact ⟨.variable s, hbehind⟩
    | node s' ds => cases hkind
  | .node s cs, u, ht, hu, rest, rest', hrest, hrest', h => by
    obtain ⟨-, ⟨hsymbol, hkind⟩, hbehind⟩ :=
      root_of_chars hg (ht _ (root_mem_preorder _)) (hu u (root_mem_preorder u)) hrest hrest' h
    cases u with
    | constant s' y => cases hkind
    | «variable» s' => cases hkind
    | node s' ds =>
      cases hsymbol
      have hcs : ∀ v ∈ preorderAll cs, v.Legible g := fun v hv => ht v (List.mem_cons_of_mem _ hv)
      have hds : ∀ v ∈ preorderAll ds, v.Legible g := fun v hv => hu v (List.mem_cons_of_mem _ hv)
      have hchildren : charsAll cs ++ ')' :: rest = charsAll ds ++ ')' :: rest' := by
        simpa [arguments] using hbehind
      obtain ⟨halike, hsame⟩ := alikeAll_of_chars hg hcs hds (charsRest_of_charsAll hg hcs hds hchildren)
      exact ⟨.node s halike, hsame⟩

theorem alikeAll_of_chars (hg : g.Readable) : ∀ {cs ds : List Tree},
    (∀ v ∈ preorderAll cs, v.Legible g) → (∀ v ∈ preorderAll ds, v.Legible g) →
      ∀ {rest rest' : List Char}, charsRest cs ++ ')' :: rest = charsRest ds ++ ')' :: rest' →
        AlikeAll cs ds ∧ rest = rest'
  | [], [], _, _, rest, rest', h => ⟨.nil, (List.cons.inj h).2⟩
  | [], d :: ds, _, _, rest, rest', h => absurd (List.cons.inj h).1 (by decide)
  | c :: cs, [], _, _, rest, rest', h => absurd (List.cons.inj h).1 (by decide)
  | c :: cs, d :: ds, hcs, hds, rest, rest', h => by
    have hrest : c.chars ++ (charsRest cs ++ ')' :: rest) = d.chars ++ (charsRest ds ++ ')' :: rest') := by
      simpa [charsRest] using h
    obtain ⟨halike, hrest⟩ := alike_of_chars hg (fun v hv => hcs v (List.mem_append_left _ hv))
      (fun v hv => hds v (List.mem_append_left _ hv)) (follows_charsRest cs rest)
      (follows_charsRest ds rest') hrest
    obtain ⟨halikes, hsame⟩ := alikeAll_of_chars hg (fun v hv => hcs v (List.mem_append_right _ hv))
      (fun v hv => hds v (List.mem_append_right _ hv)) hrest
    exact ⟨.cons halike halikes, hsame⟩

end

/-- **Trees of a readable grammar have one text exactly if they are alike.** -/
theorem text_eq_iff (hg : g.Readable) (ht : ∀ v ∈ t.preorder, v.Legible g)
    (hu : ∀ v ∈ u.preorder, v.Legible g) : t.text = u.text ↔ Alike t u := by
  constructor
  · intro h
    have hchars : t.chars ++ [] = u.chars ++ [] := congrArg (· ++ []) (String.ofList_inj.mp h)
    exact (alike_of_chars hg ht hu follows_nil follows_nil hchars).1
  · intro h
    exact congrArg String.ofList h.chars_eq

/-- No tree is written like one that is empty. -/
theorem text_ne_empty (hg : g.Readable) (ht : t.Legible g) : t.text ≠ treeText none := by
  intro h
  obtain ⟨-, c, cs, hcs, hbegins⟩ := word_isWord hg ht
  have hchars : t.chars = '<' :: ['e', 'm', 'p', 't', 'y', '>'] := String.ofList_inj.mp h
  rw [chars_eq, hcs, List.cons_append, List.cons.injEq] at hchars
  rw [hchars.1] at hbegins
  exact absurd hbegins (by decide)

end Reading

end Tree

/-! ## 5. Counting structures -/

theorem nodup_eraseDups {α : Type} [DecidableEq α] (xs : List α) : xs.eraseDups.Nodup := by
  match xs with
  | [] => simp
  | x :: xs =>
    rw [List.eraseDups_cons, List.nodup_cons]
    exact ⟨by simp, nodup_eraseDups _⟩
termination_by xs.length
decreasing_by exact Nat.lt_succ_of_le (List.length_filter_le _ xs)

/-- Without repetitions a list has as many members as there are different ones. -/
theorem length_eraseDups {α : Type} [DecidableEq α] (xs : List α) :
    xs.eraseDups.length = {x | x ∈ xs}.ncard := by
  have hset : {x | x ∈ xs} = (xs.eraseDups.toFinset : Set α) := by
    ext x
    simp
  rw [hset, Set.ncard_coe_finset, List.toFinset_card_of_nodup (nodup_eraseDups xs)]

namespace Population

/-- The classes of the trees of a population that are alike; empty ones are in one class. -/
def classes (p : Population) : Set (Option (Quotient Tree.alike)) :=
  {c | ∃ i ∈ p, i.tree.map (Quotient.mk Tree.alike) = c}

/-- The text of a class. -/
def classText : Option (Quotient Tree.alike) → String
  | none => treeText none
  | some c => c.lift Tree.text fun _ _ (h : Tree.Alike _ _) => congrArg String.ofList h.chars_eq

theorem treeText_eq (t : Option Tree) : treeText t = classText (t.map (Quotient.mk Tree.alike)) := by
  cases t <;> rfl

variable {g : Grammar} {p : Population}

/-- No two classes of trees of a readable grammar have one text. -/
theorem classText_injOn (hg : g.Readable) (hp : ∀ i ∈ p, ∀ t ∈ i.tree, ∀ v ∈ t.preorder, v.Legible g) :
    Set.InjOn classText (classes p) := by
  rintro _ ⟨i, hi, rfl⟩ _ ⟨j, hj, rfl⟩ h
  rw [← treeText_eq, ← treeText_eq] at h
  match hti : i.tree, htj : j.tree with
  | none, none => rfl
  | none, some u =>
    rw [hti, htj] at h
    exact absurd h.symm (Tree.text_ne_empty hg (hp j hj u htj u (Tree.root_mem_preorder u)))
  | some t, none =>
    rw [hti, htj] at h
    exact absurd h (Tree.text_ne_empty hg (hp i hi t hti t (Tree.root_mem_preorder t)))
  | some t, some u =>
    rw [hti, htj] at h
    exact congrArg some (Quotient.sound ((Tree.text_eq_iff hg (hp i hi t hti) (hp j hj u htj)).mp h))

/-- **The count of structures is the number of classes.** -/
theorem distinct_eq_classes (hg : g.Readable) (hp : ∀ i ∈ p, ∀ t ∈ i.tree, ∀ v ∈ t.preorder, v.Legible g)
    (hmany : 2 ≤ p.length) : (diversity p).distinct = (classes p).ncard := by
  have htexts : {s | s ∈ p.map fun i => treeText i.tree} = classText '' classes p := by
    ext s
    simp only [Set.mem_ofPred_eq, List.mem_map, Set.mem_image, classes, treeText_eq]
    constructor
    · rintro ⟨i, hi, rfl⟩
      exact ⟨_, ⟨i, hi, rfl⟩, rfl⟩
    · rintro ⟨_, ⟨i, hi, rfl⟩, rfl⟩
      exact ⟨i, hi, rfl⟩
  rw [diversity, if_neg (by omega), length_eraseDups, htexts,
    (classText_injOn hg hp).ncard_image]

end Population

/-! ## 6. Grammars for regression -/

section Regression

variable {columns : List String} {functions : List Entry} {allowConstants : Bool} {g : Grammar}

/-- A grammar for regression has one symbol of constants at most, since functions take children. -/
theorem readable_of_regression
    (hg : Grammar.forRegression columns functions allowConstants = .ok g)
    (hfunctions : ∀ e ∈ functions, e.symbol.isTerminal = false ∧ Text.IsName e.symbol.name)
    (hcolumns : ∀ name ∈ columns, Text.IsName name) : g.Readable := by
  have hentries := Grammar.entries_of_regression hg
  have hconstant : ∀ s ∈ g.symbols, s.isConstant = true →
      s = .forConstant Symbol.constantName defaultRange := by
    intro s hs hconstant
    have hkind : s.kind = some .constant := by simpa [Symbol.isConstant] using hconstant
    rcases Grammar.symbol_of_regression hentries hs with hs | ⟨name, -, rfl⟩ | rfl
    · obtain ⟨e, he, rfl⟩ := List.mem_map.mp hs
      have hterminal := Symbol.isTerminal_of_kind (s := e.symbol) (by rw [hkind]; rfl)
      rw [(hfunctions e he).1] at hterminal
      cases hterminal
    · cases hkind
    · rfl
  refine ⟨fun s hs => ?_, fun s hs s' hs' h h' => (hconstant s hs h).trans (hconstant s' hs' h').symm⟩
  rcases Grammar.symbol_of_regression hentries hs with hs | ⟨name, hname, rfl⟩ | rfl
  · obtain ⟨e, he, rfl⟩ := List.mem_map.mp hs
    exact (hfunctions e he).2
  · exact hcolumns name hname
  · exact ⟨by decide, by decide, by decide, by decide⟩

/-- **Texts tell the trees of a grammar for regression apart.**  Where functions take children and all names are of
letters, digits and underscores, two trees have one text exactly if they are alike, and the structures
that a population of two candidates or more has are the classes of its trees that are alike. -/
theorem text_determines (hg : Grammar.forRegression columns functions allowConstants = .ok g)
    (hfunctions : ∀ e ∈ functions, e.symbol.isTerminal = false ∧ Text.IsName e.symbol.name)
    (hcolumns : ∀ name ∈ columns, Text.IsName name) :
    (∀ t u : Tree, (∀ v ∈ t.preorder, v.Legible g) → (∀ v ∈ u.preorder, v.Legible g) →
      (t.text = u.text ↔ t.Alike u)) ∧
    ∀ p : Population, 2 ≤ p.length → (∀ i ∈ p, ∀ t ∈ i.tree, ∀ v ∈ t.preorder, v.Legible g) →
      (Population.diversity p).distinct = (Population.classes p).ncard :=
  have hreadable := readable_of_regression hg hfunctions hcolumns
  ⟨fun _ _ ht hu => Tree.text_eq_iff hreadable ht hu,
    fun _ hmany hp => Population.distinct_eq_classes hreadable hp hmany⟩

end Regression

/-- A function of any count of children. -/
def meanEntry : Entry := { symbol := .ofPrimitive "Mean" .mean "Mean of the children" }

/-- The mean of a constant and an input. -/
def meanWith (value : Float) : Tree :=
  .node meanEntry.symbol [.constant (.forConstant Symbol.constantName defaultRange) value,
    .variable (.forVariable "x")]

/-- Two means are alike whose constants have the same six digits, and there are two structures among them and an
input. -/
theorem text_determines_means :
    (meanWith 0.1).Alike (meanWith 0.1000000001) ∧
      (Population.classes [⟨some (meanWith 0.1), none⟩, ⟨some (meanWith 0.1000000001), none⟩,
        ⟨some (.variable (.forVariable "x")), none⟩]).ncard = 2 := by
  obtain ⟨g, hg, hentries⟩ := @Grammar.forRegression_ok ["x"] [meanEntry]
    true (by simp) (by simp) (by simp) (by decide) (by decide)
  obtain ⟨htexts, hcount⟩ := text_determines hg
    (by rintro e (_ | ⟨_, ⟨⟩⟩); exact ⟨rfl, by decide, by decide, by decide, by decide⟩)
    (by rintro name (_ | ⟨_, ⟨⟩⟩); exact ⟨by decide, by decide, by decide, by decide⟩)
  have hknown : ∀ e ∈ Grammar.regressionEntries ["x"] [meanEntry] true, e.symbol ∈ g.symbols := fun e he =>
    List.mem_map_of_mem (hentries ▸ he)
  have hinput : ∀ v ∈ (Tree.variable (.forVariable "x")).preorder, v.Legible g := by
    rintro v (_ | ⟨_, ⟨⟩⟩)
    exact ⟨rfl, rfl, hknown { symbol := .forVariable "x" } (by simp [Grammar.regressionEntries])⟩
  have hmean : ∀ value, ∀ v ∈ (meanWith value).preorder, v.Legible g := by
    intro value v hv
    simp only [meanWith, Tree.preorder, Tree.preorderAll, List.mem_append, List.mem_cons, List.not_mem_nil,
      or_false] at hv
    rcases hv with rfl | rfl | rfl
    · exact ⟨⟨rfl, rfl⟩, rfl, hknown meanEntry (by simp [Grammar.regressionEntries])⟩
    · exact ⟨rfl, rfl, hknown { symbol := .forConstant Symbol.constantName defaultRange }
        (by simp [Grammar.regressionEntries])⟩
    · exact hinput _ List.mem_cons_self
  have hfirst : (meanWith 0.1).text = "Mean(0.1, x)" := by decide +kernel
  have hsecond : (meanWith 0.1000000001).text = "Mean(0.1, x)" := by decide +kernel
  refine ⟨(htexts _ _ (hmean 0.1) (hmean 0.1000000001)).mp (hfirst.trans hsecond.symm), ?_⟩
  rw [← hcount _ (by simp) (by simpa using ⟨hmean 0.1, hmean 0.1000000001, hinput⟩), Population.diversity,
    if_neg (by simp)]
  simp only [List.map_cons, List.map_nil, treeText, hfirst, hsecond]
  decide

end FormulaEvolution
