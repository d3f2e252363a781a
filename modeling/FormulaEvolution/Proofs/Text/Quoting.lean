/-
# Quoted texts and templates

* A text in quotes reads back as the text, whatever follows it (`decodeBody_body`).  Characters are
  read back one by one; the three widths of codes are told apart by their mark, and a code of a
  width is a number below a power of sixteen.
* A text in quotes has no braces unless the text has some (`mem_encode`), so a template made of it
  is filled without a change (`Template.fill_plain`).
* The templates of the arithmetic symbols put their two arguments around a sign.
-/
import FormulaEvolution.Symbol.Standard
import Mathlib.Algebra.Group.Nat.Defs

namespace FormulaEvolution
namespace Text
namespace Quoted

/-! ## 1. Codes -/

theorem hexValue_hexDigit (n : Nat) : hexValue? (hexDigit n) = some (n % 16) := by
  have hdigits : ∀ i : Fin 16, hexValue? (Nat.digitChar i.val) = some i.val := by decide
  exact hdigits ⟨n % 16, Nat.mod_lt _ (by omega)⟩

/-- Reading digits after a number shifts it and adds what they spell. -/
theorem foldl_hex (width n start : Nat) :
    (hex width n).foldl (fun n? c => n?.bind fun n => (hexValue? c).map (16 * n + ·)) (some start) =
      some (16 ^ width * start + n % 16 ^ width) := by
  induction width generalizing n with
  | zero => simp [hex, Nat.mod_one]
  | succ width ih =>
    rw [hex, List.foldl_append, ih]
    simp only [List.foldl_cons, List.foldl_nil, Option.bind_some, hexValue_hexDigit,
      Option.map_some, Option.some.injEq]
    have hsplit : n % 16 ^ (width + 1) = n % 16 + 16 * (n / 16 % 16 ^ width) := by
      rw [Nat.pow_succ, Nat.mul_comm, Nat.mod_mul]
    rw [hsplit, Nat.pow_succ, Nat.mul_add, ← Nat.mul_assoc, Nat.mul_comm 16 (16 ^ width)]
    omega

/-- A number that fits a width is spelled by its digits. -/
theorem hexNumber_hex {width n : Nat} (h : n < 16 ^ width) : hexNumber? (hex width n) = some n := by
  rw [hexNumber?, foldl_hex, Nat.mul_zero, Nat.zero_add, Nat.mod_eq_of_lt h]

/-! ## 2. Characters -/

variable {q c : Char}

/-- Put a character in front of what has been read. -/
def readBefore (c : Char) (read : Option (List Char × List Char)) :
    Option (List Char × List Char) :=
  read.map fun (text, rest) => (c :: text, rest)

/-- A code is read back as the character. -/
theorem decodeBody_codeEscape (q c : Char) (tail : List Char) :
    decodeBody? q (codeEscape c ++ tail) = readBefore c (decodeBody? q tail) := by
  have hchar : Char.ofNat c.toNat = c := Char.ofNat_toNat c
  have hlt : c.toNat < 16 ^ 8 := Nat.lt_of_lt_of_le c.val.toNat_lt (by decide)
  simp only [codeEscape]
  split
  · have hread : hexNumber? (hex 2 c.toNat) = some c.toNat := hexNumber_hex (by omega)
    simp only [hex, List.nil_append, List.cons_append] at hread ⊢
    simp only [decodeBody?, hread, hchar, Option.bind_eq_bind, Option.bind_some]
    cases decodeBody? q tail <;> rfl
  · split
    · have hread : hexNumber? (hex 4 c.toNat) = some c.toNat := hexNumber_hex (by omega)
      simp only [hex, List.nil_append, List.cons_append] at hread ⊢
      simp only [decodeBody?, hread, hchar, Option.bind_eq_bind, Option.bind_some]
      cases decodeBody? q tail <;> rfl
    · have hread : hexNumber? (hex 8 c.toNat) = some c.toNat := hexNumber_hex hlt
      simp only [hex, List.nil_append, List.cons_append] at hread ⊢
      simp only [decodeBody?, hread, hchar, Option.bind_eq_bind, Option.bind_some]
      cases decodeBody? q tail <;> rfl

/-- A backslash before a character that marks no code stands for one character. -/
theorem decodeBody_simpleEscape {e : Char} (tail : List Char) (hx : c ≠ 'x') (hu : c ≠ 'u')
    (hU : c ≠ 'U') (he : simpleEscape? c = some e) :
    decodeBody? q ('\\' :: c :: tail) = readBefore e (decodeBody? q tail) := by
  rw [decodeBody?]
  · simp only [he, Option.bind_eq_bind, Option.bind_some]
    cases decodeBody? q tail <;> rfl
  · rintro a b cs hcs
    simp [hx] at hcs
  · rintro a b c d cs hcs
    simp [hu] at hcs
  · rintro a b c d e f g h cs hcs
    simp [hU] at hcs

/-- A character that is neither a quote nor a backslash nor a line feed stands for itself. -/
theorem decodeBody_plain (tail : List Char) (hq : c ≠ q) (hb : c ≠ '\\') (hn : c ≠ '\n') :
    decodeBody? q (c :: tail) = readBefore c (decodeBody? q tail) := by
  rw [decodeBody?]
  · rw [if_neg hq, if_neg (by simp [hn, hb])]
    cases decodeBody? q tail <;> rfl
  all_goals simp [hb]

/-- **An encoded character is read back as the character.**  The cases are those of the encoding. -/
theorem decodeBody_encodeChar (hq : q = '\'' ∨ q = '"') (c : Char) (tail : List Char) :
    decodeBody? q (encodeChar q c ++ tail) = readBefore c (decodeBody? q tail) := by
  simp only [encodeChar, Bool.or_eq_true, decide_eq_true_eq]
  by_cases hspecial : c = q ∨ c = '\\'
  · have hmarks : c = '\'' ∨ c = '"' ∨ c = '\\' := by
      rcases hspecial with rfl | rfl
      · rcases hq with rfl | rfl <;> simp
      · simp
    rw [if_pos hspecial]
    rcases hmarks with rfl | rfl | rfl
    · exact decodeBody_simpleEscape tail (by decide) (by decide) (by decide) rfl
    · exact decodeBody_simpleEscape tail (by decide) (by decide) (by decide) rfl
    · exact decodeBody_simpleEscape tail (by decide) (by decide) (by decide) rfl
  · rw [if_neg hspecial]
    simp only [not_or] at hspecial
    by_cases hn : c = '\n'
    · subst hn
      exact decodeBody_simpleEscape tail (by decide) (by decide) (by decide) rfl
    by_cases hr : c = '\r'
    · subst hr
      exact decodeBody_simpleEscape tail (by decide) (by decide) (by decide) rfl
    by_cases ht : c = '\t'
    · subst ht
      exact decodeBody_simpleEscape tail (by decide) (by decide) (by decide) rfl
    rw [if_neg hn, if_neg hr, if_neg ht]
    split
    · exact decodeBody_plain tail hspecial.1 hspecial.2 hn
    · exact decodeBody_codeEscape q c tail

/-! ## 3. Texts -/

/-- **A quoted text reads back**, and reading stops behind the closing quote. -/
theorem decodeBody_body (hq : q = '\'' ∨ q = '"') (cs rest : List Char) :
    decodeBody? q (body q cs ++ q :: rest) = some (cs, rest) := by
  induction cs with
  | nil =>
    rcases hq with rfl | rfl <;> simp [body, decodeBody?]
  | cons c cs ih =>
    rw [body, List.flatMap_cons, List.append_assoc, decodeBody_encodeChar hq]
    rw [body] at ih
    rw [ih]
    rfl

theorem quoteFor_eq (cs : List Char) : quoteFor cs = '\'' ∨ quoteFor cs = '"' := by
  unfold quoteFor
  split
  · exact .inr rfl
  · exact .inl rfl

/-! ## 4. Braces -/

/-- A text without braces. -/
def Plain (cs : List Char) : Prop := '\x7b' ∉ cs ∧ '\x7d' ∉ cs

theorem plain_append {as bs : List Char} : Plain (as ++ bs) ↔ Plain as ∧ Plain bs := by
  simp only [Plain, List.mem_append, not_or]
  exact and_and_and_comm

theorem plain_cons {cs : List Char} : Plain (c :: cs) ↔ (c ≠ '\x7b' ∧ c ≠ '\x7d') ∧ Plain cs := by
  simp only [Plain, List.mem_cons, not_or, ne_comm]
  exact and_and_and_comm

theorem plain_nil : Plain [] := ⟨List.not_mem_nil, List.not_mem_nil⟩

theorem plain_hex (width n : Nat) : Plain (hex width n) := by
  have hdigits : ∀ i : Fin 16, Nat.digitChar i.val ≠ '\x7b' ∧ Nat.digitChar i.val ≠ '\x7d' := by
    decide
  induction width generalizing n with
  | zero => exact plain_nil
  | succ width ih =>
    refine plain_append.mpr ⟨ih _, plain_cons.mpr ⟨?_, plain_nil⟩⟩
    exact hdigits ⟨n % 16, Nat.mod_lt _ (by omega)⟩

/-- Encoding a character that is no brace makes none. -/
theorem plain_encodeChar (q : Char) (hc : c ≠ '\x7b' ∧ c ≠ '\x7d') : Plain (encodeChar q c) := by
  have hself : Plain [c] := plain_cons.mpr ⟨hc, plain_nil⟩
  have hmark : ∀ {d : Char} {cs : List Char}, d ≠ '\x7b' ∧ d ≠ '\x7d' → Plain cs →
      Plain ('\\' :: d :: cs) :=
    fun hd hcs => plain_cons.mpr ⟨by decide, plain_cons.mpr ⟨hd, hcs⟩⟩
  unfold encodeChar
  split
  · exact hmark hc plain_nil
  split
  · exact hmark (by decide) plain_nil
  split
  · exact hmark (by decide) plain_nil
  split
  · exact hmark (by decide) plain_nil
  split
  · exact hself
  simp only [codeEscape]
  split
  · exact hmark (by decide) (plain_hex _ _)
  split
  · exact hmark (by decide) (plain_hex _ _)
  · exact hmark (by decide) (plain_hex _ _)

/-- **A text without braces has none in quotes.** -/
theorem plain_encode {cs : List Char} (h : Plain cs) : Plain (encode cs) := by
  have hbody : ∀ q, Plain (body q cs) := by
    intro q
    refine ⟨fun hmem => ?_, fun hmem => ?_⟩
    · obtain ⟨c, hc, hin⟩ := List.mem_flatMap.mp hmem
      exact (plain_encodeChar q ⟨fun e => h.1 (e ▸ hc), fun e => h.2 (e ▸ hc)⟩).1 hin
    · obtain ⟨c, hc, hin⟩ := List.mem_flatMap.mp hmem
      exact (plain_encodeChar q ⟨fun e => h.1 (e ▸ hc), fun e => h.2 (e ▸ hc)⟩).2 hin
  have hquote : quoteFor cs ≠ '\x7b' ∧ quoteFor cs ≠ '\x7d' := by
    rcases quoteFor_eq cs with hq | hq
    · rw [hq]
      decide
    · rw [hq]
      decide
  simp only [encode]
  exact plain_cons.mpr ⟨hquote, plain_append.mpr ⟨hbody _, plain_cons.mpr ⟨hquote, plain_nil⟩⟩⟩

end Quoted

/-! ## 5. Filling templates -/

namespace Template

open Quoted

variable {inner : Numbering → List Char → Except Fault (List Char × Numbering)}
  {args : List (List Char)} {numbering : Numbering}

/-- A character that is no brace stays. -/
theorem fillWith_cons {c : Char} (hopen : c ≠ '\x7b') (hclose : c ≠ '\x7d') (fuel : Nat)
    (cs : List Char) : fillWith inner args (fuel + 1) numbering (c :: cs) =
      fillWith inner args fuel numbering cs >>= fun p => .ok (c :: p.1, p.2) := by
  conv => lhs; unfold fillWith
  rw [if_neg hclose, if_neg hopen]
  rfl

theorem fillWith_plain : ∀ {cs : List Char} {fuel : Nat}, Plain cs → cs.length ≤ fuel →
    fillWith inner args fuel numbering cs = .ok (cs, numbering)
  | [], fuel, _, _ => by cases fuel <;> rfl
  | c :: cs, fuel + 1, h, hfuel => by
    obtain ⟨⟨hopen, hclose⟩, hcs⟩ := plain_cons.mp h
    rw [fillWith_cons hopen hclose, fillWith_plain hcs (Nat.le_of_succ_le_succ hfuel)]
    rfl

/-- **A template without braces is filled without a change.** -/
theorem fill_plain {cs : List Char} (h : Plain cs) : fill cs args = .ok cs := by
  simp only [fill, fillWith_plain h (Nat.le_refl _)]
  rfl

/-- A text without a format is put in as it is. -/
theorem layOut_nil (text : List Char) : layOut [] text = .ok text := by
  simp [layOut, takeAlignment, pad, Number.ofDigits]

/-- A field that is a number alone stands for that argument. -/
theorem replacement_digit {d : Char} (hd : d.isDigit = true)
    (hnumbering : numbering = .open ∨ numbering = .manual) :
    replacement inner args numbering ⟨[d], none, []⟩ =
      match args[Number.ofDigits [d]]? with
      | some text => .ok (text, .manual)
      | none => .error (.missingArgument (Number.ofDigits [d])) := by
  have hpath : (d ≠ '.') ∧ d ≠ '[' := by
    constructor <;> (rintro rfl; simp [Char.isDigit] at hd)
  have hfront : [d].takeWhile (fun c => !(decide (c = '.') || decide (c = '['))) = [d] := by
    simp [hpath]
  have hrest : [d].dropWhile (fun c => !(decide (c = '.') || decide (c = '['))) = [] := by
    simp [hpath]
  cases hmem : args[Number.ofDigits [d]]? with
  | some text =>
    have hargument : argument args numbering [d] = .ok (text, .manual) := by
      rcases hnumbering with rfl | rfl <;> simp [argument, hd, hmem]
    simp only [replacement, hfront, hrest, hargument]
    simp [follow, convert, layOut_nil, bind, Except.bind, pure, Except.pure]
  | none =>
    have hargument : argument args numbering [d] =
        .error (.missingArgument (Number.ofDigits [d])) := by
      rcases hnumbering with rfl | rfl <;> simp [argument, hd, hmem]
    simp only [replacement, hfront, hargument]
    rfl

/-- A field that is a number alone is replaced by that argument; without one the template is
refused. -/
theorem fillWith_digit {d : Char} (hd : d.isDigit = true)
    (hnumbering : numbering = .open ∨ numbering = .manual) (fuel : Nat) (cs : List Char) :
    fillWith inner args (fuel + 1) numbering ('\x7b' :: d :: '\x7d' :: cs) =
      match args[Number.ofDigits [d]]? with
      | some text => fillWith inner args fuel .manual cs >>= fun p => .ok (text ++ p.1, p.2)
      | none => .error (.missingArgument (Number.ofDigits [d])) := by
  have hname : d ≠ '\x7b' ∧ d ≠ '\x7d' ∧ d ≠ ':' ∧ d ≠ '!' ∧ d ≠ '[' := by
    refine ⟨?_, ?_, ?_, ?_, ?_⟩ <;> (rintro rfl; simp [Char.isDigit] at hd)
  have hfield : takeField (d :: '\x7d' :: cs) = .ok (⟨[d], none, []⟩, cs) := by
    simp [takeField, takeName, hname, bind, Except.bind, pure, Except.pure]
  conv => lhs; unfold fillWith
  rw [if_neg (by decide), if_pos rfl]
  split
  · next heq => simp at heq
  · next heq => exact absurd (List.cons.inj heq).1 hname.1
  · rw [hfield]
    simp only [bind, Except.bind, replacement_digit hd hnumbering]
    cases args[Number.ofDigits [d]]? with
    | some text => rfl
    | none => rfl

/-- **The template of a sign puts its first two arguments around the sign, in parentheses.**  It is
refused if there are fewer. -/
theorem fill_sign {c : Char} (hopen : c ≠ '\x7b') (hclose : c ≠ '\x7d') (args : List (List Char)) :
    fill ['(', '\x7b', '0', '\x7d', ' ', c, ' ', '\x7b', '1', '\x7d', ')'] args =
      match args with
      | a :: b :: _ => .ok ('(' :: (a ++ ' ' :: c :: ' ' :: (b ++ [')'])))
      | _ => .error (.missingArgument args.length) := by
  have hend : ∀ inner : Numbering → List Char → Except Fault (List Char × Numbering),
      fillWith inner args 5 .manual [')'] = .ok ([')'], .manual) :=
    fun inner => fillWith_plain (plain_cons.mpr ⟨by decide, plain_nil⟩) (by decide)
  have hfields : Number.ofDigits ['0'] = 0 ∧ Number.ofDigits ['1'] = 1 := by decide
  simp only [fill, List.length_cons, List.length_nil]
  rw [fillWith_cons (by decide) (by decide), fillWith_digit (by decide) (.inl rfl),
    fillWith_cons (by decide) (by decide), fillWith_cons hopen hclose,
    fillWith_cons (by decide) (by decide), fillWith_digit (by decide) (.inr rfl), hend, hfields.1,
    hfields.2]
  match args with
  | [] => rfl
  | [a] => rfl
  | a :: b :: rest => rfl

end Template
end Text
end FormulaEvolution
