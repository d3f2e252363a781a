/-
# The tokens of compiled expressions

A text falls into numbers, names, quoted texts and marks; blanks between them do not count.
Anything else is refused, and so is a text whose brackets are nested more deeply than
`nestingLimit`.
-/
import FormulaEvolution.Number.Reading
import FormulaEvolution.Text.Quoted

namespace FormulaEvolution

/-- A token.  A numeral of digits alone is a whole number, which an index must be. -/
inductive Token where
  | number (x : Float)
  | whole (n : Nat)
  | name (n : String)
  | quoted (text : String)
  | mark (c : Char)

namespace Token

/-! ## 1. Characters -/

/-- The characters that are tokens by themselves. -/
def isMark (c : Char) : Bool := ['(', ')', '[', ']', ',', '+', '-', '*', '/'].contains c

/-- The characters that names start with. -/
def isNameStart (c : Char) : Bool := c.isAlpha || c = '_' || 0x80 ≤ c.toNat

/-- The characters that names are made of. -/
def isNameChar (c : Char) : Bool := isNameStart c || c.isDigit

/-- Split a number off: digits, points and marks of an exponent, each of which may have a sign
after it. -/
def spanNumber : Bool → List Char → List Char × List Char
  | _, [] => ([], [])
  | afterMark, c :: cs =>
    if c.isDigit || c = '.' || (afterMark && (c = '+' || c = '-')) then
      let (digits, rest) := spanNumber false cs
      (c :: digits, rest)
    else if c = 'e' || c = 'E' then
      let (digits, rest) := spanNumber true cs
      (c :: digits, rest)
    else ([], c :: cs)

theorem length_spanNumber (afterMark : Bool) (cs : List Char) :
    (spanNumber afterMark cs).2.length ≤ cs.length := by
  induction cs generalizing afterMark with
  | nil => simp [spanNumber]
  | cons c cs ih =>
    simp only [spanNumber]
    split
    · have := ih false
      simp only [List.length_cons]
      omega
    · split
      · have := ih true
        simp only [List.length_cons]
        omega
      · simp

/-- The token of a numeral. -/
def ofNumeral? (cs : List Char) : Option Token :=
  if cs.all Char.isDigit then some (.whole (Number.ofDigits cs))
  else (Number.ofText? (String.ofList cs)).map .number

/-! ## 2. Tokens -/

/-- A quoted text ends before the end of what it is read from. -/
theorem length_decodeBody {quote : Char} {cs text rest : List Char}
    (h : Text.Quoted.decodeBody? quote cs = some (text, rest)) : rest.length < cs.length := by
  fun_induction Text.Quoted.decodeBody? quote cs generalizing text rest with
  | case1 => simp at h
  | case2 a b cs ih =>
    simp only [Option.bind_eq_bind, Option.bind_eq_some_iff, Option.some.injEq, Prod.mk.injEq] at h
    obtain ⟨_, _, p, hp, _, rfl⟩ := h
    have := ih hp
    simp only [List.length_cons]
    omega
  | case3 a b c d cs ih =>
    simp only [Option.bind_eq_bind, Option.bind_eq_some_iff, Option.some.injEq, Prod.mk.injEq] at h
    obtain ⟨_, _, p, hp, _, rfl⟩ := h
    have := ih hp
    simp only [List.length_cons]
    omega
  | case4 a b c d e f g i cs ih =>
    simp only [Option.bind_eq_bind, Option.bind_eq_some_iff, Option.some.injEq, Prod.mk.injEq] at h
    obtain ⟨_, _, p, hp, _, rfl⟩ := h
    have := ih hp
    simp only [List.length_cons]
    omega
  | case5 c cs _ _ _ ih =>
    simp only [Option.bind_eq_bind, Option.bind_eq_some_iff, Option.some.injEq, Prod.mk.injEq] at h
    obtain ⟨_, _, p, hp, _, rfl⟩ := h
    have := ih hp
    simp only [List.length_cons]
    omega
  | case6 cs =>
    simp only [Option.some.injEq, Prod.mk.injEq] at h
    obtain ⟨_, rfl⟩ := h
    simp
  | case7 => simp at h
  | case8 c cs _ _ _ _ _ _ ih =>
    simp only [Option.bind_eq_bind, Option.bind_eq_some_iff, Option.some.injEq, Prod.mk.injEq] at h
    obtain ⟨p, hp, _, rfl⟩ := h
    have := ih hp
    simp only [List.length_cons]
    omega

/-- The tokens of a text. -/
def scan (cs : List Char) : Option (List Token) :=
  match cs with
  | [] => some []
  | c :: cs =>
    if c = ' ' then scan cs
    else if isMark c then (scan cs).map (.mark c :: ·)
    else if c = '\'' || c = '"' then
      match _h : Text.Quoted.decodeBody? c cs with
      | some (text, rest) => (scan rest).map (.quoted (String.ofList text) :: ·)
      | none => none
    else if isNameStart c then
      (scan (cs.dropWhile isNameChar)).map
        (.name (String.ofList (c :: cs.takeWhile isNameChar)) :: ·)
    else if c.isDigit || c = '.' then
      match ofNumeral? (c :: (spanNumber false cs).1) with
      | some token =>
        if ((spanNumber false cs).2.head?).any isNameChar then none
        else (scan (spanNumber false cs).2).map (token :: ·)
      | none => none
    else none
termination_by cs.length
decreasing_by
  · simp
  · simp
  · have := length_decodeBody _h
    simp only [List.length_cons]
    omega
  · have := (List.dropWhile_suffix isNameChar (l := cs)).length_le
    simp only [List.length_cons]
    omega
  · have := length_spanNumber false cs
    simp only [List.length_cons]
    omega

/-! ## 3. Nesting -/

/-- The deepest nesting of brackets that is read. -/
def nestingLimit : Nat := 200

/-- Whether brackets, `level` of which are open, stay within the limit. -/
def staysWithin : Nat → List Token → Bool
  | _, [] => true
  | level, .mark c :: ts =>
    if c = '(' || c = '[' then level < nestingLimit && staysWithin (level + 1) ts
    else if c = ')' || c = ']' then staysWithin (level - 1) ts
    else staysWithin level ts
  | level, _ :: ts => staysWithin level ts

end Token
end FormulaEvolution
