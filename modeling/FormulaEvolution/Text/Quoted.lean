/-
# Quoted text

A text between quotes, such that the quoted form reads back as the text.  Single quotes are used
unless the text holds one and no double quote.  Backslashes and the quote in use are escaped, and
so is every character that is not printable.

* `encode` writes, `decode?` reads; `decode?` also tells what follows the closing quote.
* `Literal` is the class of texts that are one quoted literal.
-/
import FormulaEvolution.Text.Printable

namespace FormulaEvolution
namespace Text
namespace Quoted

/-! ## 1. Writing -/

/-- The quote that a text is put in. -/
def quoteFor (cs : List Char) : Char :=
  if cs.contains '\'' && !cs.contains '"' then '"' else '\''

/-- A hexadecimal digit in lower case. -/
def hexDigit (n : Nat) : Char := Nat.digitChar (n % 16)

/-- `n` in hexadecimal with `width` digits, higher digits dropped. -/
def hex : Nat → Nat → List Char
  | 0, _ => []
  | width + 1, n => hex width (n / 16) ++ [hexDigit n]

/-- A character by its code, in the shortest of three widths. -/
def codeEscape (c : Char) : List Char :=
  let n := c.toNat
  if n ≤ 0xFF then '\\' :: 'x' :: hex 2 n
  else if n ≤ 0xFFFF then '\\' :: 'u' :: hex 4 n
  else '\\' :: 'U' :: hex 8 n

/-- One character inside quotes. -/
def encodeChar (quote c : Char) : List Char :=
  if c = quote || c = '\\' then ['\\', c]
  else if c = '\n' then ['\\', 'n']
  else if c = '\r' then ['\\', 'r']
  else if c = '\t' then ['\\', 't']
  else if isPrintable c then [c]
  else codeEscape c

/-- The characters between the quotes. -/
def body (quote : Char) (cs : List Char) : List Char := cs.flatMap (encodeChar quote)

/-- A text in quotes. -/
def encode (cs : List Char) : List Char :=
  let quote := quoteFor cs
  quote :: (body quote cs ++ [quote])

/-- A string in quotes. -/
def quote (s : String) : String := String.ofList (encode s.toList)

/-- Quoted strings, separated by commas, in brackets. -/
def list (names : List String) : String :=
  "[" ++ ", ".intercalate (names.map quote) ++ "]"

/-! ## 2. Reading -/

/-- The value of a hexadecimal digit. -/
def hexValue? (c : Char) : Option Nat :=
  if c.isDigit then some (c.toNat - '0'.toNat)
  else if 'a' ≤ c && c ≤ 'f' then some (c.toNat - 'a'.toNat + 10)
  else if 'A' ≤ c && c ≤ 'F' then some (c.toNat - 'A'.toNat + 10)
  else none

/-- The number that a run of hexadecimal digits spells. -/
def hexNumber? (cs : List Char) : Option Nat :=
  cs.foldl (fun n? c => n?.bind fun n => (hexValue? c).map (16 * n + ·)) (some 0)

/-- The character that an escaped one stands for, codes apart. -/
def simpleEscape? (c : Char) : Option Char :=
  if c = 'n' then some '\n'
  else if c = 'r' then some '\r'
  else if c = 't' then some '\t'
  else if c = '\\' || c = '\'' || c = '"' then some c
  else none

/-- Read characters up to the closing quote; the rest follows it.  A line feed or the end of the
text before that quote is refused. -/
def decodeBody? (quote : Char) : List Char → Option (List Char × List Char)
  | [] => none
  | '\\' :: 'x' :: a :: b :: cs => do
    let n ← hexNumber? [a, b]
    let (text, rest) ← decodeBody? quote cs
    some (Char.ofNat n :: text, rest)
  | '\\' :: 'u' :: a :: b :: c :: d :: cs => do
    let n ← hexNumber? [a, b, c, d]
    let (text, rest) ← decodeBody? quote cs
    some (Char.ofNat n :: text, rest)
  | '\\' :: 'U' :: a :: b :: c :: d :: e :: f :: g :: h :: cs => do
    let n ← hexNumber? [a, b, c, d, e, f, g, h]
    let (text, rest) ← decodeBody? quote cs
    some (Char.ofNat n :: text, rest)
  | '\\' :: c :: cs => do
    let e ← simpleEscape? c
    let (text, rest) ← decodeBody? quote cs
    some (e :: text, rest)
  | c :: cs =>
    if c = quote then some ([], cs)
    else if c = '\n' || c = '\\' then none
    else do
      let (text, rest) ← decodeBody? quote cs
      some (c :: text, rest)

/-- Read one quoted text from the front. -/
def decode? : List Char → Option (List Char × List Char)
  | '\'' :: cs => decodeBody? '\'' cs
  | '"' :: cs => decodeBody? '"' cs
  | _ => none

/-- The text is one quoted literal, with nothing before or after it. -/
def Literal (cs : List Char) : Prop := ∃ text, decode? cs = some (text, [])

end Quoted
end Text
end FormulaEvolution
