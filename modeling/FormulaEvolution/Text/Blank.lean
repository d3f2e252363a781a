/-
# Blanks

Which characters are blank, and how blanks are trimmed and lines are cut.  The class is that of
Unicode white space together with the four information separators.
-/

namespace FormulaEvolution
namespace Text

/-- Code points of the blank characters beyond the two runs that `isBlank` names. -/
def otherBlanks : List Nat :=
  [0x20, 0x85, 0xA0, 0x1680, 0x2028, 0x2029, 0x202F, 0x205F, 0x3000]

/-- A blank character. -/
def isBlank (c : Char) : Bool :=
  let n := c.toNat
  (0x09 ≤ n && n ≤ 0x0D) || (0x1C ≤ n && n ≤ 0x1F) || (0x2000 ≤ n && n ≤ 0x200A) ||
    otherBlanks.contains n

/-- Drop characters of a class from both ends. -/
def trimBy (drop : Char → Bool) (cs : List Char) : List Char :=
  ((cs.dropWhile drop).reverse.dropWhile drop).reverse

/-- Drop blanks from both ends. -/
def trim (cs : List Char) : List Char := trimBy isBlank cs

/-- Put a character in front of the first of several parts. -/
def extendFirst (c : Char) : List (List Char) → List (List Char)
  | [] => [[c]]
  | part :: parts => (c :: part) :: parts

/-- Cut at every occurrence of a character.  The parts are one more than the occurrences. -/
def cutAt (mark : Char) : List Char → List (List Char)
  | [] => [[]]
  | c :: cs =>
    if c = mark then [] :: cutAt mark cs else extendFirst c (cutAt mark cs)

/-- Cut at every occurrence of a separator; the first `skip` characters belong to one. -/
def cutAfter (separator : List Char) : Nat → List Char → List (List Char)
  | _, [] => [[]]
  | skip + 1, _ :: cs => cutAfter separator skip cs
  | 0, c :: cs =>
    if separator.isPrefixOf (c :: cs) then [] :: cutAfter separator (separator.length - 1) cs
    else extendFirst c (cutAfter separator 0 cs)

/-- Cut at every occurrence of a separator that is not empty. -/
def cutBy (separator cs : List Char) : List (List Char) := cutAfter separator 0 cs

/-- Carriage returns, alone or before a line feed, become line feeds. -/
def normalizeLines : List Char → List Char
  | '\r' :: '\n' :: cs => '\n' :: normalizeLines cs
  | '\r' :: cs => '\n' :: normalizeLines cs
  | c :: cs => c :: normalizeLines cs
  | [] => []

/-- The lines of a text.  A line feed at the very end starts no further line. -/
def lines (cs : List Char) : List (List Char) :=
  let parts := cutAt '\n' (normalizeLines cs)
  match parts.getLast? with
  | some [] => parts.dropLast
  | _ => parts

/-- Texts joined with a separator. -/
def join (separator : List Char) : List (List Char) → List Char
  | [] => []
  | [part] => part
  | part :: parts => part ++ separator ++ join separator parts

end Text
end FormulaEvolution
