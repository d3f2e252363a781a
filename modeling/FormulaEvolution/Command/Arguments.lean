/-
# Command lines

What the words of a command line say: values for options, and words that stand by themselves.

An option is given by one of its flags.  A long flag has two dashes; its value is the next word, or
follows an equals sign.  Flags of one letter may share a dash; the value of the last of them is the
rest of the word, or else the next word.  After a word of two dashes alone, all words stand by
themselves.  An option that is given twice has the value that comes last.

A line that does not fit says nothing at all.
-/
import FormulaEvolution.Dictionary
import FormulaEvolution.Text.Blank

namespace FormulaEvolution

/-- What a flag does: it takes a value, or it stands for a truth value. -/
inductive FlagUse where
  | takesValue
  | stands (b : Bool)
  deriving DecidableEq, Repr

/-- A flag of an option. -/
structure Flag where
  text : String
  option : String
  use : FlagUse
  deriving DecidableEq, Repr

/-- What an option has been given. -/
inductive Given where
  | word (text : String)
  | switch (b : Bool)
  deriving DecidableEq, Repr

/-- The values of options, and the words that stand by themselves. -/
structure Line where
  options : Dictionary Given := []
  words : List String := []

namespace Line

/-- Give an option a value. -/
def give (l : Line) (option : String) (value : Given) : Line :=
  { l with options := l.options.bind option value }

/-- The flag of a text. -/
def flag? (flags : List Flag) (text : String) : Option Flag := flags.find? (·.text = text)

/-- A word cut at its first equals sign. -/
def cutAtEquals (word : String) : String × Option String :=
  let cs := word.toList
  match cs.dropWhile (· ≠ '=') with
  | [] => (word, none)
  | _ :: value => (String.ofList (cs.takeWhile (· ≠ '=')), some (String.ofList value))

/-- Read a long flag; gives the words that are left. -/
def readLong (f : Flag) (value? : Option String) (rest : List String) (l : Line) :
    Option (Line × List String) :=
  match f.use, value?, rest with
  | .stands b, none, rest => some (l.give f.option (.switch b), rest)
  | .stands _, some _, _ => none
  | .takesValue, some value, rest => some (l.give f.option (.word value), rest)
  | .takesValue, none, value :: rest => some (l.give f.option (.word value), rest)
  | .takesValue, none, [] => none

/-- Read flags of one letter; gives the words that are left. -/
def readLetters (flags : List Flag) : List Char → List String → Line → Option (Line × List String)
  | [], rest, l => some (l, rest)
  | c :: cs, rest, l =>
    match flag? flags (String.ofList ['-', c]) with
    | none => none
    | some f =>
      match f.use, cs, rest with
      | .stands b, cs, rest => readLetters flags cs rest (l.give f.option (.switch b))
      | .takesValue, [], [] => none
      | .takesValue, [], value :: rest => some (l.give f.option (.word value), rest)
      | .takesValue, cs, rest => some (l.give f.option (.word (String.ofList cs)), rest)

/-- Whether a word is a flag: it starts with a dash and goes on. -/
def isFlag (word : String) : Bool := word.toList.head? == some '-' && 1 < word.length

/-- Read a word that is a flag; gives the words that are left. -/
def readFlag (flags : List Flag) (word : String) (rest : List String) (l : Line) :
    Option (Line × List String) :=
  let (text, value?) := cutAtEquals word
  match flag? flags text with
  | some f =>
    if 2 < text.length then readLong f value? rest l
    else readLetters flags (word.toList.drop 1) rest l
  | none =>
    if "--".toList.isPrefixOf word.toList then none
    else readLetters flags (word.toList.drop 1) rest l

/-- Read at most `bound` words or flags with their values. -/
def readFrom (flags : List Flag) : Nat → List String → Line → Option Line
  | _, [], l => some l
  | 0, _ :: _, _ => none
  | bound + 1, word :: rest, l =>
    if word = "--" then some { l with words := l.words ++ rest }
    else if isFlag word then
      match readFlag flags word rest l with
      | some (l, rest) => readFrom flags bound rest l
      | none => none
    else readFrom flags bound rest { l with words := l.words ++ [word] }

/-- Read the words of a command line. -/
def read (flags : List Flag) (words : List String) : Option Line :=
  readFrom flags words.length words {}

/-! ## Values -/

/-- The word that an option has been given. -/
def word? (l : Line) (option : String) : Option String :=
  match l.options.value? option with
  | some (.word text) => some text
  | _ => none

/-- The truth value that an option has been given. -/
def switch? (l : Line) (option : String) : Option Bool :=
  match l.options.value? option with
  | some (.switch b) => some b
  | _ => none

/-- Whether an option has been switched on. -/
def isOn (l : Line) (option : String) : Bool := (l.switch? option).getD false

/-- The value of an option, read from its word; `none` if the word cannot be read. -/
def valueOr {α : Type} (l : Line) (option : String) (read : String → Option α) (usual : α) :
    Option α :=
  match l.word? option with
  | none => some usual
  | some text => read text

end Line
end FormulaEvolution
