/-
# Braces in templates without arguments

A template that is filled with no arguments has nothing to put in the place of a field.  So filling
takes doubled braces as single ones and changes nothing else (`undouble`), or fails at a brace that
stands alone (`fill_nil_iff`).

The text of a variable is such a template.  It does not matter whether a name is quoted first or its
doubled braces are taken as single ones first (`undouble_encode`): quoting neither makes braces nor
separates two of them.  So what is written for a variable is the text of a variable again, that of the
key of its name (`Symbol.emit_forVariable_iff`).
-/
import FormulaEvolution.Proofs.Text.Quoting

namespace FormulaEvolution
namespace Text
namespace Template

open Quoted

/-! ## 1. Doubled braces -/

/-- A brace. -/
def IsBrace (c : Char) : Prop := c = '\x7b' ∨ c = '\x7d'

instance (c : Char) : Decidable (IsBrace c) := inferInstanceAs (Decidable (_ ∨ _))

/-- The text with single braces for doubled ones.  There is none if a brace stands alone. -/
def undouble : List Char → Option (List Char)
  | [] => some []
  | c :: cs =>
    if IsBrace c then
      match cs with
      | [] => none
      | d :: rest => if d = c then (undouble rest).map (c :: ·) else none
    else (undouble cs).map (c :: ·)

section Undoubling

variable {c : Char} {as bs cs text : List Char}

theorem undouble_cons (hc : ¬IsBrace c) (cs : List Char) :
    undouble (c :: cs) = (undouble cs).map (c :: ·) := by
  conv => lhs; unfold undouble
  exact if_neg hc

theorem undouble_pair (hc : IsBrace c) (cs : List Char) :
    undouble (c :: c :: cs) = (undouble cs).map (c :: ·) := by
  conv => lhs; unfold undouble
  exact (if_pos hc).trans (if_pos rfl)

/-- A brace before anything else stands alone. -/
theorem undouble_alone (hc : IsBrace c) (hcs : cs.head? ≠ some c) : undouble (c :: cs) = none := by
  unfold undouble
  rw [if_pos hc]
  match cs with
  | [] => rfl
  | d :: rest => exact if_neg fun h => hcs (congrArg some h)

/-- **Texts are made of three kinds of beginnings**: other characters, doubled braces, and braces that
stand alone. -/
@[elab_as_elim]
theorem undouble_induction {motive : List Char → Prop} (nil : motive [])
    (other : ∀ c cs, ¬IsBrace c → motive cs → motive (c :: cs))
    (pair : ∀ c cs, IsBrace c → motive cs → motive (c :: c :: cs))
    (alone : ∀ c cs, IsBrace c → cs.head? ≠ some c → motive (c :: cs)) : ∀ cs, motive cs
  | [] => nil
  | [c] =>
    if hc : IsBrace c then alone c [] hc nofun else other c [] hc nil
  | c :: d :: cs => by
    by_cases hc : IsBrace c
    · by_cases hd : d = c
      · subst hd
        exact pair d cs hc (undouble_induction nil other pair alone cs)
      · exact alone c (d :: cs) hc fun h => hd (Option.some.inj h)
    · exact other c (d :: cs) hc (undouble_induction nil other pair alone (d :: cs))

theorem undouble_append_plain (has : Plain as) (bs : List Char) :
    undouble (as ++ bs) = (undouble bs).map (as ++ ·) := by
  induction as with
  | nil => simp
  | cons c as ih =>
    obtain ⟨hc, has⟩ := plain_cons.mp has
    rw [List.cons_append, undouble_cons (not_or.mpr hc), ih has, Option.map_map]
    rfl

theorem undouble_plain (hcs : Plain cs) : undouble cs = some cs := by
  have h := undouble_append_plain hcs []
  rwa [List.append_nil, undouble, Option.map_some, List.append_nil] at h

/-- A text with braces becomes shorter, and still has some. -/
theorem undouble_shorter : ∀ {cs text : List Char}, undouble cs = some text →
    Plain cs ∧ text = cs ∨ ¬Plain text ∧ text.length < cs.length := by
  intro cs
  induction cs using undouble_induction with
  | nil =>
    rintro text ⟨⟩
    exact .inl ⟨plain_nil, rfl⟩
  | other c cs hc ih =>
    intro text h
    rw [undouble_cons hc] at h
    obtain ⟨rest, hrest, rfl⟩ := Option.map_eq_some_iff.mp h
    rcases ih hrest with ⟨hplain, rfl⟩ | ⟨hplain, hlength⟩
    · exact .inl ⟨plain_cons.mpr ⟨not_or.mp hc, hplain⟩, rfl⟩
    · refine .inr ⟨fun h => hplain (plain_cons.mp h).2, ?_⟩
      rw [List.length_cons, List.length_cons]
      omega
  | pair c cs hc ih =>
    intro text h
    rw [undouble_pair hc] at h
    obtain ⟨rest, hrest, rfl⟩ := Option.map_eq_some_iff.mp h
    refine .inr ⟨fun h => not_or.mpr (plain_cons.mp h).1 hc, ?_⟩
    have hlength : rest.length ≤ cs.length := by
      rcases ih hrest with ⟨-, rfl⟩ | ⟨-, hlength⟩
      · exact Nat.le_refl _
      · exact Nat.le_of_lt hlength
    rw [List.length_cons, List.length_cons, List.length_cons]
    omega
  | alone c cs hc hcs =>
    intro text h
    rw [undouble_alone hc hcs] at h
    cases h

/-- Characters that are no braces stay. -/
theorem mem_undouble (hc : ¬IsBrace c) : ∀ {cs text : List Char}, undouble cs = some text →
    (c ∈ text ↔ c ∈ cs) := by
  intro cs
  induction cs using undouble_induction with
  | nil =>
    rintro text ⟨⟩
    rfl
  | other d cs hd ih =>
    intro text h
    rw [undouble_cons hd] at h
    obtain ⟨rest, hrest, rfl⟩ := Option.map_eq_some_iff.mp h
    rw [List.mem_cons, List.mem_cons, ih hrest]
  | pair d cs hd ih =>
    intro text h
    rw [undouble_pair hd] at h
    obtain ⟨rest, hrest, rfl⟩ := Option.map_eq_some_iff.mp h
    have hne : c ≠ d := by
      rintro rfl
      exact hc hd
    simp only [List.mem_cons, ih hrest, hne, false_or]
  | alone d cs hd hcs =>
    intro text h
    rw [undouble_alone hd hcs] at h
    cases h

end Undoubling

/-! ## 2. Filling without arguments -/

section Filling

/-- Without arguments no field has one. -/
theorem argument_nil (numbering : Numbering) (front : List Char) :
    ∃ fault, argument [] numbering front = .error fault := by
  unfold argument
  simp only [List.getElem?_nil]
  split
  · cases numbering <;> exact ⟨_, rfl⟩
  · split
    · cases numbering <;> exact ⟨_, rfl⟩
    · exact ⟨_, rfl⟩

theorem replacement_nil (inner : Numbering → List Char → Except Fault (List Char × Numbering))
    (numbering : Numbering) (field : Field) :
    ∃ fault, replacement inner [] numbering field = .error fault := by
  unfold replacement
  obtain ⟨fault, hfault⟩ := argument_nil numbering
    (field.name.takeWhile fun c => !(decide (c = '.') || decide (c = '[')))
  refine ⟨fault, ?_⟩
  simp only [hfault]
  rfl

/-- A result that is what a text becomes, or a failure if it becomes nothing. -/
def Fills (numbering : Numbering) (text : Option (List Char))
    (result : Except Fault (List Char × Numbering)) : Prop :=
  match text with
  | some text => result = .ok (text, numbering)
  | none => ∃ fault, result = .error fault

theorem Fills.cons {numbering : Numbering} {text : Option (List Char)}
    {result : Except Fault (List Char × Numbering)} (h : Fills numbering text result) (c : Char) :
    Fills numbering (text.map (c :: ·))
      (result >>= fun p => .ok (c :: p.1, p.2)) := by
  cases text with
  | some text =>
    obtain rfl : result = .ok (text, numbering) := h
    rfl
  | none =>
    obtain ⟨fault, rfl⟩ := h
    exact ⟨fault, rfl⟩

section Steps

variable (inner : Numbering → List Char → Except Fault (List Char × Numbering))
  (numbering : Numbering) {c : Char} {cs : List Char}

/-- A doubled brace becomes a single one. -/
theorem fillWith_pair (fuel : Nat) (hc : IsBrace c) :
    fillWith inner [] (fuel + 1) numbering (c :: c :: cs) =
      fillWith inner [] fuel numbering cs >>= fun p => .ok (c :: p.1, p.2) := by
  rcases hc with rfl | rfl
  · rfl
  · rfl

/-- A brace that stands alone opens a field, for which there is no argument, or closes none. -/
theorem fillWith_alone (fuel : Nat) (hc : IsBrace c) (hcs : cs.head? ≠ some c) :
    ∃ fault, fillWith inner [] (fuel + 1) numbering (c :: cs) = .error fault := by
  unfold fillWith
  rcases hc with rfl | rfl
  · rw [if_neg (by decide), if_pos rfl]
    split
    · exact ⟨_, rfl⟩
    · exact absurd rfl hcs
    · cases hfield : takeField cs with
      | error fault => exact ⟨fault, rfl⟩
      | ok p =>
        obtain ⟨fault, hfault⟩ := replacement_nil inner numbering p.1
        refine ⟨fault, ?_⟩
        simp only [bind, Except.bind, hfault]
  · rw [if_pos rfl]
    split
    · exact absurd rfl hcs
    · exact ⟨_, rfl⟩

/-- **Filling without arguments undoubles braces**, whatever fields hold. -/
theorem fillWith_nil : ∀ (cs : List Char) (fuel : Nat), cs.length ≤ fuel →
    Fills numbering (undouble cs) (fillWith inner [] fuel numbering cs) := by
  intro cs
  induction cs using undouble_induction with
  | nil =>
    intro fuel _
    cases fuel <;> rfl
  | other c cs hc ih =>
    rintro (_ | fuel) hfuel
    · cases hfuel
    · obtain ⟨hopen, hclose⟩ := not_or.mp hc
      rw [undouble_cons hc, fillWith_cons hopen hclose]
      exact (ih fuel (Nat.le_of_succ_le_succ hfuel)).cons c
  | pair c cs hc ih =>
    rintro (_ | fuel) hfuel
    · cases hfuel
    · rw [undouble_pair hc, fillWith_pair inner numbering fuel hc]
      exact (ih fuel (Nat.le_of_succ_le (Nat.le_of_succ_le_succ hfuel))).cons c
  | alone c cs hc hcs =>
    rintro (_ | fuel) hfuel
    · cases hfuel
    · rw [undouble_alone hc hcs]
      exact fillWith_alone inner numbering fuel hc hcs

end Steps

/-- **A template without arguments is filled exactly if its braces are doubled**, and becomes the text
with single braces for them. -/
theorem fill_nil_iff {cs text : List Char} : fill cs [] = .ok text ↔ undouble cs = some text := by
  unfold fill
  simp only []
  generalize hinner : (fun (numbering : Numbering) (format : List Char) =>
    fillWith (fun _ _ => Except.error Fault.deepNesting) [] format.length numbering format) = inner
  have h := fillWith_nil inner .open cs cs.length (Nat.le_refl _)
  cases hcs : undouble cs with
  | some other =>
    rw [hcs] at h
    have hother : fillWith inner [] cs.length .open cs = .ok (other, .open) := h
    rw [hother]
    exact ⟨fun heq => congrArg some (Except.ok.inj heq),
      fun heq => congrArg Except.ok (Option.some.inj heq)⟩
  | none =>
    rw [hcs] at h
    obtain ⟨fault, hfault⟩ := h
    rw [hfault]
    exact ⟨nofun, nofun⟩

end Filling

/-! ## 3. Quoted texts -/

section Quoting

variable {q : Char}

theorem not_isBrace_quote (hq : q = '\'' ∨ q = '"') : ¬IsBrace q := by
  rcases hq with rfl | rfl <;> decide

/-- A brace stands as it is inside quotes. -/
theorem encodeChar_brace {c : Char} (hq : q = '\'' ∨ q = '"') (hc : IsBrace c) :
    encodeChar q c = [c] := by
  rcases hq with rfl | rfl <;> rcases hc with rfl | rfl <;> decide

/-- Any other character begins with one that is no brace. -/
theorem head_encodeChar (q c : Char) : (encodeChar q c).head? = some c ∨
    (encodeChar q c).head? = some '\\' := by
  unfold encodeChar codeEscape
  grind

/-- What follows a brace inside quotes is another brace exactly if it is one in the text. -/
theorem head_body {c : Char} (hq : q = '\'' ∨ q = '"') (hc : IsBrace c) {cs : List Char}
    (hcs : cs.head? ≠ some c) (rest : List Char) : (body q cs ++ q :: rest).head? ≠ some c := by
  match cs with
  | [] =>
    rintro ⟨⟩
    exact not_isBrace_quote hq hc
  | d :: cs =>
    have hd : d ≠ c := fun h => hcs (congrArg some h)
    rw [body, List.flatMap_cons, List.append_assoc, List.head?_append]
    rcases head_encodeChar q d with h | h
    · rw [h]
      exact fun heq => hd (Option.some.inj heq)
    · rw [h]
      rintro ⟨⟩
      revert hc
      decide

/-- Braces inside quotes are undoubled as those of the text. -/
theorem undouble_body (hq : q = '\'' ∨ q = '"') (rest : List Char) : ∀ cs : List Char,
    undouble (body q cs ++ q :: rest) =
      (undouble cs).bind fun text => (undouble rest).map (body q text ++ q :: ·) := by
  intro cs
  induction cs using undouble_induction with
  | nil => exact undouble_cons (not_isBrace_quote hq) rest
  | other c cs hc ih =>
    have hplain : Plain (encodeChar q c) := plain_encodeChar q (not_or.mp hc)
    rw [body, List.flatMap_cons, List.append_assoc, ← body, undouble_append_plain hplain, ih,
      undouble_cons hc]
    cases undouble cs with
    | none => rfl
    | some text =>
      cases undouble rest with
      | none => rfl
      | some after => simp [body]
  | pair c cs hc ih =>
    have hself := encodeChar_brace hq hc
    rw [body, List.flatMap_cons, List.flatMap_cons, hself, ← body, List.singleton_append,
      List.singleton_append, List.cons_append, List.cons_append, undouble_pair hc, ih,
      undouble_pair hc]
    cases undouble cs with
    | none => rfl
    | some text =>
      cases undouble rest with
      | none => rfl
      | some after => simp [body, hself]
  | alone c cs hc hcs =>
    rw [body, List.flatMap_cons, encodeChar_brace hq hc, ← body, List.singleton_append,
      List.cons_append, undouble_alone hc (head_body hq hc hcs rest), undouble_alone hc hcs]
    rfl

/-- The quote that a text is put in does not depend on braces. -/
theorem quoteFor_undouble {cs text : List Char} (h : undouble cs = some text) :
    quoteFor text = quoteFor cs := by
  have hmem : ∀ c, ¬IsBrace c → text.contains c = cs.contains c := fun c hc => by
    rw [Bool.eq_iff_iff, List.contains_iff_mem, List.contains_iff_mem, mem_undouble hc h]
  unfold quoteFor
  rw [hmem '\'' (by decide), hmem '"' (by decide)]

/-- **Quoting and undoubling can be done in either order.** -/
theorem undouble_encode (cs rest : List Char) : undouble (encode cs ++ rest) =
    (undouble cs).bind fun text => (undouble rest).map (encode text ++ ·) := by
  have hq := quoteFor_eq cs
  simp only [encode, List.cons_append, List.append_assoc, List.nil_append]
  rw [undouble_cons (not_isBrace_quote hq), undouble_body hq]
  cases htext : undouble cs with
  | none => rfl
  | some text =>
    rw [Option.bind_some, Option.bind_some, quoteFor_undouble htext, Option.map_map]
    rfl

end Quoting

end Template

/-- A text in quotes is one literal. -/
theorem Quoted.literal_encode (cs : List Char) : Quoted.Literal (Quoted.encode cs) := by
  have hread := Quoted.decodeBody_body (Quoted.quoteFor_eq cs) cs []
  refine ⟨cs, ?_⟩
  simp only [Quoted.encode]
  rcases Quoted.quoteFor_eq cs with hq | hq
  · rw [hq] at hread ⊢
    exact hread
  · rw [hq] at hread ⊢
    exact hread

end Text

/-! ## 4. Variables -/

namespace Symbol

/-- The key that the text of a variable looks up: its name, with single braces for doubled ones. -/
def key? (name : String) : Option String := (Text.Template.undouble name.toList).map String.ofList

theorem key?_plain {name : String} (h : Text.Quoted.Plain name.toList) : key? name = some name := by
  rw [key?, Text.Template.undouble_plain h, Option.map_some, String.ofList_toList]

/-- A key is the name itself, which has no braces then, or it is shorter and has some. -/
theorem key?_shorter {name key : String} (h : key? name = some key) :
    Text.Quoted.Plain name.toList ∧ key = name ∨
      ¬Text.Quoted.Plain key.toList ∧ key.toList.length < name.toList.length := by
  obtain ⟨text, htext, rfl⟩ := Option.map_eq_some_iff.mp h
  rw [String.toList_ofList]
  rcases Text.Template.undouble_shorter htext with ⟨hplain, rfl⟩ | hshorter
  · exact .inl ⟨hplain, String.ofList_toList⟩
  · exact .inr hshorter

theorem toList_variableText (name : String) : (variableText name).toList =
    "variables[".toList ++ (Text.Quoted.encode name.toList ++ [']']) := by
  simp [variableText, Text.Quoted.quote]

theorem undouble_variableText (name : String) :
    Text.Template.undouble (variableText name).toList =
      (key? name).map fun key => (variableText key).toList := by
  have hopen : Text.Quoted.Plain "variables[".toList := ⟨by decide, by decide⟩
  have hclose : Text.Template.undouble [']'] = some [']'] := by decide
  rw [toList_variableText, Text.Template.undouble_append_plain hopen,
    Text.Template.undouble_encode, key?, hclose]
  cases Text.Template.undouble name.toList with
  | none => rfl
  | some text => simp [toList_variableText]

/-- **What is written for a variable is the text of the variable that its key names**; nothing is
written if the name has a brace that stands alone. -/
theorem emit_forVariable_iff {name : String} {text : List Char} :
    (forVariable name).emit [] = .ok text ↔
      ∃ key, key? name = some key ∧ text = (variableText key).toList := by
  have hemit : (forVariable name).emit [] =
      (Text.Template.fill (variableText name).toList []).mapError .ofTemplate := rfl
  have hok : (forVariable name).emit [] = .ok text ↔
      Text.Template.fill (variableText name).toList [] = .ok text := by
    rw [hemit]
    cases Text.Template.fill (variableText name).toList [] with
    | ok other => constructor <;> (rintro ⟨⟩; rfl)
    | error fault => constructor <;> rintro ⟨⟩
  rw [hok, Text.Template.fill_nil_iff, undouble_variableText, Option.map_eq_some_iff]
  simp only [eq_comm]

end Symbol
end FormulaEvolution
