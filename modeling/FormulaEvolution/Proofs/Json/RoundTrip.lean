/-
# Documents read back

A document whose objects have no field name twice is read back from its text (`read_write`).

The text of a value ends with the document, before a comma or before a new line, and no number
goes on there; so what a value is read as does not depend on what stands behind it.  Every value
begins with a character that is no blank, and blanks are skipped in front of it.  The fuel of the
reader outlasts the text: an item of a list is read with one less than the list, and takes at
least the opening bracket less.
-/
import FormulaEvolution.Proofs.Json.Leaves

namespace FormulaEvolution
namespace Json

/-! ## 1. Field names -/

mutual

/-- No object in a value has two fields of one name. -/
def Distinct : Json → Prop
  | .list items => DistinctItems items
  | .object fields => (fields.map (·.1)).Nodup ∧ DistinctFields fields
  | _ => True

/-- No object in the items of a list has two fields of one name. -/
def DistinctItems : List Json → Prop
  | [] => True
  | item :: items => Distinct item ∧ DistinctItems items

/-- No object in the values of fields has two fields of one name. -/
def DistinctFields : List (String × Json) → Prop
  | [] => True
  | (_, value) :: fields => Distinct value ∧ DistinctFields fields

end

/-! ## 2. Blanks -/

/-- A character that a value may begin with. -/
def begins (c : Char) : Bool :=
  c.isDigit || ['-', 'n', 't', 'f', 'N', 'I', '"', '[', '\x7b'].contains c

theorem begins_plain {c : Char} (h : begins c = true) :
    (c = ' ' || c = '\t' || c = '\n' || c = '\r') = false ∧ c ≠ ']' ∧ c ≠ '\uFEFF' := by
  simp only [begins, Bool.or_eq_true, List.contains_iff_mem, List.mem_cons, List.not_mem_nil,
    or_false] at h
  rcases h with hdigit | rfl | rfl | rfl | rfl | rfl | rfl | rfl | rfl | rfl
  · exact Token.of_isDigit hdigit (by decide)
  all_goals decide

/-- Nothing is skipped in front of a character that is no blank. -/
theorem skip_cons {c : Char} (h : (c = ' ' || c = '\t' || c = '\n' || c = '\r') = false)
    (cs : List Char) : skip (c :: cs) = c :: cs := by
  rw [skip, List.dropWhile_cons_of_neg (by simp [h])]

/-- A new line and its indentation are skipped. -/
theorem skip_lineAt (level : Nat) (cs : List Char) : skip (lineAt level ++ cs) = skip cs := by
  rw [skip, skip, List.dropWhile_append_of_pos]
  intro c hc
  rcases List.mem_cons.mp hc with rfl | hc
  · decide
  · rw [List.eq_of_mem_replicate hc]
    decide

theorem withSign_begins (negative : Bool) {ds : List Char} (hds : Number.AreDigits ds)
    (rest : List Char) : ∃ c cs, withSign negative (ds ++ rest) = c :: cs ∧ begins c = true := by
  obtain ⟨c, cs, rfl⟩ := List.exists_cons_of_ne_nil hds.1
  cases negative with
  | true => exact ⟨_, _, rfl, by decide⟩
  | false => exact ⟨_, _, rfl, by simp [begins, hds.2 c List.mem_cons_self]⟩

theorem floatText_begins (x : Float) :
    ∃ c cs, (floatText x).toList = c :: cs ∧ begins c = true := by
  match hx : Number.decode x with
  | .nan => exact ⟨_, _, by simp only [floatText, hx]; rfl, by decide⟩
  | .infinite true => exact ⟨_, _, by simp only [floatText, hx]; rfl, by decide⟩
  | .infinite false => exact ⟨_, _, by simp only [floatText, hx]; rfl, by decide⟩
  | .finite negative m q =>
    obtain ⟨n, scientific, d, hspells, -, htext, -⟩ := exactText_leads hx
    have hlist : (floatText x).toList = withSign negative (Number.numeralText n scientific) := by
      simp only [floatText, hx, htext, Number.signed, String.toList_ofList]
      rfl
    rw [hlist]
    exact withSign_begins negative hspells.whole _

theorem bracketed_begins (opening closing : Char) (level : Nat) (items : List (List Char)) :
    ∃ cs, bracketed opening closing level items = opening :: cs := by
  cases items with
  | nil => exact ⟨_, rfl⟩
  | cons item items => exact ⟨_, rfl⟩

/-- **The text of a value begins with a character of its kind**, and so with no blank. -/
theorem chars_begins (level : Nat) (v : Json) :
    ∃ c cs, chars level v = c :: cs ∧ begins c = true := by
  cases v with
  | null => exact ⟨_, _, rfl, by decide⟩
  | bool b => cases b <;> exact ⟨_, _, rfl, by decide⟩
  | int n =>
    have h := withSign_begins (decide (n < 0)) (Number.areDigits_toDigits n.natAbs) []
    rw [List.append_nil] at h
    rwa [chars, toString_int]
  | float x => exact floatText_begins x
  | string s => exact ⟨_, _, rfl, by decide⟩
  | list items =>
    obtain ⟨cs, hcs⟩ := bracketed_begins '[' ']' level (itemChars (level + 1) items)
    exact ⟨_, cs, hcs, by decide⟩
  | object fields =>
    obtain ⟨cs, hcs⟩ := bracketed_begins '\x7b' '\x7d' level (fieldChars (level + 1) fields)
    exact ⟨_, cs, hcs, by decide⟩

/-- Blanks in front of a value are skipped. -/
theorem skip_chars (level : Nat) (v : Json) (rest : List Char) :
    skip (chars level v ++ rest) = chars level v ++ rest := by
  obtain ⟨c, cs, hcs, hbegins⟩ := chars_begins level v
  rw [hcs]
  exact skip_cons (begins_plain hbegins).1 _

/-! ## 3. One step of the reader -/

section Steps

variable {fuel level outer : Nat} {rest : List Char}

/-- What is neither a string nor a list nor an object is read as a word or a number. -/
theorem takeValue_leaf {cs : List Char} {found : Json × List Char}
    (h : (takeWord? cs).or (takeNumber? cs) = some found) : takeValue (fuel + 1) cs = .ok found := by
  rw [takeValue]
  · rw [h]
  · rintro tail rfl
    cases h
  · rintro tail rfl
    cases h
  · rintro tail rfl
    cases h

/-- The last item of a list. -/
theorem takeItems_last {text : List Char} {item : Json}
    (hitem : takeValue fuel (text ++ (lineAt outer ++ ']' :: rest)) =
      .ok (item, lineAt outer ++ ']' :: rest)) :
    takeItems (fuel + 1) (text ++ (lineAt outer ++ ']' :: rest)) = .ok ([item], rest) := by
  have hskip : skip (lineAt outer ++ ']' :: rest) = ']' :: rest := by
    rw [skip_lineAt, skip_cons (by decide)]
  rw [takeItems, hitem]
  simp only [hskip, bind, Except.bind]
  rfl

/-- An item of a list and those behind it. -/
theorem takeItems_more {text more : List Char} {item : Json} {items : List Json}
    (hitem : takeValue fuel (text ++ ',' :: (lineAt level ++ more)) =
      .ok (item, ',' :: (lineAt level ++ more))) (hskip : skip more = more)
    (hitems : takeItems fuel more = .ok (items, rest)) :
    takeItems (fuel + 1) (text ++ ',' :: (lineAt level ++ more)) = .ok (item :: items, rest) := by
  have hcomma : skip (',' :: (lineAt level ++ more)) = ',' :: (lineAt level ++ more) :=
    skip_cons (by decide) _
  rw [takeItems, hitem]
  simp only [hcomma, skip_lineAt, hskip, hitems, bind, Except.bind]
  rfl

/-- The items of a list in their brackets. -/
theorem takeValue_list {text : List Char} {items : List Json} (hskip : skip text = text)
    (hopen : ∀ tail, text ≠ ']' :: tail) (hitems : takeItems fuel text = .ok (items, rest)) :
    takeValue (fuel + 1) ('[' :: (lineAt level ++ text)) = .ok (.list items, rest) := by
  rw [takeValue, skip_lineAt, hskip]
  split
  · next _ tail => exact absurd rfl (hopen tail)
  · rw [hitems]
    rfl

/-- The fields of an object in their braces. -/
theorem takeValue_object {text : List Char} {fields : List (String × Json)}
    (hskip : skip text = text) (hopen : ∀ tail, text ≠ '\x7d' :: tail)
    (hfields : takeFields fuel [] text = .ok (fields, rest)) :
    takeValue (fuel + 1) ('\x7b' :: (lineAt level ++ text)) = .ok (.object fields, rest) := by
  rw [takeValue, skip_lineAt, hskip]
  split
  · next _ tail => exact absurd rfl (hopen tail)
  · rw [hfields]
    rfl

/-- A field up to its value: the name is bound and the reader goes on behind the value. -/
theorem takeFields_field {text behind : List Char} {name : String} {value : Json}
    {fields : List (String × Json)} (hskip : skip text = text)
    (hvalue : takeValue fuel text = .ok (value, behind)) :
    takeFields (fuel + 1) fields (quoteText name ++ ':' :: ' ' :: text) =
      match skip behind with
      | '\x7d' :: rest => .ok (Dictionary.bind name value fields, rest)
      | ',' :: rest => takeFields fuel (Dictionary.bind name value fields) (skip rest)
      | rest => .error ⟨.comma, rest.length⟩ := by
  obtain ⟨body, hbody, hname⟩ := takeString_quoteText name (':' :: ' ' :: text)
  have hcolon : skip (':' :: ' ' :: text) = ':' :: ' ' :: text := skip_cons (by decide) _
  have hblank : skip (' ' :: text) = text := hskip
  rw [hbody, takeFields, hname]
  simp only [hcolon, hblank, hvalue, bind, Except.bind, String.ofList_toList]
  rfl

end Steps

/-! ## 4. Values -/

theorem ended_nil : Ended [] := by
  rintro c ⟨⟩

theorem ended_lineAt (level : Nat) (rest : List Char) : Ended (lineAt level ++ rest) := by
  rintro c ⟨⟩
  exact .inr rfl

theorem ended_comma (rest : List Char) : Ended (',' :: rest) := by
  rintro c ⟨⟩
  exact .inl rfl

/-- The items of a list as they stand between its brackets. -/
def itemsText (level : Nat) (items : List Json) : List Char :=
  List.intercalate (',' :: lineAt level) (itemChars level items)

/-- The fields of an object as they stand between its braces. -/
def fieldsText (level : Nat) (fields : List (String × Json)) : List Char :=
  List.intercalate (',' :: lineAt level) (fieldChars level fields)

theorem itemsText_cons_cons (level : Nat) (item next : Json) (items : List Json) :
    itemsText level (item :: next :: items) =
      chars level item ++ ',' :: (lineAt level ++ itemsText level (next :: items)) := by
  rw [itemsText, itemsText, itemChars, itemChars, List.intercalate_cons_cons]
  simp

theorem fieldsText_cons_cons (level : Nat) (name : String) (value : Json)
    (next : String × Json) (fields : List (String × Json)) :
    fieldsText level ((name, value) :: next :: fields) = quoteText name ++ ':' :: ' ' ::
      (chars level value ++ ',' :: (lineAt level ++ fieldsText level (next :: fields))) := by
  rw [fieldsText, fieldsText, fieldChars, fieldChars, List.intercalate_cons_cons]
  simp

theorem chars_list (level : Nat) (item : Json) (items : List Json) (rest : List Char) :
    chars level (.list (item :: items)) ++ rest = '[' :: (lineAt (level + 1) ++
      (itemsText (level + 1) (item :: items) ++ (lineAt level ++ ']' :: rest))) := by
  rw [chars, itemsText, itemChars, bracketed]
  · simp
  · simp

theorem chars_object (level : Nat) (field : String × Json) (fields : List (String × Json))
    (rest : List Char) :
    chars level (.object (field :: fields)) ++ rest = '\x7b' :: (lineAt (level + 1) ++
      (fieldsText (level + 1) (field :: fields) ++ (lineAt level ++ '\x7d' :: rest))) := by
  rw [chars, fieldsText, fieldChars, bracketed]
  · simp
  · simp

/-- The items of a list begin as its first item does. -/
theorem itemsText_begins (level : Nat) (item : Json) (items : List Json) (rest : List Char) :
    ∃ c cs, itemsText level (item :: items) ++ rest = c :: cs ∧ begins c = true := by
  obtain ⟨c, cs, hcs, hbegins⟩ := chars_begins level item
  cases items with
  | nil => exact ⟨c, cs ++ rest, by simp [itemsText, itemChars, hcs], hbegins⟩
  | cons next items =>
    rw [itemsText_cons_cons, hcs]
    exact ⟨c, _, rfl, hbegins⟩

/-- The fields of an object begin with a quote. -/
theorem fieldsText_begins (level : Nat) (field : String × Json) (fields : List (String × Json))
    (rest : List Char) : ∃ cs, fieldsText level (field :: fields) ++ rest = '"' :: cs := by
  obtain ⟨name, value⟩ := field
  cases fields with
  | nil => exact ⟨_, by simp [fieldsText, fieldChars, quoteText]; rfl⟩
  | cons next fields =>
    rw [fieldsText_cons_cons]
    exact ⟨_, rfl⟩

/-- A name that is new is bound behind the others. -/
theorem bind_new {name : String} {fields : List (String × Json)}
    (h : name ∉ fields.map (·.1)) (value : Json) :
    Dictionary.bind name value fields = fields ++ [(name, value)] := by
  induction fields with
  | nil => rfl
  | cons field fields ih =>
    obtain ⟨n, v⟩ := field
    rw [List.map_cons, List.mem_cons, not_or] at h
    have hne : ¬ n = name := fun he => h.1 he.symm
    rw [Dictionary.bind, if_neg hne, ih h.2]
    rfl

theorem not_mem_of_nodup {name : String} {value : Json} {before after : List (String × Json)}
    (h : ((before ++ (name, value) :: after).map (·.1)).Nodup) : name ∉ before.map (·.1) := by
  rw [List.map_append, List.map_cons] at h
  exact fun hmem => (List.nodup_append.mp h).2.2 name hmem name List.mem_cons_self rfl

mutual

/-- A value is read back from its text, whatever ends it. -/
theorem takeValue_chars (v : Json) (hv : Distinct v) (level : Nat) {fuel : Nat} {rest : List Char}
    (hrest : Ended rest) (hfuel : (chars level v ++ rest).length < fuel) :
    takeValue fuel (chars level v ++ rest) = .ok (v, rest) := by
  obtain ⟨fuel, rfl⟩ := Nat.exists_eq_succ_of_ne_zero (Nat.ne_zero_of_lt hfuel)
  match v with
  | .null =>
    have hword : ("null".toList, Json.null) ∈ words := by simp [words]
    exact takeValue_leaf (by rw [chars, takeWord_word hword, Option.some_or])
  | .bool true =>
    have hword : ("true".toList, Json.bool true) ∈ words := by simp [words]
    exact takeValue_leaf (by rw [chars, if_pos rfl, takeWord_word hword, Option.some_or])
  | .bool false =>
    have hword : ("false".toList, Json.bool false) ∈ words := by simp [words]
    exact takeValue_leaf (by rw [chars, if_neg (by decide), takeWord_word hword, Option.some_or])
  | .int n => exact takeValue_leaf (takeLeaf_int n hrest)
  | .float x => exact takeValue_leaf (takeLeaf_float x hrest)
  | .string s =>
    obtain ⟨body, hbody, hread⟩ := takeString_quoteText s rest
    rw [chars, hbody, takeValue, hread]
    simp only [bind, Except.bind, String.ofList_toList]
    rfl
  | .list [] => rfl
  | .list (item :: items) =>
    rw [chars_list] at hfuel ⊢
    obtain ⟨c, cs, hcs, hbegins⟩ := itemsText_begins (level + 1) item items
      (lineAt level ++ ']' :: rest)
    have hplain := begins_plain hbegins
    refine takeValue_list ?_ ?_ ?_
    · rw [hcs]
      exact skip_cons hplain.1 cs
    · rintro tail htail
      rw [hcs] at htail
      exact hplain.2.1 (List.cons.inj htail).1
    · refine takeItems_chars (item :: items) (by simp) hv (level + 1) level ?_
      rw [List.length_cons, List.length_append, lineAt, List.length_cons] at hfuel
      omega
  | .object [] => rfl
  | .object (field :: fields) =>
    rw [chars_object] at hfuel ⊢
    obtain ⟨cs, hcs⟩ := fieldsText_begins (level + 1) field fields (lineAt level ++ '\x7d' :: rest)
    refine takeValue_object ?_ ?_ ?_
    · rw [hcs]
      exact skip_cons (by decide) cs
    · rintro tail htail
      rw [hcs] at htail
      exact absurd (List.cons.inj htail).1 (by decide)
    · refine takeFields_chars (field :: fields) (by simp) hv.2 [] (by simpa using hv.1) (level + 1)
        level ?_
      rw [List.length_cons, List.length_append, lineAt, List.length_cons] at hfuel
      omega

/-- The items of a list are read back up to its closing bracket. -/
theorem takeItems_chars (items : List Json) (hne : items ≠ []) (hitems : DistinctItems items)
    (level outer : Nat) {fuel : Nat} {rest : List Char}
    (hfuel : (itemsText level items ++ (lineAt outer ++ ']' :: rest)).length + 1 < fuel) :
    takeItems fuel (itemsText level items ++ (lineAt outer ++ ']' :: rest)) =
      .ok (items, rest) := by
  obtain ⟨fuel, rfl⟩ := Nat.exists_eq_succ_of_ne_zero (Nat.ne_zero_of_lt hfuel)
  match items with
  | [] => exact absurd rfl hne
  | [item] =>
    have htext : itemsText level [item] = chars level item := by simp [itemsText, itemChars]
    rw [htext] at hfuel ⊢
    exact takeItems_last (takeValue_chars item hitems.1 level (ended_lineAt outer _) (by omega))
  | item :: next :: items =>
    rw [itemsText_cons_cons, List.append_assoc, List.cons_append, List.append_assoc] at hfuel ⊢
    obtain ⟨c, cs, hcs, hbegins⟩ := itemsText_begins level next items (lineAt outer ++ ']' :: rest)
    refine takeItems_more (takeValue_chars item hitems.1 level (ended_comma _) (by omega)) ?_ ?_
    · rw [hcs]
      exact skip_cons (begins_plain hbegins).1 cs
    · refine takeItems_chars (next :: items) (by simp) hitems.2 level outer ?_
      rw [List.length_append, List.length_cons, List.length_append, lineAt, List.length_cons]
        at hfuel
      omega

/-- The fields of an object are read back behind those already there, up to its closing brace. -/
theorem takeFields_chars (fields : List (String × Json)) (hne : fields ≠ [])
    (hfields : DistinctFields fields) (before : List (String × Json))
    (hnew : ((before ++ fields).map (·.1)).Nodup) (level outer : Nat) {fuel : Nat}
    {rest : List Char}
    (hfuel : (fieldsText level fields ++ (lineAt outer ++ '\x7d' :: rest)).length + 1 < fuel) :
    takeFields fuel before (fieldsText level fields ++ (lineAt outer ++ '\x7d' :: rest)) =
      .ok (before ++ fields, rest) := by
  obtain ⟨fuel, rfl⟩ := Nat.exists_eq_succ_of_ne_zero (Nat.ne_zero_of_lt hfuel)
  match fields with
  | [] => exact absurd rfl hne
  | [(name, value)] =>
    have hbind := bind_new (not_mem_of_nodup hnew) value
    have hskip : skip (lineAt outer ++ '\x7d' :: rest) = '\x7d' :: rest := by
      rw [skip_lineAt, skip_cons (by decide)]
    have htext : fieldsText level [(name, value)] =
        quoteText name ++ ':' :: ' ' :: chars level value := by
      simp [fieldsText, fieldChars]
    rw [htext, List.append_assoc, List.cons_append, List.cons_append] at hfuel ⊢
    rw [List.length_append, List.length_cons, List.length_cons] at hfuel
    rw [takeFields_field (skip_chars level value _)
      (takeValue_chars value hfields.1 level (ended_lineAt outer _) (by omega)), hskip, hbind]
    rfl
  | (name, value) :: next :: fields =>
    have hbind := bind_new (not_mem_of_nodup hnew) value
    have hskip : ∀ text, skip (',' :: text) = ',' :: text := skip_cons (by decide)
    obtain ⟨cs, hcs⟩ := fieldsText_begins level next fields (lineAt outer ++ '\x7d' :: rest)
    rw [fieldsText_cons_cons, List.append_assoc, List.cons_append, List.cons_append,
      List.append_assoc, List.cons_append, List.append_assoc] at hfuel ⊢
    rw [List.length_append, List.length_cons, List.length_cons] at hfuel
    rw [takeFields_field (skip_chars level value _)
      (takeValue_chars value hfields.1 level (ended_comma _) (by omega)), hskip, hbind]
    simp only [skip_lineAt]
    have hmore : before ++ (name, value) :: next :: fields =
        (before ++ [(name, value)]) ++ next :: fields := by simp
    rw [hcs, skip_cons (by decide), ← hcs, hmore]
    refine takeFields_chars (next :: fields) (by simp) hfields.2 (before ++ [(name, value)])
      (by rwa [← hmore]) level outer ?_
    rw [List.length_append, List.length_cons, List.length_append, lineAt, List.length_cons]
      at hfuel
    omega

end

/-! ## 5. Documents -/

/-- **A document without repeated field names is read back from its text.** -/
theorem read_write {v : Json} (hv : Distinct v) : read v.write = .ok v := by
  obtain ⟨c, cs, hcs, hbegins⟩ := chars_begins 0 v
  obtain ⟨hblank, -, hmark⟩ := begins_plain hbegins
  have hskip : skip (chars 0 v) = chars 0 v := by
    rw [hcs]
    exact skip_cons hblank cs
  have hvalue : takeValue ((chars 0 v).length + 1) (chars 0 v ++ []) = .ok (v, []) :=
    takeValue_chars v hv 0 ended_nil (by simp)
  rw [List.append_nil] at hvalue
  have hread : readChars (chars 0 v) = .ok v := by
    rw [readChars, hskip, hvalue, if_neg (by rw [hcs]; simpa using hmark)]
    rfl
  rw [read, write, String.toList_ofList, hread]
  rfl

end Json
end FormulaEvolution
