/-
# Documents are plain text

The text of a document has line feeds and printable ASCII in it and nothing else (`ascii_chars`): every
other character of a string is written by its code.  So a document does not change when the ends of
its lines are made alike (`normalizeLines_write`), which is what reading a file as text does.
-/
import FormulaEvolution.Proofs.Json.Leaves
import FormulaEvolution.Text.Blank

namespace FormulaEvolution

/-- A text without carriage returns keeps its lines. -/
theorem Text.normalizeLines_of_not_mem {cs : List Char} (h : '\r' ∉ cs) :
    normalizeLines cs = cs := by
  induction cs using normalizeLines.induct with
  | case1 cs ih => exact absurd List.mem_cons_self h
  | case2 cs hnot ih => exact absurd List.mem_cons_self h
  | case3 c cs hpair hsingle ih =>
    rw [normalizeLines, ih fun hmem => h (List.mem_cons_of_mem c hmem)]
    · exact hpair
    · exact hsingle
  | case4 => rfl

namespace Json

/-! ## 1. Leaves -/

/-- A character that documents are written with. -/
def Ascii (c : Char) : Prop := c = '\n' ∨ (0x20 ≤ c.toNat ∧ c.toNat ≤ 0x7E)

instance (c : Char) : Decidable (Ascii c) := inferInstanceAs (Decidable (_ ∨ _))

theorem ascii_of_all {cs : List Char} (h : (cs.all fun c => decide (Ascii c)) = true) :
    ∀ c ∈ cs, Ascii c := by
  simpa only [List.all_eq_true, decide_eq_true_eq] using h

theorem ascii_of_isDigit {c : Char} (h : c.isDigit = true) : Ascii c := by
  have hdigit : 48 ≤ c.toNat ∧ c.toNat ≤ 57 := by
    simpa [Char.isDigit, UInt32.le_iff_toNat_le] using h
  exact .inr ⟨by omega, by omega⟩

theorem ascii_hex (width n : Nat) : ∀ c ∈ Text.Quoted.hex width n, Ascii c := by
  have hdigits : ∀ i : Fin 16, Ascii (Nat.digitChar i.val) := by decide
  induction width generalizing n with
  | zero => simp [Text.Quoted.hex]
  | succ width ih =>
    intro c hc
    rcases List.mem_append.mp hc with hc | hc
    · exact ih _ c hc
    · obtain rfl := List.mem_singleton.mp hc
      exact hdigits ⟨n % 16, Nat.mod_lt n (by decide)⟩

theorem ascii_unitEscape (n : Nat) : ∀ c ∈ unitEscape n, Ascii c := by
  intro c hc
  rcases List.mem_cons.mp hc with rfl | hc
  · decide
  · rcases List.mem_cons.mp hc with rfl | hc
    · decide
    · exact ascii_hex 4 n c hc

/-- **A character of a string is written in ASCII.** -/
theorem ascii_escape (c : Char) : ∀ d ∈ escape c, Ascii d := by
  have hpair : ∀ letter : Char, Ascii letter → ∀ d ∈ ['\\', letter], Ascii d := by
    intro letter hletter d hd
    rcases List.mem_cons.mp hd with rfl | hd
    · decide
    · exact List.mem_singleton.mp hd ▸ hletter
  unfold escape
  simp only [Bool.or_eq_true, Bool.and_eq_true, decide_eq_true_eq]
  split
  · next hquote => exact hpair c (by rcases hquote with rfl | rfl <;> decide)
  split
  · exact hpair 'n' (by decide)
  split
  · exact hpair 'r' (by decide)
  split
  · exact hpair 't' (by decide)
  split
  · exact hpair 'b' (by decide)
  split
  · exact hpair 'f' (by decide)
  split
  · next hprintable =>
    intro d hd
    exact List.mem_singleton.mp hd ▸ .inr hprintable
  split
  · exact ascii_unitEscape _
  · intro d hd
    rcases List.mem_append.mp hd with hd | hd
    · exact ascii_unitEscape _ d hd
    · exact ascii_unitEscape _ d hd

theorem ascii_quoteText (s : String) : ∀ c ∈ quoteText s, Ascii c := by
  intro c hc
  rcases List.mem_cons.mp hc with rfl | hc
  · decide
  · rcases List.mem_append.mp hc with hc | hc
    · obtain ⟨d, -, hd⟩ := List.mem_flatMap.mp hc
      exact ascii_escape d c hd
    · obtain rfl := List.mem_singleton.mp hc
      decide

theorem ascii_withSign (negative : Bool) {text : List Char} (h : ∀ c ∈ text, Ascii c) :
    ∀ c ∈ withSign negative text, Ascii c := by
  cases negative with
  | false => exact h
  | true =>
    intro c hc
    rcases List.mem_cons.mp hc with rfl | hc
    · decide
    · exact h c hc

theorem ascii_exponentText (e : Int) : ∀ c ∈ Number.exponentText e, Ascii c := by
  have hdigits : ∀ c ∈ Nat.toDigits 10 e.natAbs, Ascii c := fun c hc =>
    ascii_of_isDigit ((Number.areDigits_toDigits e.natAbs).2 c hc)
  intro c hc
  rcases List.mem_cons.mp hc with rfl | hc
  · decide
  rcases List.mem_cons.mp hc with rfl | hc
  · split <;> decide
  split at hc
  · rcases List.mem_cons.mp hc with rfl | hc
    · decide
    · exact hdigits c hc
  · exact hdigits c hc

/-- A numeral is digits, a point and an exponent. -/
theorem ascii_numeralText {n : Number.Numeral} {scientific : Bool} {d : Number.Decimal}
    (h : Number.Spells n scientific d) : ∀ c ∈ Number.numeralText n scientific, Ascii c := by
  intro c hc
  rcases List.mem_append.mp hc with hc | hc
  · exact ascii_of_isDigit (h.whole.2 c hc)
  rcases List.mem_append.mp hc with hc | hc
  · split at hc
    · cases hc
    · rcases List.mem_cons.mp hc with rfl | hc
      · decide
      · exact ascii_of_isDigit (h.fraction c hc)
  · split at hc
    · exact ascii_exponentText _ c hc
    · cases hc

theorem ascii_floatText (x : Float) : ∀ c ∈ (floatText x).toList, Ascii c := by
  match hx : Number.decode x with
  | .nan => simp only [floatText, hx]; exact ascii_of_all (by decide)
  | .infinite true => simp only [floatText, hx]; exact ascii_of_all (by decide)
  | .infinite false => simp only [floatText, hx]; exact ascii_of_all (by decide)
  | .finite negative m q =>
    obtain ⟨n, scientific, d, hspells, -, htext, -⟩ := exactText_leads hx
    have hlist : (floatText x).toList = withSign negative (Number.numeralText n scientific) := by
      simp only [floatText, hx, htext, Number.signed, String.toList_ofList]
      rfl
    rw [hlist]
    exact ascii_withSign negative (ascii_numeralText hspells)

/-! ## 2. Values -/

theorem ascii_lineAt (level : Nat) : ∀ c ∈ lineAt level, Ascii c := by
  intro c hc
  rcases List.mem_cons.mp hc with rfl | hc
  · decide
  · rw [List.eq_of_mem_replicate hc]
    decide

/-- Items with a separator between them consist of what they and the separator consist of. -/
theorem ascii_intercalate {separator : List Char} (hseparator : ∀ c ∈ separator, Ascii c) :
    ∀ {items : List (List Char)}, (∀ item ∈ items, ∀ c ∈ item, Ascii c) →
      ∀ c ∈ List.intercalate separator items, Ascii c
  | [], _ => by simp
  | [item], h => by simpa using h
  | item :: next :: items, h => by
    intro c hc
    rw [List.intercalate_cons_cons] at hc
    simp only [List.mem_append] at hc
    rcases hc with (hc | hc) | hc
    · exact h item List.mem_cons_self c hc
    · exact hseparator c hc
    · exact ascii_intercalate hseparator (fun i hi => h i (List.mem_cons_of_mem item hi)) c hc

theorem ascii_bracketed {opening closing : Char} (ho : Ascii opening) (hc : Ascii closing)
    (level : Nat) {items : List (List Char)} (h : ∀ item ∈ items, ∀ c ∈ item, Ascii c) :
    ∀ c ∈ bracketed opening closing level items, Ascii c := by
  have hline := ascii_lineAt (level + 1)
  have hitems : ∀ c ∈ List.intercalate (',' :: lineAt (level + 1)) items, Ascii c :=
    ascii_intercalate (List.forall_mem_cons.mpr ⟨by decide, hline⟩) h
  cases items with
  | nil => simpa [bracketed] using ⟨ho, hc⟩
  | cons item items =>
    intro c hmem
    rw [bracketed] at hmem
    · simp only [List.mem_cons, List.mem_append, List.not_mem_nil, or_false] at hmem
      rcases hmem with rfl | ((hmem | hmem) | hmem) | rfl
      · exact ho
      · exact hline c hmem
      · exact hitems c hmem
      · exact ascii_lineAt level c hmem
      · exact hc
    · exact List.cons_ne_nil _ _

mutual

/-- **A document is written in ASCII.** -/
theorem ascii_chars : ∀ (level : Nat) (v : Json), ∀ c ∈ chars level v, Ascii c
  | _, .null => by rw [chars]; exact ascii_of_all (by decide)
  | _, .bool true => by rw [chars]; exact ascii_of_all (by decide)
  | _, .bool false => by rw [chars]; exact ascii_of_all (by decide)
  | _, .int n => by
    have hdigits : ∀ c ∈ Nat.toDigits 10 n.natAbs, Ascii c := fun c hc =>
      ascii_of_isDigit ((Number.areDigits_toDigits n.natAbs).2 c hc)
    rw [chars, toString_int]
    exact ascii_withSign _ hdigits
  | _, .float x => by rw [chars]; exact ascii_floatText x
  | _, .string s => by rw [chars]; exact ascii_quoteText s
  | level, .list items => by
    rw [chars]
    exact ascii_bracketed (by decide) (by decide) level (ascii_itemChars (level + 1) items)
  | level, .object fields => by
    rw [chars]
    exact ascii_bracketed (by decide) (by decide) level (ascii_fieldChars (level + 1) fields)

theorem ascii_itemChars : ∀ (level : Nat) (items : List Json),
    ∀ text ∈ itemChars level items, ∀ c ∈ text, Ascii c
  | _, [], text, h => by
    rw [itemChars] at h
    cases h
  | level, item :: items, text, h => by
    rw [itemChars] at h
    rcases List.mem_cons.mp h with rfl | h
    · exact ascii_chars level item
    · exact ascii_itemChars level items text h

theorem ascii_fieldChars : ∀ (level : Nat) (fields : List (String × Json)),
    ∀ text ∈ fieldChars level fields, ∀ c ∈ text, Ascii c
  | _, [], text, h => by
    rw [fieldChars] at h
    cases h
  | level, (name, value) :: fields, text, h => by
    rw [fieldChars] at h
    rcases List.mem_cons.mp h with rfl | h
    · intro c hc
      rcases List.mem_append.mp hc with hc | hc
      · exact ascii_quoteText name c hc
      · rcases List.mem_cons.mp hc with rfl | hc
        · decide
        · rcases List.mem_cons.mp hc with rfl | hc
          · decide
          · exact ascii_chars level value c hc
    · exact ascii_fieldChars level fields text h

end

/-- **A document that is read as a text is what was written.** -/
theorem normalizeLines_write (v : Json) :
    String.ofList (Text.normalizeLines v.write.toList) = v.write := by
  have hreturn : '\r' ∉ v.write.toList := by
    intro hmem
    rw [write, String.toList_ofList] at hmem
    exact absurd (ascii_chars 0 v _ hmem) (by decide)
  rw [Text.normalizeLines_of_not_mem hreturn, String.ofList_toList]

end Json
end FormulaEvolution
