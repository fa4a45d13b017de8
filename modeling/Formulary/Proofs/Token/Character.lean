import Formulary.Token.Lexer

/-!
# Kinds of characters

A character is a blank, a digit, a character that a name starts with, or none
of them, and never two at once.  The separators of a convention are none of
them: what is reserved for another meaning cannot separate.

* `Convention.free_of_isSeparator` keeps separators apart from everything else;
* `Convention.classify_eq_undefined_iff` says which characters fit nowhere;
* `byteLength_toList` counts the bytes of a text.
-/

namespace Formulary

@[simp]
theorem byteLength_append (front rest : List Char) :
    byteLength (front ++ rest) = byteLength front + byteLength rest := by
  induction front with
  | nil => simp [byteLength]
  | cons c front ih => simp only [List.cons_append, byteLength, ih, Nat.add_assoc]

/-- The bytes of a text are those of its characters. -/
theorem utf8ByteSize_ofList (cs : List Char) :
    (String.ofList cs).utf8ByteSize = byteLength cs := by
  induction cs with
  | nil => rfl
  | cons c cs ih =>
    have happend : String.ofList (c :: cs) =
        String.singleton c ++ String.ofList cs := by
      rw [String.singleton_eq_ofList, ← String.ofList_append]
      rfl
    rw [happend, String.utf8ByteSize_append, String.utf8ByteSize_singleton, ih,
      byteLength]

theorem byteLength_toList (text : String) :
    byteLength text.toList = text.utf8ByteSize := by
  rw [← utf8ByteSize_ofList, String.ofList_toList]

theorem isBlank_iff {c : Char} :
    isBlank c ↔ c ∈ [' ', '\t', '\r', '\n'] := by
  simp [isBlank, or_assoc]

/-- No digit starts a name. -/
theorem startsName_of_isDigit {c : Char} (h : c.isDigit) :
    startsName c = false := by
  have hnine : c.toNat ≤ 57 := (Char.isDigit_iff_toNat.mp h).2
  have hbefore : ∀ letter : Char, 58 ≤ letter.toNat → ¬c.val ≥ letter.val := by
    intro letter hletter hle
    have hle : letter.toNat ≤ c.toNat := hle
    omega
  have hupper : c.isUpper = false :=
    decide_eq_false fun h => hbefore 'A' (by decide) h.1
  have hlower : c.isLower = false :=
    Bool.and_eq_false_iff.mpr
      (Or.inl (decide_eq_false (hbefore 'a' (by decide))))
  have hunderscore : c ≠ '_' := by
    intro heq
    rw [heq] at h
    exact absurd h (by decide)
  have halpha : c.isAlpha = false :=
    Bool.or_eq_false_iff.mpr ⟨hupper, hlower⟩
  simp only [startsName, halpha, beq_eq_false_iff_ne.mpr hunderscore,
    Bool.or_false]

/-- What starts a name is no digit. -/
theorem isDigit_of_startsName {c : Char} (h : startsName c) :
    c.isDigit = false := by
  rw [Bool.eq_false_iff]
  intro hdigit
  rw [startsName_of_isDigit hdigit] at h
  cases h

/-- Blanks and parentheses are neither digits nor characters of names. -/
theorem not_continuesName {c : Char}
    (h : c ∈ [' ', '\t', '\r', '\n', '(', ')']) :
    c.isDigit = false ∧ startsName c = false := by
  have hall : ∀ c ∈ [' ', '\t', '\r', '\n', '(', ')'],
      (!c.isDigit && !startsName c) = true := List.all_eq_true.mp (by decide)
  simpa using hall c h

/-- No blank is a digit or starts a name. -/
theorem not_continuesName_of_isBlank {c : Char} (h : isBlank c) :
    c.isDigit = false ∧ startsName c = false := by
  refine not_continuesName ?_
  exact List.mem_append_left ['(', ')'] (isBlank_iff.mp h)

/-- A name does not start with a blank. -/
theorem isBlank_of_startsName {c : Char} (h : startsName c) :
    isBlank c = false := by
  rw [Bool.eq_false_iff]
  intro hblank
  rw [(not_continuesName_of_isBlank hblank).2] at h
  cases h

/-- A digit is no blank. -/
theorem isBlank_of_isDigit {c : Char} (h : c.isDigit) : isBlank c = false := by
  rw [Bool.eq_false_iff]
  intro hblank
  rw [(not_continuesName_of_isBlank hblank).1] at h
  cases h

/-- What has no other meaning is no digit, starts no name, is no blank, and is
no symbol of the grammar. -/
theorem free_of_isReserved {c : Char} (h : isReserved c = false) :
    c.isDigit = false ∧ startsName c = false ∧ isBlank c = false ∧
      c ∉ reservedSymbols := by
  simp only [isReserved, Char.isAlphanum, Bool.or_eq_false_iff,
    beq_eq_false_iff_ne, List.contains_eq_mem, decide_eq_false_iff_not] at h
  obtain ⟨⟨⟨⟨halpha, hdigit⟩, hunderscore⟩, hwhite⟩, hsymbol⟩ := h
  refine ⟨hdigit, by simp [startsName, halpha, hunderscore], ?_, hsymbol⟩
  rw [Bool.eq_false_iff]
  intro hblank
  have hall : ∀ c ∈ [' ', '\t', '\r', '\n'], Text.isWhiteSpace c = true :=
    List.all_eq_true.mp (by decide)
  rw [hall c (isBlank_iff.mp hblank)] at hwhite
  cases hwhite

namespace Convention

variable {convention : Convention} {c : Char}

/-- A separator has no other meaning. -/
theorem free_of_isSeparator (h : convention.isSeparator c) :
    c.isDigit = false ∧ startsName c = false ∧ isBlank c = false ∧
      c ∉ reservedSymbols := by
  simp only [isSeparator, Bool.or_eq_true, beq_iff_eq] at h
  rcases h with rfl | rfl
  · exact free_of_isReserved convention.decimal_free
  · exact free_of_isReserved convention.group_free

/-- The characters that a number goes on with. -/
def continuesNumber (convention : Convention) (c : Char) : Bool :=
  c.isDigit || convention.isSeparator c

/-- The characters that a number starts with. -/
def startsNumber (convention : Convention) (c : Char) : Bool :=
  c.isDigit || c == convention.decimal

theorem continuesNumber_of_startsNumber (h : convention.startsNumber c) :
    convention.continuesNumber c := by
  simp only [startsNumber, continuesNumber, isSeparator, Bool.or_eq_true,
    beq_iff_eq] at h ⊢
  rcases h with h | h
  · exact Or.inl h
  · exact Or.inr (Or.inl h)

/-- No number goes on over a blank or the start of a name. -/
theorem continuesNumber_eq_false (h : isBlank c ∨ startsName c) :
    convention.continuesNumber c = false := by
  have hdigit : c.isDigit = false := by
    rcases h with h | h
    · exact (not_continuesName_of_isBlank h).1
    · exact isDigit_of_startsName h
  have hseparator : convention.isSeparator c = false := by
    rw [Bool.eq_false_iff]
    intro hseparator
    have hfree := free_of_isSeparator hseparator
    rcases h with h | h
    · rw [hfree.2.2.1] at h
      cases h
    · rw [hfree.2.1] at h
      cases h
  rw [continuesNumber, hdigit, hseparator, Bool.or_false]

/-- Whether a character neither ends a reading nor is a parenthesis. -/
structure Quiet (convention : Convention) (c : Char) : Prop where
  defined : convention.classify c ≠ .undefined
  not_opening : c ≠ '('
  not_closing : c ≠ ')'

/-- The characters that fit nowhere. -/
theorem classify_eq_undefined_iff :
    convention.classify c = .undefined ↔
      isBlank c = false ∧ convention.continuesNumber c = false ∧
        startsName c = false ∧ c ∉ delimiters := by
  by_cases hblank : isBlank c
  · simp [classify, hblank]
  by_cases hnumber : convention.continuesNumber c
  · have hdigit := hnumber
    rw [continuesNumber] at hdigit
    simp [classify, hblank, hdigit, hnumber]
  · have hdigit := hnumber
    rw [continuesNumber] at hdigit
    simp only [classify, hblank, hdigit, hnumber]
    split
    · simp_all
    · split <;> simp_all

/-- Everything but the delimiters is quiet where it fits. -/
theorem quiet (h : isBlank c ∨ convention.continuesNumber c ∨ startsName c) :
    Quiet convention c := by
  have hparenthesis : c ∉ ['(', ')'] := by
    intro hmem
    have hfree := not_continuesName
      (List.mem_append_right [' ', '\t', '\r', '\n'] hmem)
    have hall : ∀ c ∈ ['(', ')'],
        (!isBlank c && reservedSymbols.contains c) = true :=
      List.all_eq_true.mp (by decide)
    have hparenthesis := hall c hmem
    simp only [Bool.and_eq_true, Bool.not_eq_true', List.contains_iff_mem]
      at hparenthesis
    rcases h with h | h | h
    · rw [hparenthesis.1] at h
      cases h
    · rw [continuesNumber, hfree.1, Bool.false_or] at h
      exact (free_of_isSeparator h).2.2.2 hparenthesis.2
    · rw [hfree.2] at h
      cases h
  refine ⟨?_, ?_, ?_⟩
  · rw [ne_eq, classify_eq_undefined_iff]
    intro hnone
    rcases h with h | h | h <;> simp_all
  · intro heq
    exact hparenthesis (by simp [heq])
  · intro heq
    exact hparenthesis (by simp [heq])

end Convention

end Formulary
