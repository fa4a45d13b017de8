import Formulary.Proofs.Grammar.Level
import Formulary.Proofs.Token.Tokenization

/-!
# The tokens of a scan

What is true of every token that a scan gives, whatever the text.  Tokens are
stretches of the text in its order, so their positions increase.  A name has the
characters of a name.  No token but a parenthesis has a parenthesis in it, so a
text has as many parentheses as its tokens; in a text without fault the two
kinds are equally many.

* `Convention.exists_scan_cons` is the scan at one place;
* `Convention.pairwise_scan` is the order of positions;
* `Convention.isName_of_mem_scan` is the form of names;
* `Convention.countP_tokenize` says that accepted tokens are balanced.
-/

namespace Formulary

/-- Whether the text has the form of a name. -/
def IsName (text : String) : Prop :=
  ∃ c rest, text.toList = c :: rest ∧ startsName c ∧ ∀ x ∈ rest, continuesName x

namespace Convention

variable {convention : Convention} {compounds : List String}

/-- A number is what a text starts with. -/
theorem literal_prefix (cs : List Char) : convention.literal cs <+: cs := by
  have hrun := List.takeWhile_prefix (l := cs) convention.continuesNumber
  simp only [literal]
  split
  · exact (List.dropLast_prefix _).trans hrun
  · exact hrun

/-- A token is what the text starts with. -/
theorem lexeme_prefix (convention : Convention) (compounds : List String)
    (c : Char) (rest : List Char) :
    (convention.lexeme compounds c rest).2 <+: c :: rest := by
  simp only [lexeme]
  split
  · exact List.takeWhile_prefix _
  · split
    · exact literal_prefix _
    · split
      · exact List.take_prefix 2 (c :: rest)
      · exact ⟨rest, rfl⟩

/-- Every character has a byte. -/
private theorem byteLength_pos {cs : List Char} (h : 0 < cs.length) :
    0 < byteLength cs := by
  cases cs with
  | nil => cases h
  | cons c rest =>
    have hsize := c.utf8Size_pos
    rw [byteLength]
    omega

/-- Where no blank stands, the scan gives a token and goes on after it. -/
theorem exists_scan_cons (convention : Convention) (compounds : List String)
    {c : Char} (h : isBlank c = false) (rest : List Char) :
    ∃ category chars after,
      convention.lexeme compounds c rest = (category, chars) ∧
      c :: rest = chars ++ after ∧ after.length ≤ rest.length ∧
      0 < byteLength chars ∧
      ∀ position, convention.scan compounds position (c :: rest) =
        ⟨String.ofList chars, category, position⟩ ::
          convention.scan compounds (position + byteLength chars) after := by
  obtain ⟨after, hsplit⟩ :=
    lexeme_prefix convention compounds c rest
  have hpos : 0 < (convention.lexeme compounds c rest).2.length :=
    length_lexeme_pos compounds c rest
  refine ⟨_, _, after, rfl, hsplit.symm, ?_, ?_, scan_token h rfl hsplit.symm⟩
  · have hlength := congrArg List.length hsplit
    rw [List.length_append, List.length_cons] at hlength
    omega
  · exact byteLength_pos hpos

/-- No token stands before the start of the text. -/
theorem position_le_of_mem_scan {cs : List Char} {position : Nat}
    {token : Token} (h : token ∈ convention.scan compounds position cs) :
    position ≤ token.position := by
  induction cs using shorter_induction generalizing position with
  | nil => simp [scan] at h
  | cons c rest ih =>
    by_cases hblank : isBlank c
    · rw [scan, if_pos hblank] at h
      have hle := ih rest (Nat.le_refl _) h
      omega
    · rw [Bool.not_eq_true] at hblank
      obtain ⟨_, chars, after, -, -, hshort, -, hscan⟩ :=
        exists_scan_cons convention compounds hblank rest
      rw [hscan] at h
      rcases List.mem_cons.mp h with rfl | h
      · exact Nat.le_refl _
      · have hle := ih after hshort h
        omega

/-- **Positions increase** from token to token. -/
theorem pairwise_scan (cs : List Char) (position : Nat) :
    (convention.scan compounds position cs).Pairwise
      (·.position < ·.position) := by
  induction cs using shorter_induction generalizing position with
  | nil => simp [scan]
  | cons c rest ih =>
    by_cases hblank : isBlank c
    · rw [scan, if_pos hblank]
      exact ih rest (Nat.le_refl _) _
    · rw [Bool.not_eq_true] at hblank
      obtain ⟨_, chars, after, -, -, hshort, hsize, hscan⟩ :=
        exists_scan_cons convention compounds hblank rest
      rw [hscan]
      refine List.pairwise_cons.mpr ⟨?_, ih after hshort _⟩
      intro token htoken
      have hle := position_le_of_mem_scan htoken
      show position < token.position
      omega

/-- A token of letters is a name. -/
theorem isName_of_mem_scan {cs : List Char} {position : Nat} {token : Token}
    (h : token ∈ convention.scan compounds position cs)
    (hletter : token.category = .letter) : IsName token.text := by
  induction cs using shorter_induction generalizing position with
  | nil => simp [scan] at h
  | cons c rest ih =>
    by_cases hblank : isBlank c
    · rw [scan, if_pos hblank] at h
      exact ih rest (Nat.le_refl _) h
    · rw [Bool.not_eq_true] at hblank
      obtain ⟨category, chars, after, hlexeme, -, hshort, -, hscan⟩ :=
        exists_scan_cons convention compounds hblank rest
      rw [hscan] at h
      rcases List.mem_cons.mp h with rfl | h
      · obtain rfl : category = .letter := hletter
        by_cases hname : startsName c
        · have hcontinues : continuesName c := by simp [continuesName, hname]
          rw [lexeme, if_pos hname, List.takeWhile_cons_of_pos hcontinues,
            Prod.mk.injEq] at hlexeme
          obtain ⟨-, rfl⟩ := hlexeme
          refine ⟨c, _, String.toList_ofList, hname, ?_⟩
          exact List.all_eq_true.mp List.all_takeWhile
        · rw [lexeme, if_neg hname] at hlexeme
          split at hlexeme <;> simp at hlexeme
      · exact ih after hshort h

/-- No operator of two characters has a parenthesis in it. -/
private theorem parenthesis_not_mem_compound {c : Char} (h : c ∈ ['(', ')'])
    {pair : List Char} (hpair : compoundOperators.contains (String.ofList pair)) :
    pair.count c = 0 := by
  have hmem : pair ∈ compoundOperators.map String.toList := by
    have hcontains := List.mem_map_of_mem (f := String.toList)
      (List.contains_iff_mem.mp hpair)
    rwa [String.toList_ofList] at hcontains
  have hall : ∀ pair ∈ compoundOperators.map String.toList,
      (['(', ')'].all fun c => !pair.contains c) = true :=
    List.all_eq_true.mp (by decide)
  have hpair := List.all_eq_true.mp (hall pair hmem) c h
  simpa [List.count_eq_zero] using hpair

/-- Characters of names and numbers are no parentheses. -/
private theorem count_eq_zero_of_continues (convention : Convention) {c : Char}
    (h : c ∈ ['(', ')']) {chars : List Char}
    (hchars : ∀ x ∈ chars, continuesName x ∨ convention.continuesNumber x) :
    chars.count c = 0 := by
  rw [List.count_eq_zero]
  intro hmem
  have hquiet : Quiet convention c := by
    apply quiet
    rcases hchars c hmem with hname | hnumber
    · simp only [continuesName, Bool.or_eq_true] at hname
      rcases hname with hname | hdigit
      · exact Or.inr (Or.inr hname)
      · exact Or.inr (Or.inl (by simp [continuesNumber, hdigit]))
    · exact Or.inr (Or.inl hnumber)
  simp only [List.mem_cons, List.not_mem_nil, or_false] at h
  rcases h with rfl | rfl
  · exact hquiet.not_opening rfl
  · exact hquiet.not_closing rfl

/-- A token has the parentheses that it is. -/
private theorem count_lexeme {c : Char} (h : c ∈ ['(', ')']) {first : Char}
    {rest chars : List Char} {category : Category} (position : Nat)
    (hlexeme : convention.lexeme compoundOperators first rest =
      (category, chars)) :
    (if Token.isDelimiter ⟨String.ofList chars, category, position⟩
        (String.singleton c) then 1 else 0) = chars.count c := by
  rw [lexeme] at hlexeme
  split at hlexeme
  · obtain ⟨rfl, rfl⟩ := Prod.mk.inj hlexeme
    rw [count_eq_zero_of_continues convention h]
    · simp [Token.isDelimiter]
    · intro x hx
      exact Or.inl (List.all_eq_true.mp List.all_takeWhile x hx)
  · split at hlexeme
    · obtain ⟨rfl, rfl⟩ := Prod.mk.inj hlexeme
      rw [count_eq_zero_of_continues convention h]
      · simp [Token.isDelimiter]
      · intro x hx
        exact Or.inr (continuesNumber_of_mem_literal hx)
    · obtain ⟨rfl, hchars⟩ := Prod.mk.inj hlexeme
      split at hchars
      · next hpair =>
        subst hchars
        have hcount := parenthesis_not_mem_compound h hpair
        rw [hcount, if_neg]
        rw [Token.isDelimiter_iff, String.singleton_eq_ofList, String.ofList_inj]
        intro htext
        rw [htext.2] at hcount
        simp at hcount
      · subst hchars
        simp only [Token.isDelimiter_iff, String.singleton_eq_ofList,
          String.ofList_inj, List.cons.injEq, and_true, true_and,
          List.count_singleton, beq_iff_eq]

/-- A text has as many parentheses of a kind as its tokens. -/
theorem countP_scan (convention : Convention) {c : Char} (h : c ∈ ['(', ')'])
    (cs : List Char) (position : Nat) :
    (convention.scan compoundOperators position cs).countP
      (·.isDelimiter (String.singleton c)) = cs.count c := by
  induction cs using shorter_induction generalizing position with
  | nil => simp [scan]
  | cons first rest ih =>
    by_cases hblank : isBlank first
    · have hne : first ≠ c := by
        rintro rfl
        have hall : ∀ c ∈ ['(', ')'], (!isBlank c) = true :=
          List.all_eq_true.mp (by decide)
        have hfree := hall first h
        rw [hblank] at hfree
        cases hfree
      rw [scan, if_pos hblank, ih rest (Nat.le_refl _), List.count_cons_of_ne hne]
    · rw [Bool.not_eq_true] at hblank
      obtain ⟨category, chars, after, hlexeme, hsplit, hshort, -, hscan⟩ :=
        exists_scan_cons convention compoundOperators hblank rest
      rw [hscan, List.countP_cons, ih after hshort, count_lexeme h _ hlexeme,
        hsplit, List.count_append, Nat.add_comm]

/-- **Balance.**  The tokens of an accepted text have as many opening
parentheses as closing ones. -/
theorem countP_tokenize {text : String} {tokens : List Token}
    (h : convention.tokenize text = .ok tokens) :
    tokens.countP (·.isDelimiter "(") = tokens.countP (·.isDelimiter ")") := by
  have hbalanced := tokenize_eq_ok_iff.mp ⟨tokens, h⟩
  rw [tokenize_eq, verdict_eq_ok_iff] at h
  have hopening :=
    countP_scan convention (show '(' ∈ ['(', ')'] by decide) text.toList 0
  have hclosing :=
    countP_scan convention (show ')' ∈ ['(', ')'] by decide) text.toList 0
  rw [h.2] at hopening hclosing
  exact hopening.trans (hbalanced.closed.trans hclosing.symm)

end Convention

end Formulary
