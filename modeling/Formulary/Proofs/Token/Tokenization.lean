import Formulary.Proofs.Token.Assembly

/-!
# Tokenization

A text is tokenized in three passes: into pieces, into tokens, and once more
over the tokens for the operators of two characters.  The first two are a scan
without such operators.  The last looks at tokens that touch, and two delimiters
that touch are two characters in a row; so joining them is what the scan does
when it looks at two characters at once.

* `Convention.joinCompounds_scan` is the third pass;
* `Convention.eq_scan_of_tokenize` gives the tokens of a text that has any;
* `Convention.tokenize_or_leftmostFault` says which texts have none, and why.
-/

namespace Formulary

namespace Token

theorem joins_iff {a b : Token} :
    a.joins b ↔ a.category = .delimiter ∧ b.category = .delimiter ∧
      a.position + a.text.utf8ByteSize = b.position ∧
      compoundOperators.contains (a.text ++ b.text) := by
  simp only [joins, Bool.and_eq_true, beq_iff_eq, and_assoc]

/-- A token that does not join the next one stays as it is. -/
theorem joinCompounds_cons {a : Token} {tokens : List Token}
    (h : ∀ b ∈ tokens.head?, a.joins b = false) :
    joinCompounds (a :: tokens) = a :: joinCompounds tokens := by
  cases tokens with
  | nil => simp [joinCompounds]
  | cons b rest =>
    have hb := h b (by simp)
    rw [joinCompounds, hb]
    simp

end Token

namespace Convention

variable {convention : Convention}

/-- An operator of two characters is just that, and its second character starts
no other token. -/
private theorem compound_split (convention : Convention) {pair : List Char}
    (h : compoundOperators.contains (String.ofList pair)) :
    ∃ c next, pair = [c, next] ∧ isBlank next = false ∧
      startsName next = false ∧ convention.startsNumber next = false := by
  have hmem : pair ∈ compoundOperators.map String.toList := by
    have hcontains := List.mem_map_of_mem (f := String.toList)
      (List.contains_iff_mem.mp h)
    rwa [String.toList_ofList] at hcontains
  have hall : ∀ pair ∈ compoundOperators.map String.toList,
      (pair.length == 2 && (pair.drop 1).all fun x => !isBlank x &&
        !startsName x && !x.isDigit && reservedSymbols.contains x) = true :=
    List.all_eq_true.mp (by decide)
  have hpair := hall pair hmem
  simp only [Bool.and_eq_true, beq_iff_eq, List.all_eq_true,
    Bool.not_eq_true', List.contains_iff_mem, and_assoc] at hpair
  obtain ⟨hlength, hsecond⟩ := hpair
  match pair, hlength with
  | [c, next], _ =>
    obtain ⟨hblank, hname, hdigit, hreserved⟩ := hsecond next (by simp)
    refine ⟨c, next, rfl, hblank, hname, ?_⟩
    rw [startsNumber, hdigit, Bool.false_or, beq_eq_false_iff_ne]
    intro heq
    rw [heq] at hreserved
    exact (free_of_isReserved convention.decimal_free).2.2.2 hreserved

/-- Operators of two characters change delimiters and nothing else. -/
private theorem lexeme_compounds (compounds : List String) (c : Char)
    (rest : List Char) :
    convention.lexeme compounds c rest =
      if (convention.lexeme [] c rest).1 = .delimiter ∧
          compounds.contains (String.ofList ((c :: rest).take 2)) then
        (.delimiter, (c :: rest).take 2)
      else convention.lexeme [] c rest := by
  by_cases hname : startsName c
  · simp [lexeme, hname]
  by_cases hnumber : convention.startsNumber c
  · simp [lexeme, hname, hnumber]
  · by_cases hpair : compounds.contains (String.ofList ((c :: rest).take 2))
    · simp only [lexeme, hname, hnumber, hpair]
      simp
    · simp only [lexeme, hname, hnumber, hpair]
      simp

/-- Without operators of two characters, a delimiter is one character. -/
private theorem lexeme_delimiter {c : Char} {rest : List Char}
    (h : (convention.lexeme [] c rest).1 = .delimiter) :
    convention.lexeme [] c rest = (.delimiter, [c]) := by
  by_cases hname : startsName c
  · simp [lexeme, hname] at h
  by_cases hnumber : convention.startsNumber c
  · simp [lexeme, hname, hnumber] at h
  · simp [lexeme, hname, hnumber]

/-- The first token starts where the text does or later, and a delimiter that
starts there is the first character. -/
private theorem head_scan {cs : List Char} {position : Nat} {b : Token}
    (h : b ∈ (convention.scan [] position cs).head?) :
    position ≤ b.position ∧
      (b.position = position → b.category = .delimiter →
        b.text = String.ofList (cs.take 1)) := by
  induction cs generalizing position with
  | nil =>
    rw [scan] at h
    cases h
  | cons c rest ih =>
    rw [scan] at h
    by_cases hblank : isBlank c
    · rw [if_pos hblank] at h
      have hposition := (ih h).1
      have hsize := c.utf8Size_pos
      refine ⟨by omega, ?_⟩
      intro heq
      omega
    · rw [if_neg hblank] at h
      obtain rfl := Option.mem_some_iff.mp h
      refine ⟨Nat.le_refl _, ?_⟩
      intro _ hdelimiter
      rw [lexeme_delimiter hdelimiter]
      rfl

/-- Whether joining the delimiters of the scan is scanning for operators of two
characters. -/
def JoinsAhead (convention : Convention) (cs : List Char) : Prop :=
  ∀ position, Token.joinCompounds (convention.scan [] position cs) =
    convention.scan compoundOperators position cs

section Step

variable {c : Char} {rest : List Char}
  (ih : ∀ after : List Char, after.length ≤ rest.length →
    JoinsAhead convention after)

include ih

/-- Two characters that spell an operator are two tokens that join. -/
private theorem joinCompounds_scan_pair (hblank : isBlank c = false)
    (hpair : (convention.lexeme [] c rest).1 = .delimiter ∧
      compoundOperators.contains (String.ofList ((c :: rest).take 2))) :
    JoinsAhead convention (c :: rest) := by
  intro position
  obtain ⟨first, next, htake, hfree, hname, hnumber⟩ :=
    compound_split convention hpair.2
  cases rest with
  | nil => simp at htake
  | cons next' after =>
    have hnext : next' = next := by
      simp only [List.take_succ_cons, List.take_zero, List.cons.injEq] at htake
      exact htake.2.1
    rw [hnext] at hpair ⊢
    have hfirst := lexeme_delimiter hpair.1
    have hsecond : convention.lexeme [] next after = (.delimiter, [next]) := by
      simp [lexeme, hname, hnumber]
    have hboth : convention.lexeme compoundOperators c (next :: after) =
        (.delimiter, [c, next]) := by
      rw [lexeme_compounds, if_pos hpair]
      rfl
    have htext : String.ofList [c] ++ String.ofList [next] =
        String.ofList [c, next] := String.ofList_append.symm
    have hjoins : Token.joins ⟨String.ofList [c], .delimiter, position⟩
        ⟨String.ofList [next], .delimiter, position + byteLength [c]⟩ := by
      refine Token.joins_iff.mpr ⟨rfl, rfl, ?_, ?_⟩
      · rw [utf8ByteSize_ofList]
      · rw [htext]
        exact hpair.2
    have hafter : after.length ≤ (next :: after).length := Nat.le_succ _
    have hsplit : c :: next :: after = [c, next] ++ after := rfl
    rw [scan_token hblank hfirst (List.singleton_append ..).symm,
      scan_token hfree hsecond (List.singleton_append ..).symm,
      scan_token hblank hboth hsplit, Token.joinCompounds, if_pos hjoins,
      ih after hafter, htext]
    simp only [byteLength, Nat.add_zero, Nat.add_assoc]

/-- A token that spells no operator with the next character stays as it is. -/
private theorem joinCompounds_scan_single (hblank : isBlank c = false)
    (hpair : ¬((convention.lexeme [] c rest).1 = .delimiter ∧
      compoundOperators.contains (String.ofList ((c :: rest).take 2)))) :
    JoinsAhead convention (c :: rest) := by
  intro position
  have hsame : convention.lexeme compoundOperators c rest =
      convention.lexeme [] c rest := by
    rw [lexeme_compounds, if_neg hpair]
  have hshort : ((c :: rest).drop
      (convention.lexeme [] c rest).2.length).length ≤ rest.length := by
    rw [List.length_drop]
    exact Nat.le_of_lt_succ
      (Nat.sub_lt (Nat.zero_lt_succ _) (length_lexeme_pos _ _ _))
  have hstop : ∀ b ∈ (convention.scan []
      (position + byteLength (convention.lexeme [] c rest).2)
      ((c :: rest).drop (convention.lexeme [] c rest).2.length)).head?,
      Token.joins ⟨String.ofList (convention.lexeme [] c rest).2,
        (convention.lexeme [] c rest).1, position⟩ b = false := by
    intro b hb
    rw [Bool.eq_false_iff]
    intro hjoins
    obtain ⟨hdelimiter, hcategory, hposition, hcontains⟩ :=
      Token.joins_iff.mp hjoins
    have hfirst := lexeme_delimiter hdelimiter
    rw [hfirst] at hb hposition hcontains
    rw [utf8ByteSize_ofList] at hposition
    have htext := (head_scan hb).2 hposition.symm hcategory
    rw [htext, ← String.ofList_append] at hcontains
    exact hpair ⟨hdelimiter, hcontains⟩
  rw [scan, if_neg (Bool.eq_false_iff.mp hblank), Token.joinCompounds_cons hstop,
    ih _ hshort, scan, if_neg (Bool.eq_false_iff.mp hblank), hsame]

end Step

/-- **Joining is looking ahead.**  Joining the delimiters of a scan is scanning
for operators of two characters. -/
theorem joinCompounds_scan (cs : List Char) : JoinsAhead convention cs := by
  induction cs using shorter_induction with
  | nil =>
    intro position
    simp [scan, Token.joinCompounds]
  | cons c rest ih =>
    by_cases hblank : isBlank c
    · intro position
      rw [scan, if_pos hblank, scan, if_pos hblank]
      exact ih rest (Nat.le_refl _) _
    rw [Bool.not_eq_true] at hblank
    by_cases hpair : (convention.lexeme [] c rest).1 = .delimiter ∧
        compoundOperators.contains (String.ofList ((c :: rest).take 2))
    · exact joinCompounds_scan_pair ih hblank hpair
    · exact joinCompounds_scan_single ih hblank hpair

/-- The three passes are a search for faults and a scan. -/
theorem tokenize_eq (convention : Convention) (text : String) :
    convention.tokenize text =
      verdict (convention.fault? 0 0 text.toList)
        (convention.scan compoundOperators 0 text.toList) := by
  rw [tokenize, assemble_ofChars, map_verdict, joinCompounds_scan]

/-- **Token boundaries.**  The tokens of a text are those of the scan from left
to right, with their texts, categories and positions. -/
theorem eq_scan_of_tokenize {text : String} {tokens : List Token}
    (accepted : convention.tokenize text = .ok tokens) :
    tokens = convention.scan compoundOperators 0 text.toList := by
  rw [tokenize_eq, verdict_eq_ok_iff] at accepted
  exact accepted.2.symm

/-- Separators at the end of a number, operators that touch, and a fraction
after a name. -/
theorem eq_scan_of_tokenize_mixed :
    invariant.tokenize "4,, <<=a1.5" =
        .ok [⟨"4,", .number, 0⟩, ⟨",", .delimiter, 2⟩, ⟨"<", .delimiter, 4⟩,
          ⟨"<=", .delimiter, 5⟩, ⟨"a1", .letter, 7⟩, ⟨".5", .number, 9⟩] ∧
      [⟨"4,", .number, 0⟩, ⟨",", .delimiter, 2⟩, ⟨"<", .delimiter, 4⟩,
          ⟨"<=", .delimiter, 5⟩, ⟨"a1", .letter, 7⟩, ⟨".5", .number, 9⟩] =
        invariant.scan compoundOperators 0 "4,, <<=a1.5".toList :=
  ⟨by with_unfolding_all rfl, eq_scan_of_tokenize (by with_unfolding_all rfl)⟩

/-- A text has tokens exactly if nothing in it is at fault. -/
theorem tokenize_eq_ok_iff {text : String} :
    (∃ tokens, convention.tokenize text = .ok tokens) ↔
      Balanced convention text.toList := by
  simp only [tokenize_eq, verdict_eq_ok_iff, fault?_eq_none_iff]
  constructor
  · intro h
    obtain ⟨_, hbalanced, _⟩ := h
    exact hbalanced
  · intro h
    exact ⟨_, h, rfl⟩

/-- What is reported of a text is its leftmost fault. -/
theorem tokenize_eq_error_iff {text : String} {e : CompileError} :
    convention.tokenize text = .error e ↔
      LeftmostFault convention text.toList e := by
  rw [tokenize_eq, verdict_eq_error_iff, fault?_eq_some_iff]

/-- **The leftmost fault.**  A text has tokens exactly if every character fits
somewhere and the parentheses are balanced.  Otherwise its leftmost fault is
reported, and at the end of the text exactly if the only fault is a parenthesis
that stays open. -/
theorem tokenize_or_leftmostFault (convention : Convention) (text : String) :
    ((∃ tokens, convention.tokenize text = .ok tokens) ↔
        (∀ c ∈ text.toList, convention.classify c ≠ .undefined) ∧
          (∀ front, front <+: text.toList →
            front.count ')' ≤ front.count '(') ∧
          text.toList.count '(' = text.toList.count ')') ∧
      (∀ e, convention.tokenize text = .error e ↔
        LeftmostFault convention text.toList e) ∧
      (convention.tokenize text =
          .error (.unmatchedParentheses text.utf8ByteSize) ↔
        Faultless convention text.toList ∧
          text.toList.count ')' < text.toList.count '(') := by
  refine ⟨?_, fun e => tokenize_eq_error_iff, ?_⟩
  · rw [tokenize_eq_ok_iff]
    constructor
    · intro h
      exact ⟨h.faultless.defined, h.faultless.closes, h.closed⟩
    · intro h
      exact ⟨⟨h.1, h.2.1⟩, h.2.2⟩
  · rw [tokenize_eq_error_iff, ← byteLength_toList, leftmostFault_end_iff]

end Convention

end Formulary
