import Formulary.Proofs.Token.Fault
import Formulary.Proofs.Token.Scan

/-!
# Assembling is scanning

The lexer sees a text as pieces and decides for each piece, and at most one
after it, whether it belongs to a number.  What it takes for a number is the
number that the scan finds, so both go on at the same place.  Between two
tokens nothing is remembered but the position and the open parentheses, so the
induction is on the text that is left.

* `Convention.groupGoesOn_ofChars` compares the one piece of lookahead;
* `Convention.continueNumber_ofChars` compares the numbers;
* `Convention.assemble_ofChars` compares the tokens and the faults.
-/

namespace Formulary.Convention

variable {convention : Convention}

/-- A run starts with its first character and ends where the rest starts. -/
private theorem run_split {p : Char → Bool} {c : Char} (hc : p c)
    (rest : List Char) :
    (∀ x ∈ c :: rest.takeWhile p, p x) ∧
      c :: rest = c :: rest.takeWhile p ++ rest.dropWhile p := by
  constructor
  · intro x hx
    rcases List.mem_cons.mp hx with rfl | hx
    · exact hc
    · exact List.all_eq_true.mp List.all_takeWhile x hx
  · rw [List.cons_append, List.takeWhile_append_dropWhile]

/-- A number that starts with digits goes on after them. -/
private theorem literal_digits {c : Char} (hdigit : c.isDigit)
    (rest : List Char) :
    convention.literal (c :: rest) = c :: rest.takeWhile Char.isDigit ++
      convention.literal (rest.dropWhile Char.isDigit) := by
  obtain ⟨hall, hjoin⟩ := run_split hdigit rest
  rw [hjoin, literal_append fun x hx => by simp [startsNumber, hall x hx]]

/-- A separator joins a number exactly if the text goes on with a character of
numbers. -/
theorem groupGoesOn_ofChars (cs : List Char) :
    convention.groupGoesOn (Piece.ofChars cs) ↔
      cs.takeWhile convention.continuesNumber ≠ [] := by
  cases cs with
  | nil => simp [Piece.ofChars, groupGoesOn]
  | cons c rest =>
    have hrun : (c :: rest).takeWhile convention.continuesNumber ≠ [] ↔
        convention.continuesNumber c := by
      by_cases hc : convention.continuesNumber c <;> simp [hc]
    rw [hrun, Piece.ofChars]
    by_cases hdigit : c.isDigit
    · simp [hdigit, groupGoesOn, continuesNumber]
    by_cases hname : startsName c
    · have hstop : convention.continuesNumber c = false :=
        continuesNumber_eq_false (Or.inr hname)
      simp [hdigit, hname, hstop, groupGoesOn]
    by_cases hblank : isBlank c
    · have hstop : convention.continuesNumber c = false :=
        continuesNumber_eq_false (Or.inl hblank)
      simp [hdigit, hname, hblank, hstop, groupGoesOn]
    · simp [hdigit, hname, hblank, groupGoesOn, continuesNumber]

/-- The pieces of a number are its characters, and what follows is left. -/
theorem continueNumber_ofChars (convention : Convention) (cs : List Char) :
    ∃ after, cs = convention.literal cs ++ after ∧
      convention.continueNumber (Piece.ofChars cs) =
        (convention.literal cs, Piece.ofChars after) := by
  induction cs using Piece.ofChars.induct with
  | case1 => exact ⟨[], by simp, by simp [Piece.ofChars, continueNumber]⟩
  | case2 c rest hdigit ih =>
    obtain ⟨after, hsplit, hmore⟩ := ih
    refine ⟨after, ?_, ?_⟩
    · rw [literal_digits hdigit, List.append_assoc, ← hsplit]
      exact (run_split hdigit rest).2
    · rw [literal_digits hdigit, Piece.ofChars, if_pos hdigit, continueNumber,
        hmore]
  | case3 c rest hdigit hname ih =>
    have hstop : convention.continuesNumber c = false :=
      continuesNumber_eq_false (Or.inr hname)
    refine ⟨c :: rest, by simp [literal_cons, hstop], ?_⟩
    rw [literal_cons, Piece.ofChars]
    simp [hdigit, hname, hstop, continueNumber]
  | case4 c rest hdigit hname hblank ih =>
    have hstop : convention.continuesNumber c = false :=
      continuesNumber_eq_false (Or.inl hblank)
    refine ⟨c :: rest, by simp [literal_cons, hstop], ?_⟩
    rw [literal_cons, Piece.ofChars]
    simp [hdigit, hname, hblank, hstop, continueNumber]
  | case5 c rest hdigit hname hblank ih =>
    obtain ⟨after, hsplit, hmore⟩ := ih
    have htest : (c = convention.decimal ∨ (c = convention.group ∧
          convention.groupGoesOn (Piece.ofChars rest))) ↔
        (convention.continuesNumber c ∧ (c = convention.group →
          rest.takeWhile convention.continuesNumber ≠ [])) := by
      have hdistinct := convention.distinct
      rw [groupGoesOn_ofChars]
      simp only [continuesNumber, hdigit, isSeparator, Bool.or_eq_true,
        beq_iff_eq]
      grind
    rw [literal_cons, Piece.ofChars, if_neg hdigit, if_neg hname, if_neg hblank,
      continueNumber]
    by_cases hgoes : c = convention.decimal ∨ (c = convention.group ∧
        convention.groupGoesOn (Piece.ofChars rest))
    · rw [if_pos hgoes, if_pos (htest.mp hgoes), hmore]
      exact ⟨after, congrArg (c :: ·) hsplit, rfl⟩
    · rw [if_neg hgoes, if_neg fun h => hgoes (htest.mpr h)]
      refine ⟨c :: rest, rfl, ?_⟩
      rw [Piece.ofChars, if_neg hdigit, if_neg hname, if_neg hblank]

/-- The fault of a text if it has one, else its tokens. -/
def verdict (fault : Option CompileError) (tokens : List Token) :
    Except CompileError (List Token) :=
  match fault with
  | some e => .error e
  | none => .ok tokens

theorem map_verdict (f : List Token → List Token)
    (fault : Option CompileError) (tokens : List Token) :
    (verdict fault tokens).map f = verdict fault (f tokens) := by
  cases fault <;> rfl

theorem verdict_eq_ok_iff {fault : Option CompileError}
    {tokens result : List Token} :
    verdict fault tokens = .ok result ↔ fault = none ∧ tokens = result := by
  cases fault <;> simp [verdict]

theorem verdict_eq_error_iff {fault : Option CompileError}
    {tokens : List Token} {e : CompileError} :
    verdict fault tokens = .error e ↔ fault = some e := by
  cases fault <;> simp [verdict]

/-- Whether the tokens of the pieces are those of the scan, and the fault is
the same where there are none. -/
def Agrees (convention : Convention) (cs : List Char) : Prop :=
  ∀ position depth, convention.assemble position depth (Piece.ofChars cs) =
    verdict (convention.fault? position depth cs)
      (convention.scan [] position cs)

/-- A token of characters that are no fault leaves the rest to be compared. -/
private theorem map_verdict_token {c : Char} {rest chars after : List Char}
    {category : Category} (hblank : isBlank c = false)
    (hlexeme : convention.lexeme [] c rest = (category, chars))
    (hsplit : c :: rest = chars ++ after)
    (hquiet : ∀ x ∈ chars, Quiet convention x) (position depth : Nat) :
    (verdict
        (convention.fault? (position + byteLength chars) depth after)
        (convention.scan [] (position + byteLength chars) after)).map
        (⟨String.ofList chars, category, position⟩ :: ·) =
      verdict (convention.fault? position depth (c :: rest))
        (convention.scan [] position (c :: rest)) := by
  rw [map_verdict, scan_token hblank hlexeme hsplit, hsplit, fault?_quiet hquiet]

/-- The same for a number, which starts with the given characters. -/
private theorem map_verdict_number {c : Char} {rest run front : List Char}
    (hblank : isBlank c = false) (hname : startsName c = false)
    (hnumber : convention.startsNumber c) (hrun : c :: rest = run ++ front)
    (hliteral : convention.literal (c :: rest) =
      run ++ convention.literal front)
    (ih : ∀ after : List Char, after.length ≤ front.length →
      Agrees convention after) (position depth : Nat) :
    (convention.assemble
        (position + byteLength
          (run ++ (convention.continueNumber (Piece.ofChars front)).1))
        depth (convention.continueNumber (Piece.ofChars front)).2).map
        (⟨String.ofList
          (run ++ (convention.continueNumber (Piece.ofChars front)).1),
          .number, position⟩ :: ·) =
      verdict (convention.fault? position depth (c :: rest))
        (convention.scan [] position (c :: rest)) := by
  obtain ⟨after, hsplit, hmore⟩ := continueNumber_ofChars convention front
  have hafter : after.length ≤ front.length := by
    rw [hsplit, List.length_append]
    exact Nat.le_add_left _ _
  rw [hmore, ← hliteral, ih after hafter]
  refine map_verdict_token hblank ?_ ?_ ?_ position depth
  · simp [lexeme, hname, hnumber]
  · rw [hliteral, List.append_assoc, ← hsplit]
    exact hrun
  · intro x hx
    exact quiet (Or.inr (Or.inl (continuesNumber_of_mem_literal hx)))

/-- A symbol is a delimiter, a separator or nothing at all. -/
private theorem classify_symbol {c : Char} (hname : ¬startsName c)
    (hblank : ¬isBlank c) (hdefined : convention.classify c ≠ .undefined) :
    convention.classify c = .delimiter ∨ convention.classify c = .number := by
  simp only [classify, if_neg hblank, if_neg hname] at hdefined ⊢
  split
  · exact Or.inr rfl
  · rename_i hnumber
    rw [if_neg hnumber] at hdefined
    by_cases hdelimiter : delimiters.contains c
    · exact Or.inl (if_pos hdelimiter)
    · exact absurd (if_neg hdelimiter) hdefined

/-- A symbol that is in no number and no fault counts as a parenthesis if it is
one, and is a delimiter. -/
private theorem assemble_symbol {c : Char} (hname : ¬startsName c)
    (hblank : ¬isBlank c) (hdecimal : c ≠ convention.decimal)
    (hdefined : convention.classify c ≠ .undefined) (position depth : Nat)
    (pieces : List Piece) :
    convention.assemble position depth (.symbol c :: pieces) =
      match openAfter? depth c with
      | none => .error (.unmatchedParentheses position)
      | some depth =>
        (convention.assemble (position + c.utf8Size) depth pieces).map
          (⟨String.singleton c, .delimiter, position⟩ :: ·) := by
  rw [assemble, if_neg hdecimal]
  rcases classify_symbol hname hblank hdefined with hkind | hkind
  · cases openAfter? depth c <;> simp only [hkind]
  · cases openAfter? depth c <;> simp only [hkind]

section Step

variable {c : Char} {rest : List Char}
  (ih : ∀ after : List Char, after.length ≤ rest.length →
    Agrees convention after)

include ih

/-- Digits start a number. -/
private theorem agrees_digits (hdigit : c.isDigit) :
    Agrees convention (c :: rest) := by
  intro position depth
  have hnumber : convention.startsNumber c := by simp [startsNumber, hdigit]
  have hshort := (List.dropWhile_sublist (l := rest) Char.isDigit).length_le
  rw [Piece.ofChars, if_pos hdigit, assemble]
  exact map_verdict_number (isBlank_of_isDigit hdigit)
    (startsName_of_isDigit hdigit) hnumber (run_split hdigit rest).2
    (literal_digits hdigit rest)
    (fun after hafter => ih after (Nat.le_trans hafter hshort)) position depth

/-- A name is a token as it is. -/
private theorem agrees_name (hname : startsName c) :
    Agrees convention (c :: rest) := by
  intro position depth
  have hdigit : ¬c.isDigit := Bool.eq_false_iff.mp (isDigit_of_startsName hname)
  have hcontinues : continuesName c := by simp [continuesName, hname]
  obtain ⟨hall, hjoin⟩ := run_split hcontinues rest
  rw [Piece.ofChars, if_neg hdigit, if_pos hname, assemble,
    ih _ (List.dropWhile_sublist _).length_le]
  refine map_verdict_token (isBlank_of_startsName hname) ?_ hjoin ?_
    position depth
  · rw [lexeme, if_pos hname, List.takeWhile_cons_of_pos hcontinues]
  · intro x hx
    have hx := hall x hx
    simp only [continuesName, Bool.or_eq_true] at hx
    rcases hx with hx | hx
    · exact quiet (Or.inr (Or.inr hx))
    · exact quiet (Or.inr (Or.inl (by simp [continuesNumber, hx])))

/-- Blanks are no token. -/
private theorem agrees_blanks (hblank : isBlank c) :
    Agrees convention (c :: rest) := by
  intro position depth
  obtain ⟨hdigit, hname⟩ := not_continuesName_of_isBlank hblank
  rw [Bool.eq_false_iff] at hdigit hname
  obtain ⟨hall, hjoin⟩ := run_split hblank rest
  rw [Piece.ofChars, if_neg hdigit, if_neg hname, if_pos hblank, assemble,
    ih _ (List.dropWhile_sublist _).length_le, hjoin, scan_blanks hall,
    fault?_quiet fun x hx => quiet (Or.inl (hall x hx))]

/-- A symbol starts a number, is a fault or is a delimiter. -/
private theorem agrees_symbol (hdigit : ¬c.isDigit) (hname : ¬startsName c)
    (hblank : ¬isBlank c) : Agrees convention (c :: rest) := by
  intro position depth
  rw [Piece.ofChars, if_neg hdigit, if_neg hname, if_neg hblank]
  by_cases hdecimal : c = convention.decimal
  · have hnumber : convention.startsNumber c := by
      simp [startsNumber, hdecimal]
    have hjoin : c :: rest = [c] ++ rest := rfl
    rw [assemble, if_pos hdecimal]
    exact map_verdict_number (Bool.eq_false_iff.mpr hblank)
      (Bool.eq_false_iff.mpr hname) hnumber hjoin
      (literal_cons_of_startsNumber hnumber rest) ih position depth
  by_cases hdefined : convention.classify c = .undefined
  · rw [assemble, if_neg hdecimal, fault?, if_pos hdefined, hdefined]
    rfl
  have hlexeme : convention.lexeme [] c rest = (.delimiter, [c]) := by
    simp [lexeme, startsNumber, hdigit, hname, hdecimal]
  rw [assemble_symbol hname hblank hdecimal hdefined, fault?, if_neg hdefined,
    scan_token (Bool.eq_false_iff.mpr hblank) hlexeme
      (List.singleton_append ..).symm, String.singleton_eq_ofList]
  cases openAfter? depth c with
  | none => rfl
  | some depth =>
    have hrest := ih rest (Nat.le_refl _) (position + c.utf8Size) depth
    simp only [hrest, map_verdict, byteLength, Nat.add_zero]

end Step

/-- **Assembling is scanning.**  The tokens of the pieces are those of the scan,
and where there are none the fault is the same. -/
theorem assemble_ofChars (cs : List Char) : Agrees convention cs := by
  induction cs using shorter_induction with
  | nil =>
    intro position depth
    rw [Piece.ofChars, assemble, fault?, scan]
    by_cases hdepth : depth = 0
    · rw [if_pos hdepth, if_pos hdepth]
      rfl
    · rw [if_neg hdepth, if_neg hdepth]
      rfl
  | cons c rest ih =>
    by_cases hdigit : c.isDigit
    · exact agrees_digits ih hdigit
    by_cases hname : startsName c
    · exact agrees_name ih hname
    by_cases hblank : isBlank c
    · exact agrees_blanks ih hblank
    · exact agrees_symbol ih hdigit hname hblank

end Formulary.Convention
