import Formulary.Proofs.Token.Character

/-!
# A scan from left to right

The lexer cuts a text into pieces, joins pieces to numbers and joins tokens to
operators.  The scan below does all three at once: it looks at the characters
where a token starts, and each token is as long as its kind allows.

A number is the longest run of digits and separators, less a group separator at
its end.  That rule looks at the run as a whole, whereas the lexer decides about
one separator at a time; `literal_cons` is the step between the two.

* `Convention.scan` gives the tokens of a text;
* `Convention.lexeme` is the token at one place;
* `Convention.literal_cons` and `literal_append` take numbers apart;
* `Convention.shorter_induction` is how a text is gone through.
-/

namespace Formulary.Convention

variable {convention : Convention}

/-- The number that the characters start with: the longest run of digits and
separators, less its last character if that is the group separator. -/
def literal (convention : Convention) (cs : List Char) : List Char :=
  let run := cs.takeWhile convention.continuesNumber
  if run.getLast? = some convention.group then run.dropLast else run

/-- The kind and the characters of the token that starts with `c`, where two
characters are one delimiter if they spell one of the given operators. -/
def lexeme (convention : Convention) (compounds : List String) (c : Char)
    (rest : List Char) : Category × List Char :=
  if startsName c then (.letter, (c :: rest).takeWhile continuesName)
  else if convention.startsNumber c then
    (.number, convention.literal (c :: rest))
  else
    let pair := (c :: rest).take 2
    (.delimiter, if compounds.contains (String.ofList pair) then pair else [c])

@[simp]
theorem literal_nil : convention.literal [] = [] := by
  simp [literal]

/-- A number ends before a group separator that no other character of a number
follows, and before every character of another kind. -/
theorem literal_cons (c : Char) (rest : List Char) :
    convention.literal (c :: rest) =
      if convention.continuesNumber c ∧
          (c = convention.group →
            rest.takeWhile convention.continuesNumber ≠ []) then
        c :: convention.literal rest
      else [] := by
  by_cases hc : convention.continuesNumber c
  · cases hrun : rest.takeWhile convention.continuesNumber with
    | nil =>
      simp only [literal, List.takeWhile_cons_of_pos hc, hrun]
      by_cases hgroup : c = convention.group
      · simp [hgroup]
      · simp [hc, hgroup]
    | cons next run =>
      have hlast : (c :: next :: run).getLast? = (next :: run).getLast? :=
        List.getLast?_cons_cons
      simp only [literal, List.takeWhile_cons_of_pos hc, hrun, hlast]
      by_cases hgroup : (next :: run).getLast? = some convention.group
      · simp [hc, hgroup]
      · simp [hc, hgroup]
  · simp [literal, hc]

/-- A number goes on over every digit and every decimal separator. -/
theorem literal_cons_of_startsNumber {c : Char}
    (h : convention.startsNumber c) (rest : List Char) :
    convention.literal (c :: rest) = c :: convention.literal rest := by
  have hcontinues := continuesNumber_of_startsNumber h
  have hgroup : c ≠ convention.group := by
    intro heq
    rw [heq] at h
    simp only [startsNumber, Bool.or_eq_true, beq_iff_eq] at h
    rcases h with h | h
    · rw [(free_of_isReserved convention.group_free).1] at h
      cases h
    · exact convention.distinct h.symm
  rw [literal_cons, if_pos ⟨hcontinues, fun h => absurd h hgroup⟩]

/-- A run of digits and decimal separators is part of the number as a whole. -/
theorem literal_append {run : List Char}
    (h : ∀ c ∈ run, convention.startsNumber c) (rest : List Char) :
    convention.literal (run ++ rest) = run ++ convention.literal rest := by
  induction run with
  | nil => rfl
  | cons c run ih =>
    rw [List.cons_append, literal_cons_of_startsNumber (h c List.mem_cons_self),
      ih fun c hmem => h c (List.mem_cons_of_mem _ hmem), List.cons_append]

theorem continuesNumber_of_mem_literal {cs : List Char} {c : Char}
    (h : c ∈ convention.literal cs) : convention.continuesNumber c := by
  have hrun : c ∈ cs.takeWhile convention.continuesNumber := by
    simp only [literal] at h
    split at h
    · exact (List.dropLast_sublist _).subset h
    · exact h
  have hall := List.all_takeWhile (p := convention.continuesNumber) (l := cs)
  exact List.all_eq_true.mp hall c hrun

/-- What holds of a text if it holds of every text that is shorter holds of all
texts.  A token takes at least one character, so what it leaves is shorter. -/
theorem shorter_induction {motive : List Char → Prop} (nil : motive [])
    (cons : ∀ c rest, (∀ after : List Char, after.length ≤ rest.length →
      motive after) → motive (c :: rest)) (cs : List Char) : motive cs := by
  induction hlength : cs.length using Nat.strongRecOn generalizing cs with
  | _ n ih =>
    cases cs with
    | nil => exact nil
    | cons c rest =>
      apply cons
      intro after hafter
      refine ih after.length ?_ after rfl
      rw [← hlength]
      exact Nat.lt_succ_of_le hafter

/-- Every token has a character. -/
theorem length_lexeme_pos (compounds : List String) (c : Char)
    (rest : List Char) :
    0 < (convention.lexeme compounds c rest).2.length := by
  simp only [lexeme]
  split
  · rename_i hname
    have hcontinues : continuesName c := by simp [continuesName, hname]
    rw [List.takeWhile_cons_of_pos hcontinues]
    exact Nat.zero_lt_succ _
  · split
    · rename_i hnumber
      rw [literal_cons_of_startsNumber hnumber]
      exact Nat.zero_lt_succ _
    · split <;> simp

/-- The tokens of a text that starts at the given position. -/
def scan (convention : Convention) (compounds : List String)
    (position : Nat) : List Char → List Token
  | [] => []
  | c :: rest =>
    if isBlank c then
      convention.scan compounds (position + c.utf8Size) rest
    else
      let lexeme := convention.lexeme compounds c rest
      ⟨String.ofList lexeme.2, lexeme.1, position⟩ ::
        convention.scan compounds (position + byteLength lexeme.2)
          ((c :: rest).drop lexeme.2.length)
termination_by cs => cs.length
decreasing_by
  · exact Nat.lt_succ_self _
  · rw [List.length_drop]
    exact Nat.sub_lt (Nat.zero_lt_succ _) (length_lexeme_pos _ _ _)

/-- The scan gives the token at hand and goes on after it. -/
theorem scan_token {compounds : List String} {c : Char}
    {rest chars after : List Char} {category : Category}
    (hblank : isBlank c = false)
    (hlexeme : convention.lexeme compounds c rest = (category, chars))
    (hsplit : c :: rest = chars ++ after) (position : Nat) :
    convention.scan compounds position (c :: rest) =
      ⟨String.ofList chars, category, position⟩ ::
        convention.scan compounds (position + byteLength chars) after := by
  rw [scan, hblank]
  simp only [Bool.false_eq_true, if_false, hlexeme, hsplit, List.drop_left]

/-- The scan passes over blanks. -/
theorem scan_blanks {compounds : List String} {run : List Char}
    (h : ∀ c ∈ run, isBlank c) (position : Nat) (rest : List Char) :
    convention.scan compounds position (run ++ rest) =
      convention.scan compounds (position + byteLength run) rest := by
  induction run generalizing position with
  | nil => rfl
  | cons c run ih =>
    rw [List.cons_append, scan, if_pos (h c List.mem_cons_self), byteLength,
      ih fun x hx => h x (List.mem_cons_of_mem _ hx), Nat.add_assoc]

end Formulary.Convention
