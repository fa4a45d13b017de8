import Formulary.Proofs.Numeral.Literal
import Formulary.Proofs.Scope.Spacing
import Formulary.Proofs.Token.Coverage

/-!
# Texts of digits and separators

A text of digits and of the separators of its convention compiles only if it is a
literal that writes a number, and then to that number.  Two readers have to agree
on this: the scan, which decides where a number ends, and the reader of literals,
which decides whether it is one.

Numbers are the only tokens in such a text that the grammar has a use for.  So
what compiles is a single number, and since there are no blanks it is the whole
text.  In the other direction, a literal that is read starts like a number and
does not end with a group separator, so the scan takes all of it.

* `Token.Inert` is what all tokens of such a text are;
* `Derives.eq_number` says what the grammar makes of inert tokens;
* `Convention.tokenize_of_readNumber?` says what the scan makes of a literal;
* `Scope.compile_literal` is the statement for texts.
-/

namespace Formulary

/-- The token is no name, and no symbol of the grammar occurs in it. -/
structure Token.Inert (token : Token) : Prop where
  not_letter : token.category ≠ .letter
  free : ∀ c ∈ token.text.toList, c ∉ reservedSymbols

/-- An inert token is no delimiter that is written with symbols. -/
theorem Token.Inert.not_isDelimiter {token : Token} (h : token.Inert)
    {symbol : String} (hsymbol : symbol.toList.any reservedSymbols.contains) :
    ¬token.isDelimiter symbol := by
  intro hdelimiter
  obtain ⟨c, hc, hreserved⟩ := List.any_eq_true.mp hsymbol
  rw [← (isDelimiter_iff.mp hdelimiter).2] at hc
  exact h.free c hc (List.contains_iff_mem.mp hreserved)

/-- Every operator is written with symbols. -/
theorem Operator.any_reservedSymbols {operator : Operator} (h : operator ∈ table) :
    operator.symbol.toList.any reservedSymbols.contains := by
  have hall : ∀ operator ∈ table,
      operator.symbol.toList.any reservedSymbols.contains = true :=
    List.all_eq_true.mp (by decide)
  exact hall operator h

/-- An inert token is no operator. -/
theorem Token.Inert.not_denotes {token : Token} (h : token.Inert) {level : Level}
    {operator : Operator} : ¬level.Denotes token operator := fun hdenotes =>
  h.not_isDelimiter (Operator.any_reservedSymbols hdenotes.registered)
    hdenotes.delimiter

/-- **Inert tokens** mean something only if they are a single number. -/
theorem Derives.eq_number {d : Dialect} {phrase : Phrase} {tokens : List Token}
    {formula : Formula} (h : Derives d phrase tokens formula)
    (hinert : ∀ token ∈ tokens, token.Inert) :
    ∃ token value, tokens = [token] ∧ token.category = .number ∧
      d.convention.readNumber? token.text = some value ∧
      formula = .constant value := by
  match h with
  | .operand inner | .unsigned inner => exact inner.eq_number hinert
  | .toRight _ denotes _ | .toLeft _ _ denotes _ =>
    exact absurd denotes (hinert _ (by simp)).not_denotes
  | .plus sign _ =>
    exact absurd sign ((hinert _ (by simp)).not_isDelimiter (by decide))
  | .minus sign _ =>
    exact absurd sign ((hinert _ (by simp)).not_isDelimiter (by decide))
  | .group opens _ _ =>
    exact absurd opens ((hinert _ (by simp)).not_isDelimiter (by decide))
  | .number digits reads => exact ⟨_, _, rfl, digits, reads, rfl⟩
  | .name letters => exact absurd letters (hinert _ (by simp)).not_letter
  | .call letters _ _ _ _ _ => exact absurd letters (hinert _ (by simp)).not_letter

namespace Convention

variable {convention : Convention} {text : String}

/-- No digit and no separator is a blank. -/
theorem isBlank_of_continuesNumber {c : Char} (h : convention.continuesNumber c) :
    isBlank c = false := by
  rw [Bool.eq_false_iff]
  intro hblank
  rw [continuesNumber_eq_false (Or.inl hblank)] at h
  cases h

/-- No digit and no separator is a symbol of the grammar. -/
theorem not_mem_reservedSymbols {c : Char} (h : convention.continuesNumber c) :
    c ∉ reservedSymbols := by
  have hdigits : ∀ c ∈ reservedSymbols, (!c.isDigit) = true :=
    List.all_eq_true.mp (by decide)
  rw [continuesNumber, Bool.or_eq_true] at h
  rcases h with hdigit | hseparator
  · intro hmem
    have hfree := hdigits c hmem
    rw [hdigit] at hfree
    cases hfree
  · exact (free_of_isSeparator hseparator).2.2.2

section Digits

variable (hchars : ∀ c ∈ text.toList, convention.continuesNumber c)

include hchars

/-- Every token is inert. -/
theorem inert_of_tokenize {tokens : List Token}
    (accepted : convention.tokenize text = .ok tokens) :
    ∀ token ∈ tokens, token.Inert := by
  intro token hmem
  obtain ⟨_, ⟨front, rest, hsplit, -⟩, -⟩ := (Layout.of_tokenize accepted).stands hmem
  have hpart : ∀ c ∈ token.text.toList, convention.continuesNumber c := by
    intro c hc
    refine hchars c ?_
    rw [hsplit]
    simp [hc]
  refine ⟨?_, fun c hc => not_mem_reservedSymbols (hpart c hc)⟩
  intro hletter
  rw [eq_scan_of_tokenize accepted] at hmem
  obtain ⟨c, more, hname, hstarts, -⟩ := isName_of_mem_scan hmem hletter
  have hc := hpart c (by simp [hname])
  rw [continuesNumber_eq_false (Or.inr hstarts)] at hc
  cases hc

/-- A single token is the whole text. -/
theorem text_eq_of_tokenize {token : Token}
    (accepted : convention.tokenize text = .ok [token]) : token.text = text := by
  have hnone {run : List Char} (hpart : ∀ c ∈ run, c ∈ text.toList)
      (hblank : ∀ c ∈ run, isBlank c) : run = [] := by
    refine List.eq_nil_iff_forall_not_mem.mpr fun c hc => ?_
    have hfree := isBlank_of_continuesNumber (hchars c (hpart c hc))
    rw [hblank c hc] at hfree
    cases hfree
  have hlayout := Layout.of_tokenize accepted
  generalize htext : text.toList = cs at hlayout hnone
  cases hlayout with
  | @token _ run chars rest _ _ blank _ others =>
    cases others with
    | blanks after =>
      obtain rfl : run = [] := hnone (fun c hc => by simp [hc]) blank
      obtain rfl : rest = [] := hnone (fun c hc => by simp [hc]) after
      rw [List.nil_append, List.append_nil] at htext
      rw [← htext, String.ofList_toList]

/-- If it does not end with a group separator, all of the text is one number to
the scan. -/
theorem literal_eq_self (hlast : text.toList.getLast? ≠ some convention.group) :
    convention.literal text.toList = text.toList := by
  have hrun : text.toList.takeWhile convention.continuesNumber = text.toList :=
    List.takeWhile_eq_self_iff.mpr hchars
  rw [literal, hrun, if_neg hlast]

/-- **A literal that is read is one token.** -/
theorem tokenize_of_readNumber? {value : Float}
    (hread : convention.readNumber? text = some value) :
    convention.tokenize text = .ok [⟨text, .number, 0⟩] := by
  have hfault : convention.fault? 0 0 text.toList = none := by
    have hpass := fault?_quiet (fun c hc => quiet (Or.inr (Or.inl (hchars c hc)))) 0 0 []
    rw [List.append_nil, fault?, if_pos rfl] at hpass
    exact hpass
  have hliteral := literal_eq_self hchars (getLast?_ne_group hread)
  obtain ⟨plain, hspells⟩ := ((readNumber?_spells convention text).1).mp ⟨value, hread⟩
  obtain ⟨c, rest, hsplit, hstarts⟩ := hspells.exists_cons
  rw [hsplit] at hliteral
  have hcontinues := continuesNumber_of_startsNumber hstarts
  have hname : startsName c = false := by
    rw [Bool.eq_false_iff]
    intro hname
    rw [continuesNumber_eq_false (Or.inr hname)] at hcontinues
    cases hcontinues
  have hlexeme : convention.lexeme compoundOperators c rest = (.number, c :: rest) := by
    rw [lexeme, if_neg (by simp [hname]), if_pos hstarts, hliteral]
  have hscan := scan_token (isBlank_of_continuesNumber hcontinues) hlexeme
    (List.append_nil _).symm 0
  rw [tokenize_eq, hfault, hsplit, hscan, scan, verdict, ← hsplit, String.ofList_toList]

end Digits

end Convention

/-- **Digits and separators.**  A text of digits and of the separators of its
convention compiles exactly if it is a literal that writes a number.  It compiles
to that number and declares nothing, and its only token is the whole text. -/
theorem Scope.compile_literal (s : Scope) (d : Dialect) {text : String}
    (written : ∀ c ∈ text.toList, d.convention.continuesNumber c) :
    (∀ tree after, s.compile d text = (.ok tree, after) ↔
      ∃ value, d.convention.readNumber? text = some value ∧
        tree = .constant value ∧ after = s) ∧
    ∀ value, d.convention.readNumber? text = some value →
      d.convention.tokenize text = .ok [⟨text, .number, 0⟩] := by
  refine ⟨fun tree after => ⟨?_, ?_⟩, fun value hread =>
    Convention.tokenize_of_readNumber? written hread⟩
  · intro h
    obtain ⟨tokens, formula, htokens, hderives, hafter, htree⟩ :=
      s.exists_derives_of_compile h
    obtain ⟨token, value, rfl, -, hread, rfl⟩ :=
      hderives.eq_number (Convention.inert_of_tokenize written htokens)
    rw [Convention.text_eq_of_tokenize written htokens] at hread
    exact ⟨value, hread, htree, hafter⟩
  · rintro ⟨value, hread, rfl, rfl⟩
    have htokens := Convention.tokenize_of_readNumber? written hread
    have hnumber : Derives d .atom [⟨text, .number, 0⟩] (.constant value) :=
      .number rfl hread
    exact after.compile_of_derives htokens (hnumber.looser (Nat.zero_le _))

/-- A literal with both separators. -/
theorem Scope.compile_literal_grouped :
    (∀ c ∈ "1,234.5".toList, Convention.invariant.continuesNumber c) ∧
      empty.compile ⟨.invariant, .standard⟩ "1,234.5" =
        (.ok (.constant (Numeral.value ⟨"1234".toList, "5".toList⟩)), empty) ∧
      Convention.invariant.tokenize "1,234.5" = .ok [⟨"1,234.5", .number, 0⟩] := by
  have hwritten : ∀ c ∈ "1,234.5".toList, Convention.invariant.continuesNumber c :=
    List.all_eq_true.mp (by decide)
  have hliteral : Numeral.ofLiteral? .invariant "1,234.5".toList =
      some ⟨"1234".toList, "5".toList⟩ := by
    decide
  have hread : Convention.invariant.readNumber? "1,234.5" =
      some (Numeral.value ⟨"1234".toList, "5".toList⟩) := by
    rw [Convention.readNumber?, hliteral, Option.map_some]
  obtain ⟨hcompiles, htokens⟩ :=
    empty.compile_literal ⟨.invariant, .standard⟩ hwritten
  exact ⟨hwritten, (hcompiles _ _).mpr ⟨_, hread, rfl, rfl⟩, htokens _ hread⟩

end Formulary
