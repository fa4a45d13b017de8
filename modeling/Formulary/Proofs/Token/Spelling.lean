import Formulary.Operator
import Formulary.Proofs.Numeral
import Formulary.Proofs.Token.Lexeme

/-!
# Texts that make a certain token

A name, a plain numeral and a symbol each make one token, wherever they stand
and whatever the convention, as long as what follows does not go on with the
token.  A blank, a parenthesis or a separator ends every name and every number.
A symbol that starts no operator of two characters is a token whatever follows,
and any operator is one before a blank.

None of these texts is at fault, so the search for faults passes over them.

* `Convention.scan_name`, `scan_chars`, `scan_symbol` and `scan_operator` are
  the tokens;
* `Convention.Passable` is what the search for faults passes over.
-/

namespace Formulary.Convention

variable {convention : Convention}

/-- Whether the characters go on with no name and no number. -/
def Ends (convention : Convention) (rest : List Char) : Prop :=
  ∀ c ∈ rest.head?, continuesName c = false ∧ convention.continuesNumber c = false

/-- The end of a text ends every token. -/
theorem ends_nil : Ends convention [] := by
  simp [Ends]

/-- A character with another meaning separates nothing. -/
theorem isSeparator_of_isReserved (convention : Convention) {c : Char}
    (h : isReserved c) : convention.isSeparator c = false := by
  simp only [isSeparator, Bool.or_eq_false_iff, beq_eq_false_iff_ne]
  constructor
  · rintro rfl
    rw [convention.decimal_free] at h
    cases h
  · rintro rfl
    rw [convention.group_free] at h
    cases h

/-- A blank, a parenthesis or a separator of arguments ends every token. -/
theorem ends_cons {c : Char} (h : c ∈ [' ', '(', ')', ';']) (rest : List Char) :
    Ends convention (c :: rest) := by
  have hall : ∀ c ∈ [' ', '(', ')', ';'],
      (!continuesName c && !c.isDigit && isReserved c) = true :=
    List.all_eq_true.mp (by decide)
  have hfree := hall c h
  simp only [Bool.and_eq_true, Bool.not_eq_true'] at hfree
  obtain ⟨⟨hname, hdigit⟩, hreserved⟩ := hfree
  intro x hx
  obtain rfl : c = x := by simpa using hx
  refine ⟨hname, ?_⟩
  rw [continuesNumber, hdigit, convention.isSeparator_of_isReserved hreserved,
    Bool.or_false]

/-- The same of texts of one character. -/
theorem ends_symbol {symbol : String} (h : symbol ∈ [" ", "(", ")", ";"])
    (rest : List Char) : Ends convention (symbol.toList ++ rest) := by
  simp only [List.mem_cons, List.not_mem_nil, or_false] at h
  rcases h with rfl | rfl | rfl | rfl <;> exact ends_cons (by decide) rest

/-- The same of a separator with a blank after it. -/
theorem ends_separator (rest : List Char) :
    Ends convention ("; ".toList ++ rest) := by
  exact ends_cons (show ';' ∈ [' ', '(', ')', ';'] by decide) (' ' :: rest)

/-- A run of a kind is all that is taken before what is not of the kind. -/
private theorem takeWhile_run {p : Char → Bool} (run : List Char)
    {rest : List Char} (hrun : ∀ c ∈ run, p c) (hrest : ∀ c ∈ rest.head?, p c = false) :
    (run ++ rest).takeWhile p = run := by
  rw [List.takeWhile_append_of_pos hrun]
  cases rest with
  | nil => simp
  | cons c rest =>
    have hc : p c = false := hrest c rfl
    simp [hc]

/-- The characters of a name. -/
theorem continuesName_of_isName {text : String} (h : IsName text) :
    ∀ c ∈ text.toList, continuesName c := by
  obtain ⟨first, others, hsplit, hfirst, hothers⟩ := h
  rw [hsplit]
  refine List.forall_mem_cons.mpr ⟨?_, hothers⟩
  simp [continuesName, hfirst]

/-- A name is a token of letters. -/
theorem scan_name {text : String} (h : IsName text) {rest : List Char}
    (hrest : Ends convention rest) (position : Nat) :
    ∃ token next, token.category = .letter ∧ token.text = text ∧
      convention.scan compoundOperators position (text.toList ++ rest) =
        token :: convention.scan compoundOperators next rest := by
  have hall := continuesName_of_isName h
  have htake : (text.toList ++ rest).takeWhile continuesName = text.toList :=
    takeWhile_run _ hall fun c hc => (hrest c hc).1
  obtain ⟨first, others, hsplit, hfirst, -⟩ := h
  refine ⟨⟨String.ofList text.toList, .letter, position⟩,
    position + byteLength text.toList, rfl, String.ofList_toList, ?_⟩
  rw [hsplit] at htake ⊢
  refine scan_token (isBlank_of_startsName hfirst) ?_ rfl position
  rw [lexeme, if_pos hfirst]
  exact congrArg _ htake

/-- A plain numeral is a token of numbers. -/
theorem scan_chars (hdecimal : convention.decimal = '.') {n : Numeral}
    (h : n.Plain) {rest : List Char} (hrest : Ends convention rest)
    (position : Nat) :
    ∃ token next, token.category = .number ∧
      token.text = String.ofList n.chars ∧
      convention.scan compoundOperators position (n.chars ++ rest) =
        token :: convention.scan compoundOperators next rest := by
  have hstarts : ∀ c ∈ n.chars, convention.startsNumber c := by
    intro c hc
    simp only [startsNumber, hdecimal, Bool.or_eq_true, beq_iff_eq]
    exact Numeral.startsNumber_of_mem_chars h hc
  have hnone : convention.literal rest = [] := by
    have hrun : rest.takeWhile convention.continuesNumber = [] :=
      takeWhile_run [] (by simp) fun c hc => (hrest c hc).2
    simp [literal, hrun]
  obtain ⟨first, others, hwhole⟩ := List.exists_cons_of_ne_nil h.nonempty
  have hdigit : first.isDigit := h.whole_digits first (by simp [hwhole])
  obtain ⟨more, hsplit⟩ : ∃ more, n.chars = first :: more :=
    ⟨_, by rw [Numeral.chars, hwhole, List.cons_append]⟩
  have hliteral := literal_append hstarts rest
  rw [hnone, List.append_nil] at hliteral
  refine ⟨⟨String.ofList n.chars, .number, position⟩,
    position + byteLength n.chars, rfl, rfl, ?_⟩
  rw [hsplit] at hliteral hstarts ⊢
  refine scan_token (isBlank_of_isDigit hdigit) ?_ rfl position
  have hname : ¬startsName first := by
    rw [startsName_of_isDigit hdigit]
    decide
  rw [lexeme, if_neg hname, if_pos (hstarts first List.mem_cons_self)]
  exact congrArg _ hliteral

/-- A symbol of the grammar is a delimiter and nothing else. -/
theorem free_of_mem_reservedSymbols (convention : Convention) {c : Char}
    (h : c ∈ reservedSymbols) :
    isBlank c = false ∧ startsName c = false ∧
      convention.startsNumber c = false ∧ c ∈ delimiters := by
  have hall : ∀ c ∈ reservedSymbols, (!isBlank c && !startsName c &&
      !c.isDigit && isReserved c && delimiters.contains c) = true :=
    List.all_eq_true.mp (by decide)
  have hfree := hall c h
  simp only [Bool.and_eq_true, Bool.not_eq_true', List.contains_iff_mem] at hfree
  obtain ⟨⟨⟨⟨hblank, hname⟩, hdigit⟩, hreserved⟩, hdelimiter⟩ := hfree
  have hseparator := convention.isSeparator_of_isReserved hreserved
  simp only [isSeparator, Bool.or_eq_false_iff] at hseparator
  refine ⟨hblank, hname, ?_, hdelimiter⟩
  rw [startsNumber, hdigit, hseparator.1, Bool.or_false]

/-- A symbol is a token, alone or with the next character. -/
private theorem scan_reserved {c : Char} {rest chars after : List Char}
    (h : c ∈ reservedSymbols)
    (hchars : (if compoundOperators.contains
      (String.ofList ((c :: rest).take 2)) then (c :: rest).take 2 else [c]) =
        chars)
    (hsplit : c :: rest = chars ++ after) (position : Nat) :
    convention.scan compoundOperators position (c :: rest) =
      ⟨String.ofList chars, .delimiter, position⟩ ::
        convention.scan compoundOperators (position + byteLength chars)
          after := by
  obtain ⟨hblank, hname, hnumber, -⟩ := convention.free_of_mem_reservedSymbols h
  refine scan_token hblank ?_ hsplit position
  rw [lexeme, if_neg (by simp [hname]), if_neg (by simp [hnumber])]
  exact congrArg _ hchars

/-- Parentheses, separators and signs are tokens whatever follows. -/
theorem scan_symbol {symbol : String} (h : symbol ∈ ["(", ")", ";", "-"])
    (position : Nat) (rest : List Char) :
    ∃ token next, token.isDelimiter symbol ∧
      convention.scan compoundOperators position (symbol.toList ++ rest) =
        token :: convention.scan compoundOperators next rest := by
  have hsymbols : ∀ symbol ∈ ["(", ")", ";", "-"],
      (symbol.toList.length == 1 &&
        symbol.toList.all reservedSymbols.contains) = true :=
    List.all_eq_true.mp (by decide)
  have hheads : ∀ pair ∈ compoundOperators.map String.toList,
      (["(", ")", ";", "-"].all fun symbol =>
        pair.head? != symbol.toList.head?) = true :=
    List.all_eq_true.mp (by decide)
  have hsingle := hsymbols symbol h
  simp only [Bool.and_eq_true, beq_iff_eq, List.all_eq_true,
    List.contains_iff_mem] at hsingle
  obtain ⟨hlength, hreserved⟩ := hsingle
  refine ⟨⟨String.ofList symbol.toList, .delimiter, position⟩,
    position + byteLength symbol.toList, ?_, ?_⟩
  · exact Token.isDelimiter_iff.mpr ⟨rfl, String.ofList_toList⟩
  · match hchars : symbol.toList, hlength with
    | [c], _ =>
      rw [hchars] at hreserved
      refine scan_reserved (hreserved c (by simp)) (if_neg ?_) rfl position
      intro hcontains
      have hpair := List.mem_map_of_mem (f := String.toList)
        (List.contains_iff_mem.mp hcontains)
      rw [String.toList_ofList] at hpair
      have hhead := List.all_eq_true.mp (hheads _ hpair) symbol h
      simp [hchars] at hhead

/-- An operator before a blank is a token. -/
private theorem scan_symbol_blank {symbol : String}
    (h : symbol ∈ Operator.symbols) (position : Nat) (rest : List Char) :
    convention.scan compoundOperators position (symbol.toList ++ ' ' :: rest) =
      ⟨String.ofList symbol.toList, .delimiter, position⟩ ::
        convention.scan compoundOperators
          (position + byteLength symbol.toList) (' ' :: rest) := by
  have hall : ∀ symbol ∈ Operator.symbols,
      (symbol.toList.all reservedSymbols.contains &&
        (symbol.toList.length == 1 && !compoundOperators.contains
            (String.ofList (symbol.toList ++ [' '])) ||
          symbol.toList.length == 2 &&
            compoundOperators.contains (String.ofList symbol.toList))) = true :=
    List.all_eq_true.mp (by decide)
  have hfacts := hall symbol h
  generalize symbol.toList = chars at hfacts ⊢
  simp only [Bool.and_eq_true, Bool.or_eq_true, List.all_eq_true,
    List.contains_iff_mem, beq_iff_eq, Bool.not_eq_true'] at hfacts
  obtain ⟨hreserved, hlength⟩ := hfacts
  rcases hlength with ⟨hlength, hpair⟩ | ⟨hlength, hpair⟩
  · match chars, hlength with
    | [c], _ =>
      refine scan_reserved (hreserved c (by simp)) (if_neg ?_) rfl position
      simpa using hpair
  · match chars, hlength with
    | [c, next], _ =>
      refine scan_reserved (hreserved c (by simp)) (if_pos ?_) rfl position
      simpa using hpair

/-- The scan passes over a blank. -/
private theorem scan_blank (position : Nat) (rest : List Char) :
    convention.scan compoundOperators position (' ' :: rest) =
      convention.scan compoundOperators (position + byteLength [' ']) rest := by
  have hblank : ∀ c ∈ [' '], isBlank c := List.forall_mem_singleton.mpr rfl
  exact scan_blanks hblank position rest

/-- An operator between blanks is a token. -/
theorem scan_operator {symbol : String} (h : symbol ∈ Operator.symbols)
    (position : Nat) (rest : List Char) :
    ∃ token next, token.isDelimiter symbol ∧
      convention.scan compoundOperators position
          (" ".toList ++ (symbol.toList ++ (" ".toList ++ rest))) =
        token :: convention.scan compoundOperators next rest := by
  refine ⟨_, _, ?_, (scan_blank position _).trans
    ((scan_symbol_blank h _ rest).trans (congrArg _ (scan_blank _ rest)))⟩
  exact Token.isDelimiter_iff.mpr ⟨rfl, String.ofList_toList⟩

/-- A separator with a blank after it is a token. -/
theorem scan_separator (position : Nat) (rest : List Char) :
    ∃ token next, token.isDelimiter argumentSeparator ∧
      convention.scan compoundOperators position ("; ".toList ++ rest) =
        token :: convention.scan compoundOperators next rest := by
  obtain ⟨token, next, htoken, hscan⟩ :=
    scan_symbol (show ";" ∈ _ by decide) position (" ".toList ++ rest)
  exact ⟨token, _, htoken, hscan.trans (congrArg _ (scan_blank next rest))⟩

/-- Whether the search for faults passes over the characters and finds as many
parentheses open as before. -/
def Passable (convention : Convention) (chars : List Char) : Prop :=
  ∀ position depth rest, ∃ next,
    convention.fault? position depth (chars ++ rest) =
      convention.fault? next depth rest

namespace Passable

/-- Characters without fault that are no parentheses are passed over. -/
theorem of_quiet {chars : List Char} (h : ∀ c ∈ chars, Quiet convention c) :
    Passable convention chars :=
  fun position depth rest => ⟨_, fault?_quiet h position depth rest⟩

theorem append {front back : List Char} (hfront : Passable convention front)
    (hback : Passable convention back) : Passable convention (front ++ back) := by
  intro position depth rest
  obtain ⟨middle, hmiddle⟩ := hfront position depth (back ++ rest)
  obtain ⟨next, hnext⟩ := hback middle depth rest
  exact ⟨next, by rw [List.append_assoc, hmiddle, hnext]⟩

/-- What is between parentheses is passed over with them. -/
theorem parenthesized {inner : List Char} (h : Passable convention inner) :
    Passable convention ('(' :: (inner ++ [')'])) := by
  intro position depth rest
  have hdefined : ∀ c ∈ ['(', ')'], convention.classify c ≠ .undefined := by
    intro c hc
    rw [ne_eq, classify_eq_undefined_iff]
    intro hundefined
    have hall : ∀ c ∈ ['(', ')'], delimiters.contains c = true :=
      List.all_eq_true.mp (by decide)
    exact hundefined.2.2.2 (List.contains_iff_mem.mp (hall c hc))
  obtain ⟨next, hnext⟩ := h (position + ('(' : Char).utf8Size) (depth + 1)
    (')' :: rest)
  refine ⟨next + (')' : Char).utf8Size, ?_⟩
  have hopen : openAfter? depth '(' = some (depth + 1) := rfl
  have hclose : openAfter? (depth + 1) ')' = some depth := rfl
  rw [List.cons_append, List.append_assoc, List.singleton_append, fault?,
    if_neg (hdefined '(' (by simp))]
  simp only [hopen, hnext]
  rw [fault?, if_neg (hdefined ')' (by simp))]
  simp only [hclose]

end Passable

/-- The characters of names are quiet. -/
theorem quiet_of_continuesName {c : Char} (h : continuesName c) :
    Quiet convention c := by
  simp only [continuesName, Bool.or_eq_true] at h
  rcases h with hname | hdigit
  · exact quiet (Or.inr (Or.inr hname))
  · exact quiet (Or.inr (Or.inl (by simp [continuesNumber, hdigit])))

/-- Symbols other than parentheses are quiet. -/
theorem quiet_of_mem_reservedSymbols {c : Char} (h : c ∈ reservedSymbols)
    (hopening : c ≠ '(') (hclosing : c ≠ ')') : Quiet convention c := by
  refine ⟨?_, hopening, hclosing⟩
  rw [ne_eq, classify_eq_undefined_iff]
  intro hundefined
  exact hundefined.2.2.2 (convention.free_of_mem_reservedSymbols h).2.2.2

/-- Symbols other than parentheses are passed over. -/
private theorem passable_of_all {symbol : String}
    (h : (symbol.toList.all fun c =>
      reservedSymbols.contains c && c != '(' && c != ')') = true) :
    Passable convention symbol.toList := by
  refine .of_quiet fun c hc => ?_
  have hfacts := List.all_eq_true.mp h c hc
  simp only [Bool.and_eq_true, List.contains_iff_mem, bne_iff_ne] at hfacts
  exact quiet_of_mem_reservedSymbols hfacts.1.1 hfacts.1.2 hfacts.2

/-- A sign is passed over. -/
theorem passable_sign : Passable convention "-".toList :=
  passable_of_all (by decide)

/-- Operators are passed over. -/
theorem passable_operator {symbol : String} (h : symbol ∈ Operator.symbols) :
    Passable convention symbol.toList := by
  have hall : ∀ symbol ∈ Operator.symbols, (symbol.toList.all fun c =>
      reservedSymbols.contains c && c != '(' && c != ')') = true :=
    List.all_eq_true.mp (by decide)
  exact passable_of_all (hall symbol h)

/-- Blanks are passed over. -/
theorem passable_blank : Passable convention " ".toList := by
  refine .of_quiet fun c hc => ?_
  have hall : ∀ c ∈ " ".toList, isBlank c = true :=
    List.all_eq_true.mp (by decide)
  exact quiet (Or.inl (hall c hc))

/-- A separator with a blank after it is passed over. -/
theorem passable_separator : Passable convention "; ".toList := by
  have hseparator : Passable convention ";".toList := passable_of_all (by decide)
  exact hseparator.append passable_blank

end Formulary.Convention
