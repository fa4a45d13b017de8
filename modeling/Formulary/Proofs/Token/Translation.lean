import Formulary.Proofs.Grammar.Likeness
import Formulary.Proofs.Token.Spelling

/-!
# From one convention to another

A text is translated from one convention to another by writing the separators of
the second for those of the first, all at once.  If the text has no character
that only the second convention knows as a separator, every character is as
before: a separator becomes the separator of the same kind, and any other
character stays what it is, since no separator has another meaning.

The lexer asks for nothing but the kinds of characters and their order.  So a
translated text has a token for each token of the text, over the translated
characters, and its faults are where the text's are, though at other offsets.
A number keeps its digits; a separator in no number is a delimiter, and no symbol
of the grammar, in either text.

* `Convention.translate` translates a character, and `Convention.Fits` says which
  texts can be translated;
* `Convention.scan_translate` and `Convention.fault?_translate` compare tokens and
  faults;
* `Convention.tokenize_translate` is the statement for whole texts.
-/

namespace Formulary

namespace Convention

/-- The character with the separators of the target for those of the source. -/
def translate (source target : Convention) (c : Char) : Char :=
  if c = source.decimal then target.decimal
  else if c = source.group then target.group
  else c

/-- Whether the character separates in the target only if it does in the
source. -/
def Fits (source target : Convention) (c : Char) : Prop :=
  target.isSeparator c → source.isSeparator c

variable {source target : Convention}

/-- A character is one separator or the other, or has nothing to do with either
convention. -/
theorem Fits.cases {c : Char} (h : source.Fits target c) :
    (c = source.decimal ∧ source.translate target c = target.decimal) ∨
      (c = source.group ∧ source.translate target c = target.group) ∨
      (source.isSeparator c = false ∧ target.isSeparator c = false ∧
        source.translate target c = c) := by
  by_cases hdecimal : c = source.decimal
  · exact Or.inl ⟨hdecimal, if_pos hdecimal⟩
  by_cases hgroup : c = source.group
  · refine Or.inr (Or.inl ⟨hgroup, ?_⟩)
    rw [translate, if_neg hdecimal, if_pos hgroup]
  · have hsource : source.isSeparator c = false := by
      simp [isSeparator, hdecimal, hgroup]
    refine Or.inr (Or.inr ⟨hsource, ?_, ?_⟩)
    · rw [Bool.eq_false_iff]
      intro htarget
      rw [h htarget] at hsource
      cases hsource
    · rw [translate, if_neg hdecimal, if_neg hgroup]

theorem isSeparator_decimal (convention : Convention) :
    convention.isSeparator convention.decimal = true := by
  simp [isSeparator]

theorem isSeparator_group (convention : Convention) :
    convention.isSeparator convention.group = true := by
  simp [isSeparator]

/-- A property that no separator has is not changed. -/
theorem Fits.eq_of_free {c : Char} (h : source.Fits target c) {p : Char → Bool}
    (hfree : ∀ (convention : Convention) (x : Char), convention.isSeparator x →
      p x = false) : p (source.translate target c) = p c := by
  rcases h.cases with ⟨rfl, htranslate⟩ | ⟨rfl, htranslate⟩ | ⟨-, -, htranslate⟩
  · rw [htranslate, hfree target _ target.isSeparator_decimal,
      hfree source _ source.isSeparator_decimal]
  · rw [htranslate, hfree target _ target.isSeparator_group,
      hfree source _ source.isSeparator_group]
  · rw [htranslate]

/-- A character that separates nothing stays. -/
theorem translate_of_not_separator {c : Char} (h : source.isSeparator c = false) :
    source.translate target c = c := by
  simp only [isSeparator, Bool.or_eq_false_iff, beq_eq_false_iff_ne] at h
  rw [translate, if_neg h.1, if_neg h.2]

section Character

variable {c : Char} (h : source.Fits target c)

include h

theorem Fits.isBlank : isBlank (source.translate target c) = isBlank c :=
  h.eq_of_free fun _ _ hx => (free_of_isSeparator hx).2.2.1

theorem Fits.isDigit : (source.translate target c).isDigit = c.isDigit :=
  h.eq_of_free (p := Char.isDigit) fun _ _ hx => (free_of_isSeparator hx).1

theorem Fits.startsName :
    startsName (source.translate target c) = startsName c :=
  h.eq_of_free fun _ _ hx => (free_of_isSeparator hx).2.1

theorem Fits.continuesName :
    continuesName (source.translate target c) = continuesName c := by
  rw [Formulary.continuesName, Formulary.continuesName, h.startsName, h.isDigit]

theorem Fits.eq_decimal_iff :
    source.translate target c = target.decimal ↔ c = source.decimal := by
  rcases h.cases with ⟨rfl, htranslate⟩ | ⟨rfl, htranslate⟩ |
    ⟨hsource, htarget, htranslate⟩
  · simp [htranslate]
  · simp [htranslate, target.distinct.symm, source.distinct.symm]
  · simp only [isSeparator, Bool.or_eq_false_iff, beq_eq_false_iff_ne]
      at hsource htarget
    simp [htranslate, hsource.1, htarget.1]

theorem Fits.eq_group_iff :
    source.translate target c = target.group ↔ c = source.group := by
  rcases h.cases with ⟨rfl, htranslate⟩ | ⟨rfl, htranslate⟩ |
    ⟨hsource, htarget, htranslate⟩
  · simp [htranslate, target.distinct, source.distinct]
  · simp [htranslate]
  · simp only [isSeparator, Bool.or_eq_false_iff, beq_eq_false_iff_ne]
      at hsource htarget
    simp [htranslate, hsource.2, htarget.2]

theorem Fits.isSeparator :
    target.isSeparator (source.translate target c) = source.isSeparator c := by
  rw [Bool.eq_iff_iff]
  simp only [Convention.isSeparator, Bool.or_eq_true, beq_iff_eq, h.eq_decimal_iff,
    h.eq_group_iff]

theorem Fits.continuesNumber :
    target.continuesNumber (source.translate target c) =
      source.continuesNumber c := by
  rw [Convention.continuesNumber, Convention.continuesNumber, h.isDigit,
    h.isSeparator]

theorem Fits.startsNumber :
    target.startsNumber (source.translate target c) = source.startsNumber c := by
  rw [Bool.eq_iff_iff]
  simp only [Convention.startsNumber, Bool.or_eq_true, beq_iff_eq, h.isDigit,
    h.eq_decimal_iff]

/-- A character keeps its category. -/
theorem Fits.classify :
    target.classify (source.translate target c) = source.classify c := by
  have hnumber := h.continuesNumber
  rw [Convention.continuesNumber, Convention.continuesNumber] at hnumber
  simp only [Convention.classify, h.isBlank, hnumber, h.startsName]
  cases hseparator : source.isSeparator c with
  | false => rw [translate_of_not_separator hseparator]
  | true => simp

/-- A symbol of the grammar is the translation of itself alone. -/
theorem Fits.eq_symbol_iff {symbol : Char} (hsymbol : symbol ∈ reservedSymbols) :
    source.translate target c = symbol ↔ c = symbol := by
  have hp := h.eq_of_free (p := (· == symbol)) fun convention x hx => by
    rw [beq_eq_false_iff_ne]
    rintro rfl
    exact (free_of_isSeparator hx).2.2.2 hsymbol
  rw [← beq_iff_eq, hp, beq_iff_eq]

end Character

/-- Whether every character of the text can be translated. -/
def FitsAll (source target : Convention) (cs : List Char) : Prop :=
  ∀ c ∈ cs, source.Fits target c

/-- The translated text. -/
def translateAll (source target : Convention) (cs : List Char) : List Char :=
  cs.map (source.translate target)

theorem translateAll_cons (c : Char) (cs : List Char) :
    source.translateAll target (c :: cs) =
      source.translate target c :: source.translateAll target cs := rfl

theorem translateAll_append (front rest : List Char) :
    source.translateAll target (front ++ rest) =
      source.translateAll target front ++ source.translateAll target rest :=
  List.map_append

/-- A text whose characters stay is its own translation. -/
theorem translateAll_eq_self {cs : List Char}
    (h : ∀ c ∈ cs, source.translate target c = c) :
    source.translateAll target cs = cs :=
  (List.map_congr_left h).trans (List.map_id cs)

section Run

variable {cs : List Char} (h : source.FitsAll target cs)

include h

/-- A run of a kind is translated as a whole. -/
theorem FitsAll.takeWhile {p q : Char → Bool}
    (hp : ∀ {c}, source.Fits target c → p (source.translate target c) = q c) :
    (source.translateAll target cs).takeWhile p =
      source.translateAll target (cs.takeWhile q) := by
  induction cs with
  | nil => rfl
  | cons c rest ih =>
    obtain ⟨hc, hrest⟩ := List.forall_mem_cons.mp h
    rw [translateAll_cons, List.takeWhile_cons, List.takeWhile_cons, hp hc]
    split
    · rw [ih hrest, translateAll_cons]
    · rfl

/-- What comes after a run of a kind is translated. -/
theorem FitsAll.dropWhile {p q : Char → Bool}
    (hp : ∀ {c}, source.Fits target c → p (source.translate target c) = q c) :
    (source.translateAll target cs).dropWhile p =
      source.translateAll target (cs.dropWhile q) := by
  induction cs with
  | nil => rfl
  | cons c rest ih =>
    obtain ⟨hc, hrest⟩ := List.forall_mem_cons.mp h
    rw [translateAll_cons, List.dropWhile_cons, List.dropWhile_cons, hp hc]
    split
    · exact ih hrest
    · rfl

/-- The number at the front of a text is translated. -/
theorem FitsAll.literal :
    target.literal (source.translateAll target cs) =
      source.translateAll target (source.literal cs) := by
  have hrun := h.takeWhile (p := target.continuesNumber)
    (q := source.continuesNumber) Fits.continuesNumber
  have hlast : (source.translateAll target
      (cs.takeWhile source.continuesNumber)).getLast? = some target.group ↔
        (cs.takeWhile source.continuesNumber).getLast? = some source.group := by
    rw [translateAll, List.getLast?_map, Option.map_eq_some_iff]
    constructor
    · rintro ⟨c, hc, hgroup⟩
      have hmem := (List.takeWhile_sublist _).subset (List.mem_of_getLast? hc)
      rw [hc, (h c hmem).eq_group_iff.mp hgroup]
    · intro hc
      have hmem := (List.takeWhile_sublist _).subset (List.mem_of_getLast? hc)
      exact ⟨source.group, hc, (h source.group hmem).eq_group_iff.mpr rfl⟩
  rw [Convention.literal, Convention.literal, hrun]
  simp only [hlast]
  split
  · simp only [translateAll, List.map_dropLast]
  · rfl

end Run

/-- Symbols of the grammar are the translation of themselves alone. -/
theorem FitsAll.eq_symbols_iff {cs symbols : List Char}
    (h : source.FitsAll target cs)
    (hsymbols : ∀ c ∈ symbols, c ∈ reservedSymbols) :
    source.translateAll target cs = symbols ↔ cs = symbols := by
  constructor
  · rintro rfl
    refine (translateAll_eq_self fun c hc => ?_).symm
    have hsymbol := hsymbols _ (List.mem_map_of_mem hc)
    exact (((h c hc).eq_symbol_iff hsymbol).mp rfl).symm
  · rintro rfl
    refine translateAll_eq_self fun c hc => ?_
    exact ((h c hc).eq_symbol_iff (hsymbols c hc)).mpr rfl

/-- No separator is in an operator of two characters. -/
private theorem compound_translate {pair : List Char}
    (h : source.FitsAll target pair) :
    compoundOperators.contains (String.ofList (source.translateAll target pair)) =
      compoundOperators.contains (String.ofList pair) := by
  have hreserved : ∀ {chars : List Char},
      String.ofList chars ∈ compoundOperators →
        ∀ c ∈ chars, c ∈ reservedSymbols := by
    intro chars hchars
    have hall : ∀ symbol ∈ compoundOperators,
        symbol.toList.all reservedSymbols.contains = true :=
      List.all_eq_true.mp (by decide)
    simpa using hall _ hchars
  rw [Bool.eq_iff_iff, List.contains_iff_mem, List.contains_iff_mem]
  constructor
  · intro hcompound
    have hsame := (h.eq_symbols_iff (hreserved hcompound)).mp rfl
    rwa [← hsame] at hcompound
  · intro hcompound
    have hsame := (h.eq_symbols_iff (hreserved hcompound)).mpr rfl
    rwa [hsame]

/-- A token is translated with the text. -/
theorem lexeme_translate {c : Char} {rest : List Char}
    (h : source.FitsAll target (c :: rest)) :
    target.lexeme compoundOperators (source.translate target c)
        (source.translateAll target rest) =
      ((source.lexeme compoundOperators c rest).1,
        source.translateAll target (source.lexeme compoundOperators c rest).2) := by
  have hc := h c List.mem_cons_self
  have hpair : source.FitsAll target ((c :: rest).take 2) :=
    fun x hx => h x (List.mem_of_mem_take hx)
  have htake : (source.translateAll target (c :: rest)).take 2 =
      source.translateAll target ((c :: rest).take 2) :=
    (List.map_take).symm
  simp only [lexeme, ← translateAll_cons, hc.startsName, hc.startsNumber, htake,
    compound_translate hpair, h.literal,
    h.takeWhile (p := continuesName) (q := continuesName) Fits.continuesName]
  split
  · rfl
  split
  · rfl
  split <;> rfl

/-- The second token is a translation of the first. -/
structure Translates (source target : Convention) (a b : Token) : Prop where
  category : a.category = b.category
  fits : source.FitsAll target a.text.toList
  text : b.text.toList = source.translateAll target a.text.toList
  name : a.category = .letter → IsName a.text

/-- **The tokens of a translated text** are translations of the text's tokens.
Their positions are not compared, as separators differ in size. -/
theorem scan_translate {cs : List Char} (h : source.FitsAll target cs)
    (position other : Nat) :
    List.Forall₂ (source.Translates target)
      (source.scan compoundOperators position cs)
      (target.scan compoundOperators other (source.translateAll target cs)) := by
  induction cs using shorter_induction generalizing position other with
  | nil =>
    rw [translateAll, List.map_nil, scan, scan]
    exact .nil
  | cons c rest ih =>
    have hc := h c List.mem_cons_self
    by_cases hblank : isBlank c
    · rw [scan, translateAll_cons, scan, if_pos hblank,
        if_pos (hc.isBlank.trans hblank)]
      exact ih rest (Nat.le_refl _)
        (fun x hx => h x (List.mem_cons_of_mem _ hx)) _ _
    · rw [Bool.not_eq_true] at hblank
      obtain ⟨category, chars, after, hlexeme, hsplit, hshort, -, hscan⟩ :=
        exists_scan_cons source compoundOperators hblank rest
      have htranslated := lexeme_translate h
      have hsplit' : source.translate target c ::
          source.translateAll target rest =
            source.translateAll target chars ++
              source.translateAll target after := by
        rw [← translateAll_cons, ← translateAll_append, hsplit]
      rw [hlexeme] at htranslated
      rw [hscan, translateAll_cons,
        scan_token (hc.isBlank.trans hblank) htranslated hsplit']
      have hmember : ⟨String.ofList chars, category, position⟩ ∈
          source.scan compoundOperators position (c :: rest) := by
        rw [hscan]
        exact List.mem_cons_self
      rw [hsplit] at h
      refine .cons ⟨rfl, ?_, ?_, isName_of_mem_scan hmember⟩
        (ih after hshort (fun x hx => h x (List.mem_append_right _ hx)) _ _)
      · rw [String.toList_ofList]
        exact fun x hx => h x (List.mem_append_left _ hx)
      · rw [String.toList_ofList, String.toList_ofList]

/-- **The faults of a translated text** have the causes of the text's. -/
theorem fault?_translate {cs : List Char} (h : source.FitsAll target cs)
    (position other depth : Nat) :
    (target.fault? other depth (source.translateAll target cs)).map
        CompileError.cause =
      (source.fault? position depth cs).map CompileError.cause := by
  induction cs generalizing position other depth with
  | nil =>
    rw [translateAll, List.map_nil, fault?, fault?]
    split <;> rfl
  | cons c rest ih =>
    obtain ⟨hc, hrest⟩ := List.forall_mem_cons.mp h
    have hopen : openAfter? depth (source.translate target c) =
        openAfter? depth c := by
      simp only [openAfter?, hc.eq_symbol_iff (show '(' ∈ reservedSymbols by decide),
        hc.eq_symbol_iff (show ')' ∈ reservedSymbols by decide)]
    rw [translateAll_cons, fault?, fault?, hc.classify, hopen]
    split
    · rfl
    · cases openAfter? depth c with
      | none => rfl
      | some next => exact ih hrest _ _ _

/-- Digits stay. -/
private theorem translate_of_isDigit {c : Char} (h : c.isDigit) :
    source.translate target c = c := by
  refine translate_of_not_separator ?_
  rw [Bool.eq_false_iff]
  intro hseparator
  rw [(free_of_isSeparator hseparator).1] at h
  cases h

/-- Groups stay groups. -/
private theorem isGrouped_translate {cs : List Char}
    (h : source.FitsAll target cs) (afterDigit : Bool) :
    isGrouped target.group afterDigit (source.translateAll target cs) =
      isGrouped source.group afterDigit cs := by
  induction cs generalizing afterDigit with
  | nil => rfl
  | cons c rest ih =>
    obtain ⟨hc, hrest⟩ := List.forall_mem_cons.mp h
    have hgroup : (source.translate target c == target.group) =
        (c == source.group) := by
      rw [Bool.eq_iff_iff, beq_iff_eq, beq_iff_eq, hc.eq_group_iff]
    have hnext : (source.translateAll target rest).head?.any Char.isDigit =
        rest.head?.any Char.isDigit := by
      cases rest with
      | nil => rfl
      | cons next rest => exact (hrest next List.mem_cons_self).isDigit
    rw [translateAll_cons, isGrouped, isGrouped, hc.isDigit, hgroup, hnext,
      ih hrest, ih hrest]

/-- The digits of a text stay, and nothing else becomes one. -/
private theorem filter_translate {cs : List Char} (h : source.FitsAll target cs) :
    (source.translateAll target cs).filter Char.isDigit =
      cs.filter Char.isDigit := by
  induction cs with
  | nil => rfl
  | cons c rest ih =>
    obtain ⟨hc, hrest⟩ := List.forall_mem_cons.mp h
    rw [translateAll_cons, List.filter_cons, List.filter_cons, hc.isDigit]
    split
    · next hdigit => rw [ih hrest, translate_of_isDigit hdigit]
    · exact ih hrest

/-- A text of digits stays one. -/
private theorem all_translate {cs : List Char} (h : source.FitsAll target cs) :
    (source.translateAll target cs).all Char.isDigit = cs.all Char.isDigit := by
  rw [translateAll, List.all_map, Bool.eq_iff_iff, List.all_eq_true,
    List.all_eq_true]
  constructor
  · intro hall c hc
    exact (h c hc).isDigit.symm.trans (hall c hc)
  · intro hall c hc
    exact (h c hc).isDigit.trans (hall c hc)

/-- A text has a digit exactly if its digits are some. -/
private theorem any_isDigit_iff {cs : List Char} :
    cs.any Char.isDigit = !(cs.filter Char.isDigit).isEmpty := by
  rw [Bool.eq_iff_iff]
  simp

/-- A literal spells the same digits. -/
theorem ofLiteral?_translate {cs : List Char} (h : source.FitsAll target cs) :
    Numeral.ofLiteral? target (source.translateAll target cs) =
      Numeral.ofLiteral? source cs := by
  have hdecimal : ∀ {c}, source.Fits target c →
      decide (source.translate target c ≠ target.decimal) =
        decide (c ≠ source.decimal) := by
    intro c hc
    rw [decide_eq_decide, ne_eq, hc.eq_decimal_iff]
  have hwhole := h.takeWhile (p := fun c => decide (c ≠ target.decimal))
    (q := fun c => decide (c ≠ source.decimal)) hdecimal
  have hfraction := h.dropWhile (p := fun c => decide (c ≠ target.decimal))
    (q := fun c => decide (c ≠ source.decimal)) hdecimal
  have hwholeFits : source.FitsAll target
      (cs.takeWhile fun c => decide (c ≠ source.decimal)) :=
    fun c hc => h c ((List.takeWhile_sublist _).subset hc)
  have hfractionFits : source.FitsAll target
      ((cs.dropWhile fun c => decide (c ≠ source.decimal)).drop 1) :=
    fun c hc => h c ((List.dropWhile_sublist _).subset (List.mem_of_mem_drop hc))
  have hdrop : (source.translateAll target
      (cs.dropWhile fun c => decide (c ≠ source.decimal))).drop 1 =
        source.translateAll target
          ((cs.dropWhile fun c => decide (c ≠ source.decimal)).drop 1) :=
    List.map_drop.symm
  simp only [Numeral.ofLiteral?, hwhole, hfraction, hdrop,
    isGrouped_translate hwholeFits, all_translate hfractionFits,
    List.any_append, any_isDigit_iff, filter_translate hwholeFits,
    filter_translate hfractionFits]
  split
  · next hform =>
    simp only [Bool.and_eq_true] at hform
    rw [translateAll_eq_self fun c hc =>
      translate_of_isDigit (List.all_eq_true.mp hform.1.2 c hc)]
  · rfl

/-- Translations are alike: a number has the same value, a name the same text, and
a symbol is the same symbol. -/
theorem Translates.alike {a b : Token} (h : source.Translates target a b)
    (functions : FunctionTable) :
    a.Alike ⟨source, functions⟩ ⟨target, functions⟩ b where
  category := h.category
  delimiter := by
    intro symbol hsymbol
    have hall : ∀ symbol ∈ grammarSymbols,
        symbol.toList.all reservedSymbols.contains = true :=
      List.all_eq_true.mp (by decide)
    have hreserved : ∀ c ∈ symbol.toList, c ∈ reservedSymbols := by
      simpa using hall symbol hsymbol
    have hiff := h.fits.eq_symbols_iff hreserved
    rw [← h.text] at hiff
    rw [Bool.eq_iff_iff, Token.isDelimiter_iff, Token.isDelimiter_iff, h.category,
      ← String.toList_inj, ← String.toList_inj, hiff]
  name := by
    intro hletter
    have hname := continuesName_of_isName (h.name hletter)
    rw [← String.toList_inj, h.text]
    refine (translateAll_eq_self fun c hc => translate_of_not_separator ?_).symm
    have hcontinues := hname c hc
    rw [Bool.eq_false_iff]
    intro hseparator
    obtain ⟨hdigit, hstarts, -⟩ := free_of_isSeparator hseparator
    rw [continuesName, hstarts, hdigit] at hcontinues
    cases hcontinues
  number := by
    intro _
    show source.readNumber? a.text = target.readNumber? b.text
    rw [readNumber?, readNumber?, h.text, ofLiteral?_translate h.fits]

/-- **A translated text has tokens if the text has**, and the two lists are alike;
otherwise both have a fault of the same cause. -/
theorem tokenize_translate {text : String}
    (h : source.FitsAll target text.toList) (functions : FunctionTable) :
    (∃ tokens tokens', source.tokenize text = .ok tokens ∧
        target.tokenize (String.ofList (source.translateAll target text.toList)) =
          .ok tokens' ∧
        List.Forall₂ (Token.Alike ⟨source, functions⟩ ⟨target, functions⟩) tokens
          tokens') ∨
      ∃ e e', source.tokenize text = .error e ∧
        target.tokenize (String.ofList (source.translateAll target text.toList)) =
          .error e' ∧
        e.cause = e'.cause := by
  have hfaults := fault?_translate h 0 0 0
  have htokens := scan_translate h 0 0
  rw [tokenize_eq, tokenize_eq, String.toList_ofList]
  cases hfault : source.fault? 0 0 text.toList with
  | none =>
    rw [hfault, Option.map_none, Option.map_eq_none_iff] at hfaults
    rw [hfaults]
    exact Or.inl ⟨_, _, rfl, rfl, htokens.imp fun _ _ ha => ha.alike functions⟩
  | some e =>
    rw [hfault, Option.map_some, Option.map_eq_some_iff] at hfaults
    obtain ⟨e', hfault', hcause⟩ := hfaults
    rw [hfault']
    exact Or.inr ⟨e, e', rfl, rfl, hcause.symm⟩

end Convention

end Formulary
