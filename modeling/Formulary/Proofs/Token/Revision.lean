import Formulary.Proofs.Token.Layout
import Formulary.Proofs.Token.Spelling
import Mathlib.Data.List.Forall2

/-!
# Texts that are woven anew

From the tokens of a text and the gaps between them other texts can be woven,
with other gaps, or with other words in place of some names.  Such a text has the
tokens that one expects, if a gap that was there stays and every new word is
enclosed in parentheses.

Two decisions look across the end of a token: a delimiter may join the next
character, and a group separator belongs to the number before it if another
character of a number follows.  What comes after a token in the new text begins
as in the old one, or with a character that goes on with no token.  So neither
decision changes, as long as no number ends with a group separator, which would
be in it on account of what followed.

* `Convention.Closes` are the texts that go on with no token;
* `Convention.IsToken.congr` is the decision at the end of one token;
* `Convention.Revises` relates a text to one that is woven anew;
* `Convention.Revises.scan` gives the tokens of the new text, and
  `Convention.Revises.tokenize` those of a whole one;
* `Convention.Layout.revises` says that weaving revises.
-/

namespace Formulary.Convention

variable {convention : Convention}

/-- Whether the text goes on with no token: it is at its end, or starts with a
blank or a parenthesis. -/
def Closes (cs : List Char) : Prop :=
  ∀ c ∈ cs.head?, c ∈ [' ', '\t', '\r', '\n', '(', ')']

theorem closes_nil : Closes [] := by
  simp [Closes]

theorem closes_cons {c : Char} (h : c ∈ [' ', '\t', '\r', '\n', '(', ')'])
    (rest : List Char) : Closes (c :: rest) := by
  intro x hx
  obtain rfl : c = x := by simpa using hx
  exact h

/-- A blank before a text closes it. -/
theorem closes_blanks {run : List Char} (hblank : ∀ c ∈ run, isBlank c)
    (hrun : run ≠ []) (rest : List Char) : Closes (run ++ rest) := by
  obtain ⟨c, more, rfl⟩ := List.exists_cons_of_ne_nil hrun
  refine closes_cons ?_ _
  exact List.mem_append_left ['(', ')']
    (isBlank_iff.mp (hblank c List.mem_cons_self))

/-- Blanks and parentheses go on with no name and no number. -/
theorem Closes.ends {cs : List Char} (h : Closes cs) : Ends convention cs := by
  intro c hc
  have hmem := h c hc
  have hall : ∀ c ∈ [' ', '\t', '\r', '\n', '(', ')'], isReserved c = true :=
    List.all_eq_true.mp (by decide)
  obtain ⟨hdigit, hname⟩ := not_continuesName hmem
  refine ⟨by rw [continuesName, hname, hdigit, Bool.or_false], ?_⟩
  rw [continuesNumber, hdigit, convention.isSeparator_of_isReserved (hall c hmem),
    Bool.or_false]

/-- Blanks and parentheses join no delimiter. -/
theorem Closes.not_compound {cs : List Char} (h : Closes cs) (c : Char) :
    compoundOperators.contains (String.ofList ((c :: cs).take 2)) = false := by
  have hall : ∀ pair ∈ compoundOperators.map String.toList,
      (pair.length == 2 && [' ', '\t', '\r', '\n', '(', ')'].all fun x =>
        !(pair.drop 1).contains x) = true :=
    List.all_eq_true.mp (by decide)
  rw [Bool.eq_false_iff]
  intro hcontains
  have hmem := List.mem_map_of_mem (f := String.toList)
    (List.contains_iff_mem.mp hcontains)
  rw [String.toList_ofList] at hmem
  have hpair := hall _ hmem
  simp only [Bool.and_eq_true, beq_iff_eq, List.all_eq_true,
    Bool.not_eq_true'] at hpair
  cases cs with
  | nil => simp at hpair
  | cons x rest =>
    have hx := hpair.2 x (h x rfl)
    simp at hx

/-- Whether what comes after a token begins as before or ends every token. -/
def Borders (before after : List Char) : Prop :=
  Closes after ∨ after.head? = before.head?

theorem borders_append {before after : List Char} (h : Borders before after)
    (chars : List Char) : Borders (chars ++ before) (chars ++ after) := by
  cases chars with
  | nil => exact h
  | cons c more => exact Or.inr rfl

/-- A run that ends before the old text ends before the new one, if it ends before
every text that ends tokens. -/
theorem Borders.takeWhile_eq_nil {before after : List Char} {p : Char → Bool}
    (h : Borders before after)
    (hcloses : ∀ cs, Ends convention cs → cs.takeWhile p = [])
    (hbefore : before.takeWhile p = []) : after.takeWhile p = [] := by
  rcases h with h | h
  · exact hcloses after h.ends
  · cases after with
    | nil => rfl
    | cons c after =>
      cases before with
      | nil => cases h
      | cons c' before =>
        obtain rfl := Option.some.inj h
        by_cases hc : p c
        · rw [List.takeWhile_cons_of_pos hc] at hbefore
          cases hbefore
        · rw [List.takeWhile_cons_of_neg hc]

/-- No name and no number goes on in a text that ends them. -/
theorem Ends.takeWhile_eq_nil {cs : List Char} (h : Ends convention cs) :
    cs.takeWhile continuesName = [] ∧
      cs.takeWhile convention.continuesNumber = [] := by
  cases cs with
  | nil => exact ⟨rfl, rfl⟩
  | cons c rest =>
    obtain ⟨hname, hnumber⟩ := h c rfl
    exact ⟨List.takeWhile_cons_of_neg (by simp [hname]),
      List.takeWhile_cons_of_neg (by simp [hnumber])⟩

theorem Closes.literal_eq_nil {cs : List Char} (h : Closes cs) :
    convention.literal cs = [] := by
  have hends : Ends convention cs := h.ends
  simp [literal, hends.takeWhile_eq_nil.2]

/-- A run of digits and separators that does not end with a group separator is
part of the number as a whole. -/
theorem literal_append_of_complete {run : List Char}
    (hrun : ∀ c ∈ run, convention.continuesNumber c)
    (hlast : run.getLast? ≠ some convention.group) (rest : List Char) :
    convention.literal (run ++ rest) = run ++ convention.literal rest := by
  induction run with
  | nil => rfl
  | cons c run ih =>
    obtain ⟨hc, hmore⟩ := List.forall_mem_cons.mp hrun
    have hgoes : c = convention.group →
        (run ++ rest).takeWhile convention.continuesNumber ≠ [] := by
      rintro rfl
      cases run with
      | nil => simp at hlast
      | cons next run =>
        rw [List.cons_append,
          List.takeWhile_cons_of_pos (hmore next List.mem_cons_self)]
        simp
    have hlast : run.getLast? ≠ some convention.group := by
      cases run with
      | nil => simp
      | cons next run => rwa [List.getLast?_cons_cons] at hlast
    rw [List.cons_append, literal_cons, if_pos ⟨hc, hgoes⟩, ih hmore hlast,
      List.cons_append]

/-- A delimiter joins the next character in the new text if it does in the old
one. -/
private theorem pair_congr {c : Char} {more before after : List Char}
    (hborders : Borders before after)
    (h : (if compoundOperators.contains
        (String.ofList ((c :: (more ++ before)).take 2)) then
      (c :: (more ++ before)).take 2 else [c]) = c :: more) :
    (if compoundOperators.contains
        (String.ofList ((c :: (more ++ after)).take 2)) then
      (c :: (more ++ after)).take 2 else [c]) = c :: more := by
  split at h
  · next hpair =>
    rw [h] at hpair
    cases more with
    | nil =>
      rw [show [c] = [c].take 2 from rfl, closes_nil.not_compound c] at hpair
      cases hpair
    | cons next more =>
      obtain rfl : more = [] := by simpa using h
      exact if_pos hpair
  · next hpair =>
    obtain rfl : more = [] := by simpa using h
    refine if_neg ?_
    rw [Bool.not_eq_true]
    rcases hborders with hcloses | hhead
    · exact hcloses.not_compound c
    · rw [Bool.not_eq_true] at hpair
      have htake : after.take 1 = before.take 1 := by
        rw [List.take_one, List.take_one, hhead]
      simpa only [List.nil_append, List.take_succ_cons, htake] using hpair

/-- **The end of a token is decided by what follows it.**  A token that is
complete stays one if what follows it begins as before or ends every token, and
starts with no number if it did not before. -/
theorem IsToken.congr {category : Category} {chars before after : List Char}
    (h : convention.IsToken category chars before)
    (hcomplete : category = .number → chars.getLast? ≠ some convention.group)
    (hborders : Borders before after)
    (hliteral : convention.literal before = [] → convention.literal after = []) :
    convention.IsToken category chars after := by
  obtain ⟨c, more, rfl, hblank, hlexeme⟩ := h
  refine ⟨c, more, rfl, hblank, ?_⟩
  simp only [lexeme] at hlexeme ⊢
  split at hlexeme
  · next hname =>
    obtain ⟨rfl, hchars⟩ := Prod.mk.inj hlexeme
    rw [if_pos hname]
    have hall : ∀ x ∈ c :: more, continuesName x := by
      rw [← hchars]
      exact List.all_eq_true.mp List.all_takeWhile
    rw [← List.cons_append, List.takeWhile_append_of_pos hall] at hchars ⊢
    have hbefore := List.append_right_eq_self.mp hchars
    have hends : ∀ cs, Ends convention cs → cs.takeWhile continuesName = [] :=
      fun cs hcs => hcs.takeWhile_eq_nil.1
    rw [hborders.takeWhile_eq_nil hends hbefore, List.append_nil]
  · next hname =>
    rw [if_neg hname]
    split at hlexeme
    · next hnumber =>
      obtain ⟨rfl, hchars⟩ := Prod.mk.inj hlexeme
      rw [if_pos hnumber]
      have hall : ∀ x ∈ c :: more, convention.continuesNumber x := by
        intro x hx
        rw [← hchars] at hx
        exact continuesNumber_of_mem_literal hx
      rw [← List.cons_append,
        literal_append_of_complete hall (hcomplete rfl)] at hchars ⊢
      rw [hliteral (List.append_right_eq_self.mp hchars), List.append_nil]
    · next hnumber =>
      rw [if_neg hnumber]
      obtain ⟨rfl, hchars⟩ := Prod.mk.inj hlexeme
      exact Prod.ext rfl (pair_congr hborders hchars)

/-- A stretch of text is at fault wherever it stands, or is passed with so many
parentheses open after it. -/
private theorem fault?_stretch (convention : Convention) (chars : List Char)
    (depth : Nat) :
    (∀ position rest, convention.fault? position depth (chars ++ rest) ≠ none) ∨
      ∃ depth', ∀ position rest,
        convention.fault? position depth (chars ++ rest) =
          convention.fault? (position + byteLength chars) depth' rest := by
  induction chars generalizing depth with
  | nil => exact Or.inr ⟨depth, fun _ _ => rfl⟩
  | cons c chars ih =>
    simp only [List.cons_append, fault?, byteLength]
    by_cases hundefined : convention.classify c = .undefined
    · simp [hundefined]
    simp only [if_neg hundefined]
    cases openAfter? depth c with
    | none => simp
    | some next =>
      rcases ih next with hfault | ⟨depth', hpass⟩
      · exact Or.inl fun position rest => hfault _ rest
      · refine Or.inr ⟨depth', fun position rest => ?_⟩
        rw [← Nat.add_assoc]
        exact hpass _ rest

/-- A character opens and closes as much inside of further parentheses. -/
private theorem openAfter?_add {depth next : Nat} {c : Char}
    (h : openAfter? depth c = some next) (extra : Nat) :
    openAfter? (depth + extra) c = some (next + extra) := by
  rw [openAfter?] at h ⊢
  by_cases hopens : c = '('
  · rw [if_pos hopens] at h ⊢
    obtain rfl := Option.some.inj h
    rw [Nat.add_right_comm]
  rw [if_neg hopens] at h ⊢
  by_cases hcloses : c = ')'
  · rw [if_pos hcloses] at h ⊢
    by_cases hdepth : depth = 0
    · rw [if_pos hdepth] at h
      cases h
    · rw [if_neg hdepth] at h
      obtain rfl := Option.some.inj h
      rw [if_neg (by omega), Nat.sub_add_comm (Nat.one_le_iff_ne_zero.mpr hdepth)]
  · rw [if_neg hcloses] at h ⊢
    obtain rfl := Option.some.inj h
    rfl

/-- A text without fault is passed over also where it stands inside of open
parentheses. -/
private theorem fault?_deeper {position depth : Nat} {cs : List Char}
    (h : convention.fault? position depth cs = none) (start extra : Nat)
    (rest : List Char) : ∃ next,
      convention.fault? start (depth + extra) (cs ++ rest) =
        convention.fault? next extra rest := by
  induction cs generalizing position depth start with
  | nil =>
    have hdepth : depth = 0 := by simpa [fault?] using h
    exact ⟨start, by rw [hdepth, Nat.zero_add, List.nil_append]⟩
  | cons c cs ih =>
    rw [fault?] at h
    split at h
    · cases h
    next hdefined =>
    cases hopen : openAfter? depth c with
    | none => simp [hopen] at h
    | some next =>
      simp only [hopen] at h
      rw [List.cons_append, fault?, if_neg hdefined]
      simp only [openAfter?_add hopen extra]
      exact ih h _

/-- A text without fault is passed over. -/
theorem passable_of_fault? {cs : List Char}
    (h : convention.fault? 0 0 cs = none) : Passable convention cs := by
  intro position depth rest
  have hdeeper := fault?_deeper h position depth rest
  rwa [Nat.zero_add] at hdeeper

/-- Blanks are no fault. -/
private theorem quiet_of_blank {run : List Char} (h : ∀ c ∈ run, isBlank c) :
    ∀ c ∈ run, Quiet convention c :=
  fun c hc => quiet (Or.inl (h c hc))

/-- Whether the text in parentheses has the contents, whatever follows it. -/
structure Enclosed (convention : Convention) (word : List Char)
    (contents : List (String × Category)) : Prop where
  opens : word.head? = some '('
  passable : convention.Passable word
  scans : ∀ position rest, ∃ tokens next,
    convention.scan compoundOperators position (word ++ rest) =
        tokens ++ convention.scan compoundOperators next rest ∧
      tokens.map Token.content = contents

/-- The second text is the first one with other gaps, with words in parentheses
in place of some names, and with the tail after it; these are its contents up to
the tail. -/
inductive Revises (convention : Convention) (tail : List Char) :
    List Char → List Char → List (String × Category) → Prop where
  | blanks {run run' : List Char} (blank : ∀ c ∈ run, isBlank c)
      (respaced : Respaced run run') :
      Revises convention tail run (run' ++ tail) []
  | kept {run run' chars rest rest' : List Char} {category : Category}
      {contents : List (String × Category)} (blank : ∀ c ∈ run, isBlank c)
      (respaced : Respaced run run')
      (isToken : convention.IsToken category chars rest)
      (complete : category = .number → chars.getLast? ≠ some convention.group)
      (others : Revises convention tail rest rest' contents) :
      Revises convention tail (run ++ (chars ++ rest)) (run' ++ (chars ++ rest'))
        ((String.ofList chars, category) :: contents)
  | replaced {run run' chars word rest rest' : List Char}
      {inner contents : List (String × Category)} (blank : ∀ c ∈ run, isBlank c)
      (respaced : Respaced run run') (quiet : ∀ c ∈ chars, Quiet convention c)
      (enclosed : convention.Enclosed word inner)
      (others : Revises convention tail rest rest' contents) :
      Revises convention tail (run ++ (chars ++ rest)) (run' ++ (word ++ rest'))
        (inner ++ contents)

namespace Revises

variable {tail before after : List Char} {contents : List (String × Category)}

/-- The new text ends every token, or both begin with one token. -/
private theorem closes_or (h : Revises convention tail before after contents)
    (htail : Closes tail) :
    Closes after ∨ ∃ c more rest rest' others, before = c :: (more ++ rest) ∧
      after = c :: (more ++ rest') ∧
      Revises convention tail rest rest' others := by
  have hgap : ∀ {run run' : List Char} (_ : Respaced run run') {others},
      (run' = [] → Closes others) → Closes (run' ++ others) := by
    intro run run' respaced others hothers
    by_cases hrun : run' = []
    · rw [hrun]
      exact hothers hrun
    · exact closes_blanks respaced.blank hrun _
  cases h with
  | blanks _ respaced => exact Or.inl (hgap respaced fun _ => htail)
  | @kept run run' _ _ _ _ _ _ respaced isToken _ others =>
    by_cases hrun : run' = []
    · obtain rfl : run = [] := Decidable.by_contra fun hne =>
        respaced.stays hne hrun
      obtain ⟨c, more, rfl, -⟩ := isToken
      exact Or.inr ⟨c, more, _, _, _, rfl, by rw [hrun]; rfl, others⟩
    · exact Or.inl (hgap respaced fun hnil => absurd hnil hrun)
  | replaced _ respaced _ enclosed =>
    obtain ⟨_, rfl⟩ := List.head?_eq_some_iff.mp enclosed.opens
    exact Or.inl (hgap respaced fun _ => closes_cons (by decide) _)

/-- The new text begins as the old one or ends every token. -/
theorem borders (h : Revises convention tail before after contents)
    (htail : Closes tail) : Borders before after := by
  rcases h.closes_or htail with hcloses | ⟨c, more, rest, rest', _, rfl, rfl, -⟩
  · exact Or.inl hcloses
  · exact Or.inr rfl

/-- The new text starts with no number if the old one does not. -/
theorem literal_eq_nil (h : Revises convention tail before after contents)
    (htail : Closes tail) (hbefore : convention.literal before = []) :
    convention.literal after = [] := by
  rcases h.closes_or htail with
    hcloses | ⟨c, more, rest, rest', others, rfl, rfl, hrest⟩
  · exact hcloses.literal_eq_nil
  rw [literal_cons] at hbefore ⊢
  refine if_neg ?_
  rintro ⟨hnumber, hgoes⟩
  have hstops : ¬(c = convention.group →
      (more ++ rest).takeWhile convention.continuesNumber ≠ []) := by
    intro hgroup
    rw [if_pos ⟨hnumber, hgroup⟩] at hbefore
    cases hbefore
  obtain ⟨hgroup, hnone⟩ := Classical.not_imp.mp hstops
  refine hgoes hgroup ?_
  exact (borders_append (hrest.borders htail) more).takeWhile_eq_nil
    (fun cs hcs => (hcs.takeWhile_eq_nil).2) (not_not.mp hnone)

/-- **The tokens of the new text** are those of the old one and those of the
words in place of names. -/
theorem scan (h : Revises convention tail before after contents)
    (htail : Closes tail) (position : Nat) :
    ∃ tokens next,
      convention.scan compoundOperators position after =
          tokens ++ convention.scan compoundOperators next tail ∧
        tokens.map Token.content = contents := by
  induction h generalizing position with
  | blanks _ respaced => exact ⟨[], _, scan_blanks respaced.blank _ _, rfl⟩
  | @kept _ run' chars _ rest' category _ _ respaced isToken complete others ih =>
    obtain ⟨tokens, next, hscan, hcontents⟩ :=
      ih (position + byteLength run' + byteLength chars)
    have hkept : convention.IsToken category chars rest' :=
      isToken.congr complete (others.borders htail) (others.literal_eq_nil htail)
    refine ⟨⟨String.ofList chars, category, position + byteLength run'⟩ :: tokens,
      next, ?_, ?_⟩
    · rw [scan_blanks respaced.blank, hkept.scan, hscan, List.cons_append]
    · rw [List.map_cons, hcontents]
      rfl
  | @replaced _ run' _ _ _ rest' _ _ _ respaced _ enclosed _ ih =>
    obtain ⟨front, between, hfront, hinner⟩ :=
      enclosed.scans (position + byteLength run') rest'
    obtain ⟨tokens, next, hscan, hcontents⟩ := ih between
    refine ⟨front ++ tokens, next, ?_, ?_⟩
    · rw [scan_blanks respaced.blank, hfront, hscan, List.append_assoc]
    · rw [List.map_append, hinner, hcontents]

/-- A new text is without fault if the old one is. -/
theorem fault?_eq_none (h : Revises convention [] before after contents)
    {position depth : Nat}
    (hbefore : convention.fault? position depth before = none) (start : Nat) :
    convention.fault? start depth after = none := by
  induction h generalizing position depth start with
  | @blanks run run' blank respaced =>
    rw [← List.append_nil run, fault?_quiet (quiet_of_blank blank)] at hbefore
    rw [fault?_quiet (quiet_of_blank respaced.blank)]
    simpa [fault?] using hbefore
  | @kept _ _ chars _ rest' _ _ blank respaced _ _ _ ih =>
    rw [fault?_quiet (quiet_of_blank blank)] at hbefore
    rw [fault?_quiet (quiet_of_blank respaced.blank)]
    rcases fault?_stretch convention chars depth with hfault | ⟨depth', hpass⟩
    · exact absurd hbefore (hfault _ _)
    · rw [hpass] at hbefore ⊢
      exact ih hbefore _
  | replaced blank respaced quiet enclosed _ ih =>
    rw [fault?_quiet (quiet_of_blank blank), fault?_quiet quiet] at hbefore
    rw [fault?_quiet (quiet_of_blank respaced.blank)]
    obtain ⟨next, hpass⟩ := enclosed.passable _ depth _
    rw [hpass]
    exact ih hbefore _

/-- **A revised text has tokens** if the text has, and they say what one
expects. -/
theorem tokenize {text text' : String} {tokens : List Token}
    (htokens : convention.tokenize text = .ok tokens)
    (h : Revises convention [] text.toList text'.toList contents) :
    ∃ tokens', convention.tokenize text' = .ok tokens' ∧
      tokens'.map Token.content = contents := by
  rw [tokenize_eq, verdict_eq_ok_iff] at htokens
  obtain ⟨tokens', next, hscan, hcontents⟩ := h.scan closes_nil 0
  rw [Convention.scan, List.append_nil] at hscan
  refine ⟨tokens', ?_, hcontents⟩
  rw [tokenize_eq, verdict_eq_ok_iff]
  exact ⟨h.fault?_eq_none htokens.1 0, hscan⟩

end Revises

/-- Whether no number ends with a group separator. -/
def Complete (convention : Convention) (tokens : List Token) : Prop :=
  ∀ token ∈ tokens, token.category = .number →
    token.text.toList.getLast? ≠ some convention.group

/-- The word stands for the token, and says so much. -/
inductive Stands (convention : Convention) (token : Token) :
    List Char × List (String × Category) → Prop where
  | itself : Stands convention token (token.text.toList, [token.content])
  | enclosed {word : List Char} {inner : List (String × Category)}
      (letters : token.category = .letter)
      (enclosed : convention.Enclosed word inner) :
      Stands convention token (word, inner)

/-- The characters of a name are quiet. -/
private theorem IsToken.quiet {chars rest : List Char}
    (h : convention.IsToken .letter chars rest) :
    ∀ c ∈ chars, Quiet convention c := by
  obtain ⟨first, more, rfl, -, hlexeme⟩ := h
  rw [lexeme] at hlexeme
  split at hlexeme
  · obtain ⟨-, hchars⟩ := Prod.mk.inj hlexeme
    intro c hc
    rw [← hchars] at hc
    exact quiet_of_continuesName (List.all_eq_true.mp List.all_takeWhile c hc)
  · split at hlexeme <;> cases (Prod.mk.inj hlexeme).1

/-- **Weaving revises.**  A text that is woven from gaps and words, each in place
of one of the text's own, is a revised text. -/
theorem Layout.revises {position : Nat} {cs : List Char} {tokens : List Token}
    (h : convention.Layout position cs tokens)
    (hcomplete : convention.Complete tokens) {gaps' : List (List Char)}
    (hgaps : List.Forall₂ Respaced (gaps position cs tokens) gaps')
    {parts : List (List Char × List (String × Category))}
    (hparts : List.Forall₂ (Stands convention) tokens parts) (tail : List Char) :
    Revises convention tail cs (weave gaps' (parts.map Prod.fst) ++ tail)
      (parts.flatMap Prod.snd) := by
  induction h generalizing gaps' parts with
  | blanks blank =>
    cases hparts
    rw [gaps] at hgaps
    obtain ⟨gap, rfl⟩ := List.length_eq_one_iff.mp hgaps.length_eq.symm
    obtain ⟨hgap, -⟩ := List.forall₂_cons.mp hgaps
    exact .blanks blank hgap
  | @token position run chars rest tokens category blank isToken _ ih =>
    rw [gaps_token] at hgaps
    cases hgaps with
    | @cons _ gap _ others hgap hothers =>
    cases hparts with
    | @cons _ part _ parts hpart hparts =>
    obtain ⟨hnumber, hrest⟩ := List.forall_mem_cons.mp hcomplete
    have hrevises := ih hrest hothers hparts
    rw [List.map_cons, List.flatMap_cons, weave, List.append_assoc,
      List.append_assoc]
    cases hpart with
    | itself =>
      simp only [String.toList_ofList, Token.content] at hnumber ⊢
      exact .kept blank hgap isToken hnumber hrevises
    | enclosed letters enclosed =>
      obtain rfl : category = .letter := letters
      exact .replaced blank hgap isToken.quiet enclosed hrevises

/-- The same tokens with other gaps are a revised text. -/
theorem Layout.revises_respaced {position : Nat} {cs : List Char}
    {tokens : List Token} (h : convention.Layout position cs tokens)
    (hcomplete : convention.Complete tokens) {gaps' : List (List Char)}
    (hgaps : List.Forall₂ Respaced (gaps position cs tokens) gaps')
    (tail : List Char) :
    Revises convention tail cs (weave gaps' (words tokens) ++ tail)
      (tokens.map Token.content) := by
  have hitself : List.Forall₂ (Stands convention) tokens
      (tokens.map fun token => (token.text.toList, [token.content])) := by
    rw [List.forall₂_map_right_iff, List.forall₂_same]
    exact fun _ _ => .itself
  have hrevises := h.revises hcomplete hgaps hitself tail
  rwa [List.map_map, List.flatMap_map, ← List.map_eq_flatMap] at hrevises

/-- Every gap may stay as it is. -/
theorem Layout.respaced {position : Nat} {cs : List Char} {tokens : List Token}
    (h : convention.Layout position cs tokens) :
    List.Forall₂ Respaced (gaps position cs tokens) (gaps position cs tokens) :=
  List.forall₂_same.mpr fun gap hgap => ⟨h.blank_of_mem_gaps gap hgap, id⟩

end Formulary.Convention
