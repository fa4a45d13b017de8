import Formulary.Proofs.Grammar.Exactness
import Formulary.Proofs.Grammar.Likeness
import Formulary.Proofs.Token.Revision

/-!
# Space between tokens

Blanks may be put between the tokens of a text, before the first and after the
last, and blanks that are there may be replaced by others, without any change to
the tokens but their positions.  The grammar does not ask for positions, so the
text compiles to the same tree.

The one thing to see to is a number that ends with a group separator.  No such
literal is a number, so no text that compiles has one.

* `Convention.getLast?_ne_group` says how literals end;
* `Derives.complete` carries it over to texts that compile;
* `Scope.compileTokens_congr` says that positions do not count;
* `Scope.compile_respaced` is the statement for whole texts.
-/

namespace Formulary

/-- Digits in groups do not end with a group separator. -/
private theorem getLast?_ne_of_isGrouped {group : Char}
    (hgroup : group.isDigit = false) {afterDigit : Bool} {cs : List Char}
    (h : isGrouped group afterDigit cs) : cs.getLast? ≠ some group := by
  induction cs generalizing afterDigit with
  | nil => simp
  | cons c rest ih =>
    rw [isGrouped] at h
    split at h
    · next hdigit =>
      cases rest with
      | nil =>
        intro hlast
        have heq : c = group := by simpa using hlast
        rw [heq, hgroup] at hdigit
        cases hdigit
      | cons next rest =>
        rw [List.getLast?_cons_cons]
        exact ih h
    · simp only [Bool.and_eq_true] at h
      cases rest with
      | nil => simp at h
      | cons next rest =>
        rw [List.getLast?_cons_cons]
        exact ih h.2

/-- A literal that writes a number does not end with a group separator. -/
theorem Convention.getLast?_ne_group {convention : Convention} {literal : String}
    {value : Float} (h : convention.readNumber? literal = some value) :
    literal.toList.getLast? ≠ some convention.group := by
  have hdigit : convention.group.isDigit = false :=
    (free_of_isReserved convention.group_free).1
  rw [readNumber?, Option.map_eq_some_iff] at h
  obtain ⟨n, hliteral, -⟩ := h
  generalize literal.toList = cs at hliteral ⊢
  rw [Numeral.ofLiteral?] at hliteral
  split at hliteral
  case isFalse => cases hliteral
  next hform =>
  simp only [Bool.and_eq_true] at hform
  obtain ⟨⟨hwhole, hfraction⟩, -⟩ := hform
  have hsplit := List.takeWhile_append_dropWhile
    (p := fun c => decide (c ≠ convention.decimal)) (l := cs)
  cases hdrop : cs.dropWhile (fun c => decide (c ≠ convention.decimal)) with
  | nil =>
    rw [hdrop, List.append_nil] at hsplit
    rw [hsplit] at hwhole
    exact getLast?_ne_of_isGrouped hdigit hwhole
  | cons c fraction =>
    have hdecimal : c = convention.decimal := by
      have hhead := List.head?_dropWhile_not
        (fun c => decide (c ≠ convention.decimal)) cs
      rw [hdrop] at hhead
      simpa using hhead
    rw [hdrop, List.drop_one, List.tail_cons] at hfraction
    rw [hdrop] at hsplit
    rw [← hsplit, List.getLast?_append_cons]
    intro hlast
    rcases List.mem_cons.mp (List.mem_of_getLast? hlast) with hmem | hmem
    · exact convention.distinct (hdecimal.symm.trans hmem.symm)
    · rw [List.all_eq_true.mp hfraction _ hmem] at hdigit
      cases hdigit

private theorem Convention.complete_nil {convention : Convention} :
    convention.Complete [] := by
  simp [Complete]

/-- A token that is no number is complete. -/
private theorem Convention.complete_cons {convention : Convention} {token : Token}
    {tokens : List Token} (htoken : token.category ≠ .number)
    (h : convention.Complete tokens) : convention.Complete (token :: tokens) :=
  List.forall_mem_cons.mpr ⟨fun hnumber => absurd hnumber htoken, h⟩

private theorem Convention.complete_append {convention : Convention}
    {before after : List Token} (hbefore : convention.Complete before)
    (hafter : convention.Complete after) : convention.Complete (before ++ after) :=
  List.forall_mem_append.mpr ⟨hbefore, hafter⟩

/-- A delimiter is no number. -/
private theorem Token.category_ne_number {token : Token} {symbol : String}
    (h : token.isDelimiter symbol) : token.category ≠ .number := by
  rw [(isDelimiter_iff.mp h).1]
  decide

mutual

/-- **The numbers of a phrase are complete**, since all of them are read. -/
theorem Derives.complete {d : Dialect} {phrase : Phrase} {tokens : List Token}
    {formula : Formula} (h : Derives d phrase tokens formula) :
    d.convention.Complete tokens := by
  match h with
  | .operand inner => exact inner.complete
  | .toRight first denotes others =>
    exact Convention.complete_append first.complete
      (Convention.complete_cons (Token.category_ne_number denotes.delimiter)
        others.complete)
  | .toLeft _ others denotes last =>
    exact Convention.complete_append others.complete
      (Convention.complete_cons (Token.category_ne_number denotes.delimiter)
        last.complete)
  | .unsigned inner => exact inner.complete
  | .plus sign inner | .minus sign inner =>
    exact Convention.complete_cons (Token.category_ne_number sign) inner.complete
  | .group opens inner closes =>
    refine Convention.complete_cons (Token.category_ne_number opens)
      (Convention.complete_append inner.complete ?_)
    exact Convention.complete_cons (Token.category_ne_number closes)
      Convention.complete_nil
  | .number _ reads =>
    exact List.forall_mem_singleton.mpr fun _ =>
      Convention.getLast?_ne_group reads
  | .name letters =>
    exact Convention.complete_cons (by simp [letters]) Convention.complete_nil
  | .call letters opens _ inner _ closes =>
    refine Convention.complete_cons (by simp [letters]) (Convention.complete_cons
      (Token.category_ne_number opens)
      (Convention.complete_append inner.complete ?_))
    exact Convention.complete_cons (Token.category_ne_number closes)
      Convention.complete_nil

/-- The same for arguments. -/
theorem DerivesArguments.complete {d : Dialect} {tokens : List Token}
    {arguments : List Formula} (h : DerivesArguments d tokens arguments) :
    d.convention.Complete tokens := by
  match h with
  | .one inner => exact inner.complete
  | .more inner separates rest =>
    exact Convention.complete_append inner.complete
      (Convention.complete_cons (Token.category_ne_number separates)
        rest.complete)

end

/-- Tokens that say the same are alike. -/
theorem Token.alike_of_content {d : Dialect} {tokens tokens' : List Token}
    (h : tokens.map content = tokens'.map content) :
    List.Forall₂ (Token.Alike d d) tokens tokens' := by
  rw [← List.forall₂_eq_eq_eq, List.forall₂_map_left_iff,
    List.forall₂_map_right_iff] at h
  refine h.imp fun a b hcontent => ?_
  obtain ⟨htext, hcategory⟩ := Prod.mk.inj hcontent
  exact .of_eq hcategory htext

/-- An outcome that is alike to a success is taken over with the same tree. -/
theorem Scope.adopt_eq_ok (s : Scope) {d e : Dialect} {o p : Outcome Formula}
    (halike : Outcome.Alike d e o p) {tree : BoundTree} {after : Scope}
    (h : s.adopt o = (.ok tree, after)) : s.adopt p = (.ok tree, after) := by
  have hcases := halike.cases
  obtain ⟨result, rest, mentions⟩ := o
  obtain ⟨result', rest', mentions'⟩ := p
  obtain ⟨-, -, rfl⟩ := halike
  rcases hcases with ⟨formula, rfl, rfl⟩ | ⟨error, error', rfl, rfl, -⟩
  · exact h
  · cases h

/-- **Positions do not count.**  Tokens that say the same compile to the same
tree. -/
theorem Scope.compileTokens_congr {s after : Scope} {d : Dialect}
    {tokens tokens' : List Token} {tree : BoundTree}
    (hcontents : tokens'.map Token.content = tokens.map Token.content)
    (h : s.compileTokens d tokens = (.ok tree, after)) :
    s.compileTokens d tokens' = (.ok tree, after) :=
  s.adopt_eq_ok (Dialect.parse_alike rfl (Token.alike_of_content hcontents.symm)) h

/-- With other gaps a text has the same tokens. -/
theorem Convention.tokenize_respaced {convention : Convention} {text : String}
    {tokens : List Token} (htokens : convention.tokenize text = .ok tokens)
    (hcomplete : convention.Complete tokens) {respaced : List (List Char)}
    (hgaps : List.Forall₂ Respaced (gaps 0 text.toList tokens) respaced) :
    ∃ tokens', convention.tokenize (String.ofList (weave respaced (words tokens))) =
        .ok tokens' ∧
      tokens'.map Token.content = tokens.map Token.content := by
  have hrevises :=
    (Layout.of_tokenize htokens).revises_respaced hcomplete hgaps []
  refine Revises.tokenize htokens ?_
  rwa [String.toList_ofList, ← List.append_nil (weave _ _)]

/-- **Space between tokens does not count.**  A text consists of its tokens and of
blanks between them.  If no number ends with a group separator, any other blanks
may stand between the tokens, as long as a gap that is there stays: the tokens
say the same.  In a text that compiles no number ends so, and with other blanks
the text compiles to the same tree. -/
theorem Scope.compile_respaced {d : Dialect} {text : String} {tokens : List Token}
    (accepted : d.convention.tokenize text = .ok tokens) :
    (weave (gaps 0 text.toList tokens) (words tokens) = text.toList ∧
      ∀ gap ∈ gaps 0 text.toList tokens, ∀ c ∈ gap, isBlank c) ∧
    (d.convention.Complete tokens → ∀ respaced,
      List.Forall₂ Respaced (gaps 0 text.toList tokens) respaced →
      ∃ tokens', d.convention.tokenize
          (String.ofList (weave respaced (words tokens))) = .ok tokens' ∧
        tokens'.map Token.content = tokens.map Token.content) ∧
    ∀ (s after : Scope) (tree : BoundTree),
      s.compile d text = (.ok tree, after) →
      d.convention.Complete tokens ∧ ∀ respaced,
        List.Forall₂ Respaced (gaps 0 text.toList tokens) respaced →
        s.compile d (String.ofList (weave respaced (words tokens))) =
          (.ok tree, after) := by
  have hlayout := Convention.Layout.of_tokenize accepted
  refine ⟨⟨hlayout.weave_gaps, hlayout.blank_of_mem_gaps⟩, ?_, ?_⟩
  · intro hcomplete respaced hgaps
    exact Convention.tokenize_respaced accepted hcomplete hgaps
  · intro s after tree h
    obtain ⟨_, formula, hsame, hderives, -, -⟩ := s.exists_derives_of_compile h
    obtain rfl := Except.ok.inj (accepted.symm.trans hsame)
    have hcomplete := hderives.complete
    refine ⟨hcomplete, fun respaced hgaps => ?_⟩
    obtain ⟨tokens', htokens', hcontents⟩ :=
      Convention.tokenize_respaced accepted hcomplete hgaps
    rw [compile, accepted] at h
    rw [compile, htokens']
    exact compileTokens_congr hcontents h

/-- A number with a group separator, an operator of two characters and a name,
which touch before and not after. -/
theorem Scope.compile_respaced_spread :
    Convention.invariant.tokenize "1,000<=a" =
        .ok [⟨"1,000", .number, 0⟩, ⟨"<=", .delimiter, 5⟩, ⟨"a", .letter, 7⟩] ∧
      ∃ tokens, Convention.invariant.tokenize "\t1,000 <=\n a " = .ok tokens ∧
        tokens.map Token.content =
          [("1,000", .number), ("<=", .delimiter), ("a", .letter)] := by
  have haccepted : Convention.invariant.tokenize "1,000<=a" =
      .ok [⟨"1,000", .number, 0⟩, ⟨"<=", .delimiter, 5⟩, ⟨"a", .letter, 7⟩] := by
    with_unfolding_all rfl
  have hcomplete : Convention.invariant.Complete
      [⟨"1,000", .number, 0⟩, ⟨"<=", .delimiter, 5⟩, ⟨"a", .letter, 7⟩] := by
    unfold Convention.Complete
    decide
  have hgaps : gaps 0 "1,000<=a".toList
      [⟨"1,000", .number, 0⟩, ⟨"<=", .delimiter, 5⟩, ⟨"a", .letter, 7⟩] =
        [[], [], [], []] := by
    decide
  have hrespaced : List.Forall₂ Respaced [[], [], [], []]
      [['\t'], [' '], ['\n', ' '], [' ']] := by
    refine .cons ?_ (.cons ?_ (.cons ?_ (.cons ?_ .nil)))
    all_goals exact ⟨by simp [isBlank], by simp⟩
  have htext : String.ofList (weave [['\t'], [' '], ['\n', ' '], [' ']]
      (words [⟨"1,000", .number, 0⟩, ⟨"<=", .delimiter, 5⟩, ⟨"a", .letter, 7⟩])) =
        "\t1,000 <=\n a " := by
    decide
  rw [← hgaps] at hrespaced
  rw [← htext]
  exact ⟨haccepted, (Scope.compile_respaced
    (d := ⟨Convention.invariant, FunctionTable.standard⟩) haccepted).2.1
      hcomplete _ hrespaced⟩

end Formulary
