import Formulary.Proofs.Token.Layout

/-!
# The tokens of a text are all of it

A text that has tokens is a row of gaps and tokens.  The gaps hold nothing but
blanks, so no other character is lost, and every token has characters of its own,
which stand where its position says, so none is there twice.

`Convention.Layout` tells this one token at a time.  The statements below are
about the row as a whole, and each is an induction on the layout.

* `Covers` says what it means that gaps and tokens are the whole text;
* `Convention.Layout.stands` finds a token in the text;
* `Convention.Layout.position_eq` counts the bytes before a token;
* `Convention.Layout.pairwise` keeps the tokens apart;
* `Convention.tokenize_covers` is the statement for texts.
-/

namespace Formulary

/-- The word stands in the text after so many bytes. -/
def StandsAt (cs word : List Char) (position : Nat) : Prop :=
  ∃ front rest, cs = front ++ (word ++ rest) ∧ byteLength front = position

/-- The text is a row of gaps and tokens: every gap consists of blanks, every
token has characters, and its position is the number of bytes before it. -/
structure Covers (cs : List Char) (gaps : List (List Char))
    (tokens : List Token) : Prop where
  count : gaps.length = tokens.length + 1
  text : weave gaps (words tokens) = cs
  blank : ∀ gap ∈ gaps, ∀ c ∈ gap, isBlank c
  nonempty : ∀ token ∈ tokens, token.text ≠ ""
  position : ∀ before token after, tokens = before ++ token :: after →
    token.position =
      byteLength (weave (gaps.take (before.length + 1)) (words before))

/-- There is one gap more than there are tokens. -/
theorem length_gaps (position : Nat) (cs : List Char) (tokens : List Token) :
    (gaps position cs tokens).length = tokens.length + 1 := by
  induction tokens generalizing position cs with
  | nil => rfl
  | cons token tokens ih => simp only [gaps, List.length_cons, ih]

namespace Convention

variable {convention : Convention} {position : Nat} {cs : List Char}
  {tokens : List Token}

/-- A token has a character, and it is no blank. -/
theorem IsToken.exists_cons {category : Category} {chars rest : List Char}
    (h : convention.IsToken category chars rest) :
    ∃ c more, chars = c :: more ∧ isBlank c = false := by
  obtain ⟨c, more, rfl, hblank, -⟩ := h
  exact ⟨c, more, rfl, hblank⟩

namespace Layout

/-- Every token stands in the text, and its position counts on from where the
text starts. -/
theorem stands (h : Layout convention position cs tokens) {token : Token}
    (hmem : token ∈ tokens) :
    ∃ bytes, StandsAt cs token.text.toList bytes ∧
      token.position = position + bytes := by
  induction h with
  | blanks => cases hmem
  | @token position run chars rest tokens category _ _ _ ih =>
    rcases List.mem_cons.mp hmem with rfl | hmem
    · refine ⟨byteLength run, ⟨run, rest, ?_, rfl⟩, rfl⟩
      rw [String.toList_ofList]
    · obtain ⟨bytes, ⟨front, after, rfl, rfl⟩, hposition⟩ := ih hmem
      refine ⟨_, ⟨run ++ (chars ++ front), after, by simp, rfl⟩, ?_⟩
      simp only [hposition, byteLength_append]
      omega

/-- The bytes before a token are those of the gaps and the tokens before it. -/
theorem position_eq (h : Layout convention position cs tokens)
    {before after : List Token} {token : Token}
    (hsplit : tokens = before ++ token :: after) :
    token.position = position + byteLength
      (weave ((gaps position cs tokens).take (before.length + 1))
        (words before)) := by
  induction h generalizing before with
  | blanks => simp at hsplit
  | @token position run chars rest tokens category _ _ _ ih =>
    rw [gaps_token]
    cases before with
    | nil =>
      obtain ⟨rfl, -⟩ := List.cons.inj hsplit
      simp [words, weave]
    | cons first before =>
      obtain ⟨rfl, hrest⟩ := List.cons.inj hsplit
      rw [ih hrest]
      simp only [List.length_cons, List.take_succ_cons, words, List.map_cons,
        weave, String.toList_ofList, byteLength_append]
      omega

/-- Every token has characters. -/
theorem text_ne_empty (h : Layout convention position cs tokens) {token : Token}
    (hmem : token ∈ tokens) : token.text ≠ "" := by
  induction h with
  | blanks => cases hmem
  | @token _ _ chars _ _ _ _ isToken _ ih =>
    rcases List.mem_cons.mp hmem with rfl | hmem
    · obtain ⟨c, more, rfl, -⟩ := isToken.exists_cons
      intro hempty
      have hchars := congrArg String.toList hempty
      simp at hchars
    · exact ih hmem

/-- Every token ends before the next one starts. -/
theorem pairwise (h : Layout convention position cs tokens) :
    tokens.Pairwise fun a b => a.position + a.text.utf8ByteSize ≤ b.position := by
  induction h with
  | blanks => exact .nil
  | token _ _ others ih =>
    refine .cons ?_ ih
    intro b hb
    obtain ⟨bytes, -, hposition⟩ := others.stands hb
    simp only [utf8ByteSize_ofList, hposition]
    omega

/-- There are no tokens where there is nothing but blanks. -/
theorem eq_nil_iff (h : Layout convention position cs tokens) :
    tokens = [] ↔ ∀ c ∈ cs, isBlank c := by
  cases h with
  | blanks blank => simpa using blank
  | @token _ run chars rest _ _ _ isToken _ =>
    obtain ⟨c, more, rfl, hc⟩ := isToken.exists_cons
    constructor
    · simp
    · intro hblank
      have hmem : c ∈ run ++ (c :: more ++ rest) := by simp
      rw [hblank c hmem] at hc
      cases hc

/-- The gaps and the tokens of a layout are the whole text. -/
theorem covers (h : Layout convention 0 cs tokens) :
    Covers cs (gaps 0 cs tokens) tokens where
  count := length_gaps 0 cs tokens
  text := h.weave_gaps
  blank := h.blank_of_mem_gaps
  nonempty := fun _ => h.text_ne_empty
  position := by
    intro before token after hsplit
    rw [h.position_eq hsplit, Nat.zero_add]

end Layout

/-- **Nothing is lost and nothing is doubled.**  An accepted text is a row of its
tokens with nothing but blanks before, between and after them, and each token
stands after as many bytes as its position says.  So positions increase, no two
tokens overlap, and only a text of blanks has no tokens. -/
theorem tokenize_covers {text : String}
    (accepted : convention.tokenize text = .ok tokens) :
    (∃ gaps, Covers text.toList gaps tokens) ∧
      tokens.Pairwise (·.position < ·.position) ∧
      tokens.Pairwise
        (fun a b => a.position + a.text.utf8ByteSize ≤ b.position) ∧
      (tokens = [] ↔ ∀ c ∈ text.toList, isBlank c) := by
  have hlayout := Layout.of_tokenize accepted
  refine ⟨⟨_, hlayout.covers⟩, ?_, hlayout.pairwise, hlayout.eq_nil_iff⟩
  rw [eq_scan_of_tokenize accepted]
  exact pairwise_scan _ _

/-- A separator of two bytes, an operator of two characters, and blanks of both
kinds. -/
theorem tokenize_covers_dotted :
    tokenize { decimal := '·', group := ',' } " 1·5<=\t(b) " =
        .ok [⟨"1·5", .number, 1⟩, ⟨"<=", .delimiter, 5⟩, ⟨"(", .delimiter, 8⟩,
          ⟨"b", .letter, 9⟩, ⟨")", .delimiter, 10⟩] ∧
      ∃ gaps, Covers " 1·5<=\t(b) ".toList gaps
        [⟨"1·5", .number, 1⟩, ⟨"<=", .delimiter, 5⟩, ⟨"(", .delimiter, 8⟩,
          ⟨"b", .letter, 9⟩, ⟨")", .delimiter, 10⟩] := by
  have haccepted : tokenize { decimal := '·', group := ',' } " 1·5<=\t(b) " =
      .ok [⟨"1·5", .number, 1⟩, ⟨"<=", .delimiter, 5⟩, ⟨"(", .delimiter, 8⟩,
        ⟨"b", .letter, 9⟩, ⟨")", .delimiter, 10⟩] := by
    with_unfolding_all rfl
  exact ⟨haccepted, (tokenize_covers haccepted).1⟩

end Convention

end Formulary
