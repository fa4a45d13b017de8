import Formulary.Proofs.Token.Lexeme

/-!
# Tokens and what is between them

The tokens of a text stand where their positions say, and between them there is
nothing but blanks.  So a text is woven from its tokens and the gaps between
them, and other texts can be woven in the same way: with other gaps, or with
other words in place of some tokens.

* `cutAt` cuts a text at a number of bytes, and `gaps` cuts out what is between
  its tokens;
* `weave` makes a text of gaps and words;
* `Convention.Layout` says how a text consists of blanks and tokens;
* `Convention.Layout.weave_gaps` makes the same text again.
-/

namespace Formulary

/-- The part of a text that takes so many bytes, and what follows it. -/
def cutAt (bytes : Nat) : List Char → List Char × List Char
  | [] => ([], [])
  | c :: rest =>
    if bytes = 0 then ([], c :: rest)
    else
      let parts := cutAt (bytes - c.utf8Size) rest
      (c :: parts.1, parts.2)

theorem cutAt_append (front rest : List Char) :
    cutAt (byteLength front) (front ++ rest) = (front, rest) := by
  induction front with
  | nil => cases rest <;> rfl
  | cons c front ih =>
    have hsize := c.utf8Size_pos
    have hpos : c.utf8Size + byteLength front ≠ 0 := by omega
    rw [List.cons_append, byteLength, cutAt, if_neg hpos, Nat.add_sub_cancel_left,
      ih]

/-- What stands before, between and after the tokens in a text that starts at the
position. -/
def gaps (position : Nat) (cs : List Char) : List Token → List (List Char)
  | [] => [cs]
  | token :: tokens =>
    let parts := cutAt (token.position - position) cs
    let size := token.text.utf8ByteSize
    parts.1 :: gaps (token.position + size) (cutAt size parts.2).2 tokens

/-- The text that has the words between the gaps. -/
def weave : List (List Char) → List (List Char) → List Char
  | [], _ => []
  | gap :: _, [] => gap
  | gap :: gaps, word :: words => gap ++ (word ++ weave gaps words)

/-- The words that the tokens are. -/
def words (tokens : List Token) : List (List Char) :=
  tokens.map fun token => token.text.toList

/-- What a token says, wherever it stands. -/
def Token.content (token : Token) : String × Category :=
  (token.text, token.category)

/-- Whether the new gap consists of blanks, and is one where the old gap was. -/
structure Respaced (old new : List Char) : Prop where
  blank : ∀ c ∈ new, isBlank c
  stays : old ≠ [] → new ≠ []

namespace Convention

variable {convention : Convention}

/-- Whether the characters are a token of the category before the rest. -/
def IsToken (convention : Convention) (category : Category)
    (chars rest : List Char) : Prop :=
  ∃ c more, chars = c :: more ∧ isBlank c = false ∧
    convention.lexeme compoundOperators c (more ++ rest) = (category, chars)

/-- The text consists of blanks and of the tokens, each at its position. -/
inductive Layout (convention : Convention) :
    Nat → List Char → List Token → Prop where
  | blanks {position : Nat} {run : List Char} (blank : ∀ c ∈ run, isBlank c) :
      Layout convention position run []
  | token {position : Nat} {run chars rest : List Char} {tokens : List Token}
      {category : Category} (blank : ∀ c ∈ run, isBlank c)
      (isToken : convention.IsToken category chars rest)
      (others : Layout convention (position + byteLength run + byteLength chars)
        rest tokens) :
      Layout convention position (run ++ (chars ++ rest))
        (⟨String.ofList chars, category, position + byteLength run⟩ :: tokens)

/-- A token is read where it stands. -/
theorem IsToken.scan {category : Category} {chars rest : List Char}
    (h : convention.IsToken category chars rest) (position : Nat) :
    convention.scan compoundOperators position (chars ++ rest) =
      ⟨String.ofList chars, category, position⟩ ::
        convention.scan compoundOperators (position + byteLength chars) rest := by
  obtain ⟨c, more, rfl, hblank, hlexeme⟩ := h
  exact scan_token hblank hlexeme rfl position

namespace Layout

variable {position : Nat} {cs : List Char} {tokens : List Token}

/-- A blank before a text belongs to its first gap. -/
private theorem cons {c : Char} (hc : isBlank c)
    (h : Layout convention (position + c.utf8Size) cs tokens) :
    Layout convention position (c :: cs) tokens := by
  cases h with
  | blanks blank => exact .blanks (List.forall_mem_cons.mpr ⟨hc, blank⟩)
  | @token _ run chars rest tokens category blank isToken others =>
    have hrun : ∀ x ∈ c :: run, isBlank x := List.forall_mem_cons.mpr ⟨hc, blank⟩
    rw [Nat.add_assoc position] at others ⊢
    exact .token hrun isToken others

/-- Every text is laid out as the tokens of its scan. -/
theorem of_scan (convention : Convention) (cs : List Char) (position : Nat) :
    Layout convention position cs
      (convention.scan compoundOperators position cs) := by
  induction cs using shorter_induction generalizing position with
  | nil =>
    rw [Convention.scan]
    exact .blanks (by simp)
  | cons c rest ih =>
    by_cases hblank : isBlank c
    · rw [Convention.scan, if_pos hblank]
      exact (ih rest (Nat.le_refl _) _).cons hblank
    · rw [Bool.not_eq_true] at hblank
      obtain ⟨category, chars, after, hlexeme, hsplit, hshort, hsize, hscan⟩ :=
        exists_scan_cons convention compoundOperators hblank rest
      obtain ⟨first, more, rfl⟩ : ∃ first more, chars = first :: more := by
        cases chars with
        | nil => exact absurd hsize (Nat.lt_irrefl 0)
        | cons first more => exact ⟨first, more, rfl⟩
      obtain ⟨rfl, rfl⟩ := List.cons.inj hsplit
      have hrun : ∀ x ∈ ([] : List Char), isBlank x := by simp
      rw [hscan]
      exact .token hrun ⟨c, more, rfl, hblank, hlexeme⟩ (ih after hshort _)

/-- An accepted text is laid out as its tokens. -/
theorem of_tokenize {text : String}
    (h : convention.tokenize text = .ok tokens) :
    Layout convention 0 text.toList tokens := by
  rw [tokenize_eq, verdict_eq_ok_iff] at h
  rw [← h.2]
  exact of_scan convention text.toList 0

/-- The first gap of a layout is the one before its first token. -/
theorem gaps_token {run chars rest : List Char} {category : Category} :
    gaps position (run ++ (chars ++ rest))
        (⟨String.ofList chars, category, position + byteLength run⟩ :: tokens) =
      run :: gaps (position + byteLength run + byteLength chars) rest tokens := by
  simp only [gaps, utf8ByteSize_ofList, Nat.add_sub_cancel_left, cutAt_append]

/-- There is nothing but blanks in the gaps. -/
theorem blank_of_mem_gaps (h : Layout convention position cs tokens) :
    ∀ gap ∈ gaps position cs tokens, ∀ c ∈ gap, isBlank c := by
  induction h with
  | blanks blank => exact List.forall_mem_singleton.mpr blank
  | token blank _ _ ih =>
    rw [gaps_token]
    exact List.forall_mem_cons.mpr ⟨blank, ih⟩

/-- The tokens and their gaps are the whole text. -/
theorem weave_gaps (h : Layout convention position cs tokens) :
    weave (gaps position cs tokens) (words tokens) = cs := by
  induction h with
  | blanks => rfl
  | token _ _ _ ih =>
    rw [gaps_token, words, List.map_cons, weave, String.toList_ofList]
    rw [words] at ih
    rw [ih]

end Layout

end Convention

end Formulary
