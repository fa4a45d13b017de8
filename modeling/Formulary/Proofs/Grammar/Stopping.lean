import Formulary.Proofs.Grammar.Application
import Formulary.Proofs.Grammar.Completeness
import Formulary.Proofs.Grammar.Soundness

/-!
# Where a phrase stops

A chain looks only for the operators of its own level before it stops.  That it
leaves no tighter operator either is the work of its operands, since each of them
is a chain of the next tighter level and has stopped by itself.  A name looks for
an opening parenthesis, and the other atoms end with a token of their own.  So
the tokens that are left always *follow* those that have been consumed, in the
sense of the completeness proof.

The relational level differs from the others in its right operands, which are
chains of the same level.  Such a chain leaves nothing for the loop to go on
with, so the loop, which is written like that of the other levels, goes round at
most once.

* `Dialect.read_follows` says where a phrase stops;
* `Dialect.Loops` is a run of the loop of a level with the number of its rounds;
* `Dialect.chain_relational_eq` is the relational level without a loop;
* `Dialect.chain_ends_before` puts these together.
-/

namespace Formulary

variable {d : Dialect} {phrase : Phrase} {level : Level}
  {tokens front back rest : List Token}

namespace Follows

/-- What follows the end of the tokens follows all of them. -/
theorem before (h : Follows phrase back rest) (hback : back ≠ [])
    (front : List Token) : Follows phrase (front ++ back) rest where
  ends_chain := h.ends_chain
  ends_name token htoken hopens last hlast := by
    refine h.ends_name token htoken hopens last ?_
    rw [List.getLast?_append, List.getLast?_eq_some_getLast hback] at hlast
    rw [List.getLast?_eq_some_getLast hback]
    exact hlast

/-- What follows an operand of a level follows a chain of the level if it does
not begin with an operator of the level. -/
theorem chain (h : Follows (.operandOf level) front rest)
    (hstop : ∀ token ∈ rest.head?, level.takes token = false) :
    Follows (.chain level) front rest where
  ends_chain token htoken other hother := by
    rcases Nat.eq_or_lt_of_le (Nat.le_of_lt_succ hother) with hrank | hrank
    · obtain rfl : other = level :=
        Phrase.chain.inj (Phrase.eq_of_rank_eq (congrArg (· + 1) hrank))
      exact hstop token htoken
    · rw [← Phrase.rank_operandOf level] at hrank
      exact h.ends_chain token htoken other hrank
  ends_name := h.ends_name

/-- No operator of any level makes a signed atom or an atom longer. -/
theorem of_rank_le_one (hrank : phrase.rank ≤ 1)
    (hname : ∀ token ∈ rest.head?, token.isDelimiter "(" →
      ∀ last ∈ front.getLast?, last.category ≠ .letter) :
    Follows phrase front rest where
  ends_chain _ _ other hother := by
    cases other <;> simp only [Level.rank] at hother <;> omega
  ends_name := hname

end Follows

/-- An operand of a level is not looser than what stands to the right of its
operators. -/
theorem Phrase.rank_operandOf_le (level : Level) :
    (operandOf level).rank ≤ (rightOperandOf level).rank := by
  cases level <;> decide

namespace Dialect

/-- If the phrase is read from the tokens, those that are left follow those that
are consumed. -/
def StopsAt (d : Dialect) (phrase : Phrase) (tokens : List Token) : Prop :=
  ∀ ⦃formula rest mentions⦄,
    d.read phrase tokens = ⟨.ok formula, rest, mentions⟩ →
    ∃ front, tokens = front ++ rest ∧ Follows phrase front rest

/-- What a phrase consumes is something. -/
private theorem consumed_ne_nil {formula : Formula} {mentions : List String}
    (h : d.read phrase (front ++ rest) = ⟨.ok formula, rest, mentions⟩) :
    front ≠ [] := by
  rintro rfl
  exact Nat.lt_irrefl _ (read_shorter h)

/-- The loop of a level stops where the chain ends: after the operand that was
read last, and before a token that the level does not take. -/
private theorem further_follows {bound : Nat}
    (hoperand : ∀ fewer : List Token, fewer.length < bound →
      StopsAt d (.rightOperandOf level) fewer)
    {left formula : Formula} {mentions : List String}
    (hfront : Follows (.operandOf level) front tokens)
    (hbound : tokens.length ≤ bound)
    (h : d.further level left tokens = ⟨.ok formula, rest, mentions⟩) :
    ∃ more, tokens = more ++ rest ∧
      Follows (.chain level) (front ++ more) rest := by
  induction hn : tokens.length using Nat.strongRecOn
    generalizing tokens front left mentions with
  | ind n ih =>
    rcases further_eq_ok h with ⟨-, rfl, -, hstop⟩ | ⟨token, others, operator,
      right, between, early, late, rfl, -, hright, hnext, -⟩
    · exact ⟨[], rfl, by simpa using hfront.chain hstop⟩
    · rw [List.length_cons] at hn hbound
      rw [← read_rightOperandOf] at hright
      obtain ⟨back, rfl, hback⟩ := hoperand others (by omega) hright
      have hlast : Follows (.operandOf level) (front ++ token :: back) between := by
        have hne : back ≠ [] := consumed_ne_nil hright
        rw [← List.singleton_append, ← List.append_assoc]
        exact (hback.tighter (Phrase.rank_operandOf_le level)).before hne _
      rw [List.length_append] at hn hbound
      obtain ⟨more, rfl, hmore⟩ :=
        ih between.length (by omega) hlast (by omega) hnext rfl
      exact ⟨token :: (back ++ more), by simp, by simpa using hmore⟩

/-- A chain stops in the right place if its operands do. -/
private theorem chain_follows
    (hfewer : ∀ fewer : List Token, fewer.length < tokens.length →
      StopsAt d (.rightOperandOf level) fewer)
    (hoperand : StopsAt d (.operandOf level) tokens) :
    StopsAt d (.chain level) tokens := by
  intro formula rest mentions h
  obtain ⟨first, between, early, late, hfirst, hnext, -⟩ := chain_eq_ok h
  have hshorter := operand_shorter hfirst
  rw [← read_operandOf] at hfirst
  obtain ⟨front, rfl, hfront⟩ := hoperand hfirst
  obtain ⟨more, rfl, hmore⟩ :=
    further_follows hfewer hfront (Nat.le_of_lt hshorter) hnext
  exact ⟨front ++ more, by simp, hmore⟩

/-- A signed atom stops where its atom does. -/
private theorem signed_follows
    (hfewer : ∀ fewer : List Token, fewer.length < tokens.length →
      StopsAt d .atom fewer)
    (hatom : StopsAt d .atom tokens) : StopsAt d .signed tokens := by
  have hsigned : ∀ {front rest : List Token}, Follows .atom front rest →
      Follows .signed front rest := fun h =>
    .of_rank_le_one (Nat.le_refl _) h.ends_name
  have hafter : ∀ {formula rest mentions} {sign : Token} {others : List Token},
      others.length < tokens.length →
      d.read .atom others = ⟨.ok formula, rest, mentions⟩ →
      ∃ front, sign :: others = front ++ rest ∧ Follows .signed front rest := by
    intro formula rest mentions sign others hlength hread
    obtain ⟨front, rfl, hfront⟩ := hfewer others hlength hread
    have hne : front ≠ [] := consumed_ne_nil hread
    exact ⟨sign :: front, rfl, (hsigned hfront).before hne [sign]⟩
  intro formula rest mentions h
  rcases signed_eq_ok h with halone | ⟨sign, others, rfl, -, hread⟩ |
    ⟨sign, others, inner, rfl, -, hread, -⟩
  · obtain ⟨front, rfl, hfront⟩ := hatom halone
    exact ⟨front, rfl, hsigned hfront⟩
  · exact hafter (Nat.lt_succ_self _) hread
  · exact hafter (Nat.lt_succ_self _) hread

/-- A variable is not read before an opening parenthesis. -/
private theorem not_opens_of_var {name : Token} {text : String}
    {mentions : List String} (hname : name.category = .letter)
    (h : d.atom (name :: rest) = ⟨.ok (.var text), rest, mentions⟩) :
    ∀ token ∈ rest.head?, token.isDelimiter "(" = false := by
  have hopens : name.isDelimiter "(" = false := by
    simp [Token.isDelimiter, hname]
  rw [atom_cons, hopens] at h
  simp only [hname, Bool.false_eq_true, if_false] at h
  rcases named_eq_ok h with ⟨-, -, -, hnext⟩ | ⟨_, _, _, _, _, _, _, _, _, hcall⟩
  · exact hnext
  · cases hcall

/-- An atom ends with a token of its own, or with a name that is not called. -/
private theorem atom_follows (d : Dialect) (tokens : List Token) :
    StopsAt d .atom tokens := by
  intro formula rest mentions h
  obtain ⟨front, rfl, hfront, -⟩ := read_derives d .atom tokens h
  refine ⟨front, rfl, .of_rank_le_one (Nat.zero_le _) ?_⟩
  intro token htoken hopens last hlast
  have hdelimiter : ∀ (before : List Token) {closing : Token},
      closing.isDelimiter ")" → last ∈ (before ++ [closing]).getLast? →
      last.category ≠ .letter := by
    intro before closing hcloses hlast
    obtain rfl : closing = last := by simpa using hlast
    simp [(Token.isDelimiter_iff.mp hcloses).1]
  cases hfront with
  | @group opening closing inner _ _ _ closes =>
    exact hdelimiter (opening :: inner) closes hlast
  | @call name opening closing _ inner _ _ _ _ _ _ closes =>
    exact hdelimiter (name :: opening :: inner) closes hlast
  | @number number _ digits _ =>
    obtain rfl : number = last := by simpa using hlast
    simp [digits]
  | name letters =>
    rw [not_opens_of_var letters h token htoken] at hopens
    cases hopens

/-- **Phrases.**  Whatever phrase is read, the tokens that are left do not make it
longer. -/
theorem read_follows (d : Dialect) (phrase : Phrase) (tokens : List Token) :
    d.StopsAt phrase tokens := by
  induction phrase, tokens using Phrase.induction with
  | step phrase tokens hfewer htighter =>
    cases phrase with
    | chain level =>
      exact chain_follows (fun fewer => hfewer _ fewer)
        (htighter _ (Phrase.rank_operandOf_lt level))
    | signed =>
      exact signed_follows (fun fewer => hfewer _ fewer)
        (htighter .atom (by decide))
    | atom => exact d.atom_follows tokens

/-- A chain leaves no operator of its level or of a tighter one. -/
theorem chain_head {formula : Formula} {mentions : List String}
    (h : d.chain level tokens = ⟨.ok formula, rest, mentions⟩) :
    ∀ token ∈ rest.head?, ∀ other : Level, other.rank ≤ level.rank →
      other.takes token = false := by
  obtain ⟨front, -, hfollows⟩ := d.read_follows (.chain level) tokens h
  exact fun token htoken other hrank =>
    hfollows.ends_chain token htoken other (Nat.lt_succ_of_le hrank)

/-- A run of the loop of a level that has gone round so many times: from what has
been read and the tokens that follow to the outcome. -/
inductive Loops (d : Dialect) (level : Level) :
    Nat → Formula → List Token → Outcome Formula → Prop where
  | stop {left : Formula} {tokens : List Token}
      (ends : ∀ token ∈ tokens.head?, level.takes token = false) :
      Loops d level 0 left tokens ⟨.ok left, tokens, []⟩
  | broken {left : Formula} {token : Token} {others rest : List Token}
      {error : CompileError} {mentions : List String}
      (takes : level.takes token)
      (fails : d.rightOperand level others = ⟨.error error, rest, mentions⟩) :
      Loops d level 1 left (token :: others) ⟨.error error, rest, mentions⟩
  | round {left right : Formula} {token : Token} {operator : Operator}
      {others between : List Token} {mentions : List String} {rounds : Nat}
      {o : Outcome Formula}
      (denotes : level.Denotes token operator)
      (reads : d.rightOperand level others = ⟨.ok right, between, mentions⟩)
      (next : Loops d level rounds (.binary operator left right) between o) :
      Loops d level (rounds + 1) left (token :: others) (o.mentioning mentions)

namespace Loops

variable {left : Formula} {o : Outcome Formula} {rounds : Nat}

/-- A run of the loop ends with its outcome. -/
theorem outcome_eq (h : Loops d level rounds left tokens o) :
    d.further level left tokens = o := by
  induction h with
  | stop ends => exact further_of_not_takes _ ends
  | broken takes fails =>
    obtain ⟨operator, hdenotes⟩ := Level.takes_iff_denotes.mp takes
    rw [further_of_denotes hdenotes, fails, Outcome.error_andThen]
  | round denotes reads _ ih =>
    rw [further_of_denotes denotes, reads, Outcome.ok_andThen, ih]

/-- The loop of every level comes to an end. -/
theorem exists_rounds (d : Dialect) (level : Level) (left : Formula)
    (tokens : List Token) :
    ∃ rounds, Loops d level rounds left tokens (d.further level left tokens) := by
  induction hn : tokens.length using Nat.strongRecOn
    generalizing tokens left with
  | ind n ih =>
    by_cases hstop : ∀ token ∈ tokens.head?, level.takes token = false
    · rw [further_of_not_takes left hstop]
      exact ⟨0, .stop hstop⟩
    · cases tokens with
      | nil => simp at hstop
      | cons token others =>
        have htakes : level.takes token := by simpa using hstop
        obtain ⟨operator, hdenotes⟩ := Level.takes_iff_denotes.mp htakes
        rw [further_of_denotes hdenotes]
        cases hright : d.rightOperand level others with
        | mk result between mentions =>
          cases result with
          | error error => exact ⟨1, .broken htakes hright⟩
          | ok right =>
            have hshorter := rightOperand_shorter hright
            rw [List.length_cons] at hn
            obtain ⟨rounds, hrounds⟩ := ih between.length (by omega)
              (.binary operator left right) between rfl
            exact ⟨rounds + 1, .round hdenotes hright hrounds⟩

/-- The loop of the relational level goes round at most once, since a right
operand of this level leaves none of its operators behind. -/
theorem relational_le_one (h : Loops d .relational rounds left tokens o) :
    rounds ≤ 1 := by
  cases h with
  | stop | broken => decide
  | round _ reads next =>
    rw [rightOperand_eq] at reads
    have hstop := chain_stops reads
    cases next with
    | stop => exact Nat.le_refl _
    | broken takes => simp [hstop _ rfl] at takes
    | round denotes =>
      have htakes := (Level.denotes_iff.mp denotes).1
      simp [hstop _ rfl] at htakes

end Loops

/-- An additive chain, alone or before an operator and a relational chain. -/
def comparison (d : Dialect) (tokens : List Token) : Outcome Formula :=
  (d.chain .additive tokens).andThen fun left between =>
    match between with
    | [] => { result := .ok left, rest := [], mentions := [] }
    | token :: others =>
      if Level.relational.takes token then
        (d.chain .relational others).andThen fun right rest =>
          match Operator.find? token.text with
          | some operator =>
            { result := .ok (.binary operator left right), rest, mentions := [] }
          | none =>
            { result := .error (.unknownOperator token.text token.position)
              rest
              mentions := [] }
      else { result := .ok left, rest := token :: others, mentions := [] }

/-- The loop of the relational level is no loop. -/
theorem chain_relational_eq (d : Dialect) (tokens : List Token) :
    d.chain .relational tokens = d.comparison tokens := by
  rw [chain_eq, operand_eq, comparison]
  congr 1
  funext left between
  cases between with
  | nil => exact further_nil d .relational left
  | cons token others =>
    rw [further_cons, rightOperand_eq]
    by_cases htakes : Level.relational.takes token
    · simp only [if_pos htakes]
      cases hright : d.chain .relational others with
      | mk result rest mentions =>
        cases result with
        | error error => rfl
        | ok right =>
          rw [Outcome.ok_andThen, Outcome.ok_andThen]
          cases Operator.find? token.text with
          | none => rfl
          | some operator =>
            exact congrArg (Outcome.mentioning mentions)
              (further_of_not_takes _ (chain_stops hright))
    · simp only [if_neg htakes]

/-- **Every chain stops in the right place.**  The token that a chain leaves next
is no operator of its level or of a tighter one.  So the loop of the relational
level goes round at most once, wherever it is entered, the level is what it would
be without a loop, and no binary operator is left after an expression. -/
theorem chain_ends_before (d : Dialect) (tokens : List Token) :
    (∀ level formula rest mentions,
      d.chain level tokens = ⟨.ok formula, rest, mentions⟩ →
      ∀ token ∈ rest.head?, ∀ other : Level, other.rank ≤ level.rank →
        ¬(token.category = .delimiter ∧ token.text ∈ other.symbols)) ∧
    (∀ left, (∃ rounds,
        Loops d .relational rounds left tokens (d.further .relational left tokens)) ∧
      ∀ rounds o, Loops d .relational rounds left tokens o →
        rounds ≤ 1 ∧ d.further .relational left tokens = o) ∧
    d.chain .relational tokens = d.comparison tokens ∧
    ∀ formula rest mentions,
      d.expression tokens = ⟨.ok formula, rest, mentions⟩ →
      ∀ token ∈ rest.head?,
        ¬(token.category = .delimiter ∧ token.text ∈ Operator.symbols) := by
  have hchain : ∀ level formula rest mentions,
      d.chain level tokens = ⟨.ok formula, rest, mentions⟩ →
      ∀ token ∈ rest.head?, ∀ other : Level, other.rank ≤ level.rank →
        ¬(token.category = .delimiter ∧ token.text ∈ other.symbols) := by
    intro level formula rest mentions h token htoken other hrank
    rw [← Level.takes_iff, chain_head h token htoken other hrank]
    exact Bool.false_ne_true
  refine ⟨hchain, ?_, d.chain_relational_eq tokens, ?_⟩
  · exact fun left => ⟨Loops.exists_rounds d .relational left tokens,
      fun rounds o hloops => ⟨hloops.relational_le_one, hloops.outcome_eq⟩⟩
  · rintro formula rest mentions h token htoken ⟨hcategory, hsymbol⟩
    obtain ⟨level, hlevel⟩ := Level.exists_of_mem_symbols hsymbol
    exact hchain .relational formula rest mentions h token htoken level
      level.rank_le ⟨hcategory, hlevel⟩

end Dialect

end Formulary
