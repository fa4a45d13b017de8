import Formulary.Grammar.Level

/-!
# Operators of a level

The grammar asks which level takes a token, and the operator table is asked
afterwards what the token does.  The two never disagree: a level takes exactly
the tokens that denote one of its operators, and no token belongs to two
levels.

* `Level.takes_iff_denotes` is the agreement;
* `Level.eq_of_takes` keeps the levels apart;
* `Level.not_isDelimiter_of_takes` keeps them apart from parentheses.
-/

namespace Formulary

/-- The token is one of the level's operators, with the operation that it has
in the table. -/
structure Level.Denotes (level : Level) (token : Token) (operator : Operator) :
    Prop where
  delimiter : token.isDelimiter operator.symbol
  listed : operator.symbol ∈ level.symbols
  registered : operator ∈ Operator.table

theorem Token.isDelimiter_iff {token : Token} {symbol : String} :
    token.isDelimiter symbol ↔
      token.category = .delimiter ∧ token.text = symbol := by
  simp [isDelimiter]

/-- A token is at most one delimiter. -/
theorem Token.isDelimiter_of_ne {token : Token} {symbol other : String}
    (h : token.isDelimiter symbol) (hne : symbol ≠ other) :
    token.isDelimiter other = false := by
  rw [Bool.eq_false_iff, ne_eq, isDelimiter_iff]
  intro hother
  exact hne ((isDelimiter_iff.mp h).2.symm.trans hother.2)

namespace Operator

/-- No symbol stands twice in the table. -/
theorem nodup_symbols : symbols.Nodup := by
  decide

/-- Every operator of the table is found under its symbol. -/
theorem find?_symbol {operator : Operator} (h : operator ∈ table) :
    find? operator.symbol = some operator := by
  obtain ⟨before, after, htable⟩ := List.append_of_mem h
  have hnodup := nodup_symbols
  rw [symbols, htable, List.map_append, List.nodup_append] at hnodup
  rw [find?, List.find?_eq_some_iff_append]
  refine ⟨by simp, before, after, htable, ?_⟩
  intro other hother
  have hne : other.symbol ≠ operator.symbol :=
    hnodup.2.2 _ (List.mem_map_of_mem hother) _ (by simp)
  simpa using hne

/-- What is found under a symbol is an operator of the table with that
symbol. -/
theorem find?_eq_some_iff {symbol : String} {operator : Operator} :
    find? symbol = some operator ↔
      operator ∈ table ∧ operator.symbol = symbol := by
  constructor
  · intro h
    exact ⟨List.mem_of_find?_eq_some h, by simpa using List.find?_some h⟩
  · intro h
    obtain ⟨hmem, rfl⟩ := h
    exact find?_symbol hmem

end Operator

namespace Level

variable {level : Level} {token : Token} {operator : Operator}

theorem takes_iff :
    level.takes token ↔
      token.category = .delimiter ∧ token.text ∈ level.symbols := by
  simp only [takes, List.any_eq_true, Token.isDelimiter_iff]
  constructor
  · intro h
    obtain ⟨symbol, hsymbol, hcategory, rfl⟩ := h
    exact ⟨hcategory, hsymbol⟩
  · intro h
    exact ⟨token.text, h.2, h.1, rfl⟩

/-- Every symbol of a level has an operation. -/
theorem symbols_subset (level : Level) : level.symbols ⊆ Operator.symbols := by
  cases level <;> decide

/-- Every operator of the table has a level. -/
theorem exists_of_mem_symbols {symbol : String} (h : symbol ∈ Operator.symbols) :
    ∃ level : Level, symbol ∈ level.symbols := by
  have hall : ∀ symbol ∈ Operator.symbols,
      symbol ∈ relational.symbols ∨ symbol ∈ additive.symbols ∨
        symbol ∈ multiplicative.symbols ∨ symbol ∈ modulo.symbols ∨
        symbol ∈ power.symbols := by
    decide
  rcases hall symbol h with h | h | h | h | h <;> exact ⟨_, h⟩

/-- An operator denoted by a token is the one under its text. -/
theorem denotes_iff :
    level.Denotes token operator ↔
      level.takes token ∧ Operator.find? token.text = some operator := by
  rw [takes_iff, Operator.find?_eq_some_iff]
  constructor
  · intro h
    obtain ⟨hcategory, htext⟩ := Token.isDelimiter_iff.mp h.delimiter
    exact ⟨⟨hcategory, htext ▸ h.listed⟩, h.registered, htext.symm⟩
  · intro h
    obtain ⟨⟨hcategory, hlisted⟩, hregistered, hsymbol⟩ := h
    exact ⟨Token.isDelimiter_iff.mpr ⟨hcategory, hsymbol.symm⟩,
      hsymbol ▸ hlisted, hregistered⟩

/-- The grammar and the operator table agree: a level takes the tokens that
denote one of its operators, and no others. -/
theorem takes_iff_denotes :
    level.takes token ↔ ∃ operator, level.Denotes token operator := by
  constructor
  · intro h
    have hsymbol := symbols_subset level (takes_iff.mp h).2
    obtain ⟨operator, hmem, hoperator⟩ := List.mem_map.mp hsymbol
    exact ⟨operator, denotes_iff.mpr
      ⟨h, Operator.find?_eq_some_iff.mpr ⟨hmem, hoperator⟩⟩⟩
  · intro h
    obtain ⟨operator, hoperator⟩ := h
    exact (denotes_iff.mp hoperator).1

/-- A token is an operator of at most one level. -/
theorem eq_of_takes {other : Level} (h : level.takes token)
    (hother : other.takes token) : level = other := by
  have hdisjoint : ∀ a b : Level, ∀ symbol ∈ a.symbols, symbol ∈ b.symbols →
      a = b := by
    intro a b
    cases a <;> cases b <;> decide
  exact hdisjoint level other token.text (takes_iff.mp h).2
    (takes_iff.mp hother).2

/-- No operator opens or closes anything, or separates arguments. -/
theorem not_isDelimiter_of_takes (h : level.takes token) {symbol : String}
    (hsymbol : symbol ∈ ["(", ")", argumentSeparator]) :
    token.isDelimiter symbol = false := by
  have hdisjoint : ∀ symbol ∈ ["(", ")", argumentSeparator],
      symbol ∉ level.symbols := by
    cases level <;> decide
  rw [Bool.eq_false_iff, ne_eq, Token.isDelimiter_iff]
  intro hdelimiter
  obtain ⟨-, rfl⟩ := hdelimiter
  exact hdisjoint _ hsymbol (takes_iff.mp h).2

end Level

end Formulary
