import Formulary.Numeral
import Formulary.Proofs.Binary64.Shortest

/-!
# Numbers that are written can be read

A number is written in digits, with at most one point among them and a digit on
either side of it.  Under every convention whose decimal separator is a point
this is a literal, and it reads as the number; the group separator plays no
part.

* `Decimal.exists_numeral` says how a decimal is written;
* `Numeral.ofLiteral?_chars` reads what is written so;
* `Convention.readNumber?_text` is the round trip of numbers.
-/

namespace Formulary

namespace Numeral

/-- Whether the numeral has a whole part and consists of digits. -/
structure Plain (n : Numeral) : Prop where
  nonempty : n.whole ≠ []
  whole_digits : ∀ c ∈ n.whole, c.isDigit
  fraction_digits : ∀ c ∈ n.fraction, c.isDigit

/-- The numeral with a point between its parts, or its whole part alone. -/
def chars (n : Numeral) : List Char :=
  n.whole ++ if n.fraction = [] then [] else '.' :: n.fraction

variable {convention : Convention} {n : Numeral}

/-- Digits are in groups of any length. -/
theorem isGrouped_digits {group : Char} {afterDigit : Bool} {cs : List Char}
    (h : ∀ c ∈ cs, c.isDigit) : isGrouped group afterDigit cs = true := by
  induction cs generalizing afterDigit with
  | nil => rfl
  | cons c rest ih =>
    rw [isGrouped, if_pos (h c List.mem_cons_self)]
    exact ih fun x hx => h x (List.mem_cons_of_mem _ hx)

/-- A point is no digit. -/
theorem ne_point_of_isDigit {c : Char} (h : c.isDigit) : c ≠ '.' := by
  rintro rfl
  exact absurd h (by decide)

/-- The parts of a plain numeral are found at its point. -/
private theorem split_chars (h : n.Plain) :
    n.chars.takeWhile (· ≠ '.') = n.whole ∧
      (n.chars.dropWhile (· ≠ '.')).drop 1 = n.fraction := by
  have hwhole : ∀ c ∈ n.whole, decide (c ≠ '.') = true := fun c hc =>
    decide_eq_true (ne_point_of_isDigit (h.whole_digits c hc))
  rw [chars, List.takeWhile_append_of_pos hwhole,
    List.dropWhile_append_of_pos hwhole]
  split
  · next hnone => simp [hnone]
  · simp

/-- **A plain numeral is read as it is.** -/
theorem ofLiteral?_chars (hdecimal : convention.decimal = '.') (h : n.Plain) :
    ofLiteral? convention n.chars = some n := by
  obtain ⟨hwhole, hfraction⟩ := split_chars h
  have hgrouped : isGrouped convention.group false n.whole = true :=
    isGrouped_digits h.whole_digits
  have hdigits : n.fraction.all Char.isDigit = true :=
    List.all_eq_true.mpr h.fraction_digits
  have hsome : (n.whole ++ n.fraction).any Char.isDigit = true := by
    obtain ⟨c, rest, hsplit⟩ := List.exists_cons_of_ne_nil h.nonempty
    have hc : c.isDigit := h.whole_digits c (by simp [hsplit])
    simp [hsplit, hc]
  have hfilter : n.whole.filter Char.isDigit = n.whole :=
    List.filter_eq_self.mpr h.whole_digits
  simp only [ofLiteral?, hdecimal, hwhole, hfraction, hgrouped, hdigits, hsome,
    hfilter, Bool.and_self, if_true]

/-- Every character of a plain numeral can start a number. -/
theorem startsNumber_of_mem_chars {c : Char} (h : n.Plain) (hc : c ∈ n.chars) :
    c.isDigit ∨ c = '.' := by
  rw [chars] at hc
  rcases List.mem_append.mp hc with hc | hc
  · exact Or.inl (h.whole_digits c hc)
  · split at hc
    · cases hc
    · rcases List.mem_cons.mp hc with rfl | hc
      · exact Or.inr rfl
      · exact Or.inl (h.fraction_digits c hc)

end Numeral

namespace Decimal

/-- Zeros at the end of digits scale what they spell. -/
private theorem ofDigitChars_zeros (n zeros : Nat) :
    Nat.ofDigitChars 10 (Nat.toDigits 10 n ++ List.replicate zeros '0') 0 =
      n * Nat.pow 10 zeros := by
  rw [Nat.ofDigitChars_append, Nat.ofDigitChars_ten_toDigits,
    Nat.ofDigitChars_replicate_zero, Nat.mul_comm]
  rfl

/-- Zeros before digits change nothing. -/
private theorem ofDigitChars_padded (n zeros : Nat) :
    Nat.ofDigitChars 10 (List.replicate zeros '0' ++ Nat.toDigits 10 n) 0 = n := by
  rw [Nat.ofDigitChars_append, Nat.ofDigitChars_replicate_zero, Nat.mul_zero,
    Nat.ofDigitChars_ten_toDigits]

/-- Zeros and the digits of a number are digits. -/
private theorem isDigit_of_mem {n zeros : Nat} {c : Char}
    (h : c ∈ List.replicate zeros '0' ∨ c ∈ Nat.toDigits 10 n) : c.isDigit := by
  rcases h with h | h
  · rw [List.eq_of_mem_replicate h]
    decide
  · exact Nat.isDigit_of_mem_toDigits (by decide) (Nat.le_refl _) h

/-- A whole number is written with the zeros that its exponent asks for. -/
private theorem exists_numeral_whole {d : Decimal}
    (h : (-d.exponent).toNat = 0) :
    ∃ n : Numeral, n.Plain ∧ d.chars = n.chars ∧
      Binary64.Magnitude.ofDecimal (.ofDigits n.whole n.fraction) =
        Binary64.Magnitude.ofDecimal d := by
  let whole := Nat.toDigits 10 d.coefficient ++
    List.replicate d.exponent.toNat '0'
  have hcoefficient : (ofDigits whole []).coefficient =
      d.coefficient * Nat.pow 10 d.exponent.toNat := by
    simp only [ofDigits, List.append_nil, whole]
    exact ofDigitChars_zeros _ _
  have hexponent : (ofDigits whole []).exponent = 0 := rfl
  have hone : Nat.pow 10 (0 : Int).toNat = 1 := rfl
  refine ⟨⟨whole, []⟩, ⟨?_, ?_, by simp⟩, ?_, ?_⟩
  · exact List.append_ne_nil_of_left_ne_nil Nat.toDigits_ne_nil _
  · intro c hc
    exact isDigit_of_mem (List.mem_append.mp hc).symm
  · simp only [chars, h, if_true, Numeral.chars, List.append_nil, whole]
  · simp only [Binary64.Magnitude.ofDecimal, hcoefficient, hexponent, h,
      Int.neg_zero, hone, Nat.mul_one]

/-- Any other number is written with as many digits after the point as its
exponent asks for. -/
private theorem exists_numeral_fraction {d : Decimal}
    (h : (-d.exponent).toNat ≠ 0) :
    ∃ n : Numeral, n.Plain ∧ d.chars = n.chars ∧
      Binary64.Magnitude.ofDecimal (.ofDigits n.whole n.fraction) =
        Binary64.Magnitude.ofDecimal d := by
  let digits := Nat.toDigits 10 d.coefficient
  let places := (-d.exponent).toNat
  let padded := List.replicate (places + 1 - digits.length) '0' ++ digits
  let split := padded.length - places
  have hlength : places + 1 ≤ padded.length := by
    simp only [padded, List.length_append, List.length_replicate]
    omega
  have hdigits : ∀ c ∈ padded, c.isDigit := fun c hc =>
    isDigit_of_mem (List.mem_append.mp hc)
  have hfraction : (padded.drop split).length = places := by
    rw [List.length_drop]
    omega
  have hsame : ofDigits (padded.take split) (padded.drop split) = d := by
    have hcoefficient : Nat.ofDigitChars 10 padded 0 = d.coefficient :=
      ofDigitChars_padded _ _
    have hexponent : -((places : Nat) : Int) = d.exponent := by omega
    rw [ofDigits, List.take_append_drop, hcoefficient, hfraction, hexponent]
  refine ⟨⟨padded.take split, padded.drop split⟩, ⟨?_, ?_, ?_⟩, ?_, ?_⟩
  · intro hnil
    have hzero : (padded.take split).length = 0 := congrArg List.length hnil
    rw [List.length_take] at hzero
    omega
  · exact fun c hc => hdigits c (List.mem_of_mem_take hc)
  · exact fun c hc => hdigits c (List.mem_of_mem_drop hc)
  · have hnonempty : padded.drop split ≠ [] := by
      intro hnil
      rw [hnil] at hfraction
      exact h hfraction.symm
    simp only [Numeral.chars, if_neg hnonempty]
    simp only [chars, if_neg h]
    rfl
  · rw [hsame]

/-- **A decimal is written as a plain numeral** that spells its magnitude. -/
theorem exists_numeral (d : Decimal) :
    ∃ n : Numeral, n.Plain ∧ d.chars = n.chars ∧
      Binary64.Magnitude.ofDecimal (.ofDigits n.whole n.fraction) =
        Binary64.Magnitude.ofDecimal d := by
  by_cases h : (-d.exponent).toNat = 0
  · exact exists_numeral_whole h
  · exact exists_numeral_fraction h

end Decimal

namespace Binary64

/-- A finite number that is not negative is written as a plain numeral that has
it as its value. -/
theorem exists_numeral_text {m : Magnitude} (h : m.isFinite) :
    ∃ n : Numeral, n.Plain ∧ (text (ofParts false m)).toList = n.chars ∧
      n.value = ofParts false m := by
  obtain ⟨n, hplain, hchars, hvalue⟩ := m.shortest.exists_numeral
  refine ⟨n, hplain, ?_, ?_⟩
  · simp only [text, parts?_ofParts, Magnitude.text, h, if_true,
      String.toList_ofList, hchars]
  · rw [Numeral.value, hvalue, Magnitude.ofDecimal_shortest]

/-- An infinite number is written as a word. -/
theorem text_infinity : text (ofParts false .infinity) = "inf" := by
  simp only [text, parts?_ofParts]
  decide

end Binary64

/-- **A finite number is read back from its text**, whatever the group
separator. -/
theorem Convention.readNumber?_text {convention : Convention}
    (hdecimal : convention.decimal = '.') {m : Binary64.Magnitude}
    (h : m.isFinite) :
    convention.readNumber? (Binary64.text (Binary64.ofParts false m)) =
      some (Binary64.ofParts false m) := by
  obtain ⟨n, hplain, hchars, hvalue⟩ := Binary64.exists_numeral_text h
  rw [readNumber?, hchars, Numeral.ofLiteral?_chars hdecimal hplain,
    Option.map_some, hvalue]

end Formulary
