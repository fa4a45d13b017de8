import Formulary.Binary64.Decimal

/-!
# The shortest decimal reads back

A magnitude is a whole number of steps of its binade, so rounding its exact
value changes nothing.  The full decimal expansion is the exact value; every
other candidate of the search for the shortest decimal is only taken if it reads
as the magnitude.  Whichever decimal the search ends with, it reads as the
magnitude.

* `Magnitude.nearest_units` rounds an exact value;
* `Magnitude.ofDecimal_expansion` reads the full expansion;
* `Magnitude.ofDecimal_shortest` reads the shortest decimal.
-/

namespace Formulary.Binary64

/-- A whole quotient is not rounded. -/
theorem roundDiv_mul (quotient : Nat) {den : Nat} (h : 0 < den) :
    roundDiv (quotient * den) den = quotient := by
  have hremainder : 2 * (quotient * den % den) < den := by
    rw [Nat.mul_mod_left]
    exact h
  simp only [roundDiv, if_pos hremainder]
  exact Nat.mul_div_cancel quotient h

namespace Magnitude

theorem ext {m n : Magnitude} (h : m.place = n.place) : m = n := by
  cases m
  cases n
  cases h
  rfl

/-- In the first binade the step is one unit. -/
theorem units_of_lt {m : Magnitude} (h : m.place < binadeSize) :
    m.units = m.place := by
  simp only [units, Nat.div_eq_of_lt h, if_true]

/-- In the other binades a magnitude is a number of steps with 53 binary
digits. -/
theorem units_of_ge {m : Magnitude} (h : binadeSize ≤ m.place) :
    ∃ binade steps, m.units = steps * Nat.pow 2 binade ∧ binadeSize ≤ steps ∧
      steps < 2 * binadeSize ∧ m.place = binade * binadeSize + steps := by
  have hpos : 0 < binadeSize := by decide
  have hbinade : 0 < m.place / binadeSize := Nat.div_pos h hpos
  have hlt := Nat.mod_lt m.place hpos
  obtain ⟨binade, hbinade⟩ := Nat.exists_eq_succ_of_ne_zero (Nat.ne_of_gt hbinade)
  refine ⟨binade, binadeSize + m.place % binadeSize, ?_, by omega, by omega, ?_⟩
  · simp only [units, hbinade]
    rfl
  · have hsplit := Nat.div_add_mod m.place binadeSize
    rw [hbinade, Nat.mul_succ, Nat.mul_comm] at hsplit
    omega

/-- A number of steps with 53 binary digits has its leading digit at their
binade. -/
private theorem log2_steps {steps : Nat} (binade : Nat)
    (hle : binadeSize ≤ steps) (hlt : steps < 2 * binadeSize) :
    (steps * Nat.pow 2 binade).log2 = 52 + binade := by
  have hsize : binadeSize = 2 ^ 52 := by decide
  rw [hsize] at hle hlt
  have hpow : 0 < Nat.pow 2 binade := Nat.two_pow_pos binade
  have hpos : 0 < steps := Nat.lt_of_lt_of_le (Nat.two_pow_pos 52) hle
  rw [Nat.log2_eq_iff (Nat.ne_of_gt (Nat.mul_pos hpos hpow))]
  constructor
  · rw [Nat.pow_add]
    exact Nat.mul_le_mul_right _ hle
  · have hnext : 2 ^ (52 + binade + 1) = 2 * 2 ^ 52 * Nat.pow 2 binade := by
      rw [Nat.pow_succ, Nat.pow_add, Nat.mul_comm, Nat.mul_assoc]
      rfl
    rw [hnext]
    exact Nat.mul_lt_mul_of_pos_right hlt hpow

/-- **An exact value is not rounded.** -/
theorem nearest_units (m : Magnitude) {den : Nat} (h : 0 < den) :
    nearest (m.units * den) den = m := by
  have hquotient : m.units * den / den = m.units := Nat.mul_div_cancel _ h
  apply ext
  simp only [nearest, hquotient]
  rcases Nat.lt_or_ge m.place binadeSize with hlt | hge
  · have hbinade : m.place.log2 - 52 = 0 := by
      rw [Nat.sub_eq_zero_iff_le]
      by_cases hzero : m.place = 0
      · rw [hzero]
        decide
      · have hlog : m.place.log2 < 52 := (Nat.log2_lt hzero).mpr hlt
        exact Nat.le_of_lt hlog
    rw [units_of_lt hlt, hbinade, Nat.zero_mul, Nat.zero_add]
    have hone : den * Nat.pow 2 0 = den := Nat.mul_one den
    rw [hone, roundDiv_mul _ h]
    exact Nat.min_eq_left m.place_le
  · obtain ⟨binade, steps, hunits, hle, hsteps, hplace⟩ := units_of_ge hge
    have hbinade : (steps * Nat.pow 2 binade).log2 - 52 = binade := by
      rw [log2_steps binade hle hsteps]
      omega
    have hnum : steps * Nat.pow 2 binade * den =
        steps * (den * Nat.pow 2 binade) := by
      rw [Nat.mul_assoc, Nat.mul_comm (Nat.pow 2 binade)]
    have hden : 0 < den * Nat.pow 2 binade :=
      Nat.mul_pos h (Nat.two_pow_pos binade)
    rw [hunits, hbinade, hnum, roundDiv_mul _ hden, ← hplace]
    exact Nat.min_eq_left m.place_le

/-- A decimal that is the exact value is not rounded. -/
private theorem ofDecimal_exact {m : Magnitude} {d : Decimal} (places : Nat)
    (hcoefficient : d.coefficient = m.units * Nat.pow 5 places)
    (hexponent : d.exponent = -(places : Int))
    (hone : unitsPerOne = Nat.pow 2 places) : ofDecimal d = m := by
  have hscale : d.exponent.toNat = 0 := by omega
  have hplaces : (-d.exponent).toNat = places := by omega
  have hnum : m.units * Nat.pow 5 places * Nat.pow 10 0 * Nat.pow 2 places =
      m.units * Nat.pow 10 places := by
    have hpow : Nat.pow 5 places * Nat.pow 2 places = Nat.pow 10 places :=
      (Nat.mul_pow 5 2 places).symm
    have hzero : Nat.pow 10 0 = 1 := rfl
    rw [hzero, Nat.mul_one, Nat.mul_assoc, hpow]
  rw [ofDecimal, hscale, hplaces, hcoefficient, hone, hnum]
  exact nearest_units m (Nat.pow_pos (by decide))

/-- The full expansion is the exact value. -/
theorem ofDecimal_expansion (m : Magnitude) : ofDecimal m.expansion = m :=
  ofDecimal_exact 1074 rfl rfl rfl

/-- A neighbour that is taken reads as the magnitude. -/
theorem ofDecimal_of_neighbour? {m : Magnitude} {step : Nat} {point : Decimal}
    (h : m.neighbour? step = some point) : ofDecimal point = m := by
  have hfound := List.find?_some h
  exact of_decide_eq_true hfound

/-- Whatever grid the search ends on, its answer reads as the magnitude. -/
theorem ofDecimal_coarsest (m : Magnitude) (grids : Nat) :
    ofDecimal (m.coarsest grids) = m := by
  rw [coarsest]
  cases hsearch :
      ((List.range grids).reverse.map (· + 1)).findSome? m.neighbour? with
  | none => exact ofDecimal_expansion m
  | some point =>
    obtain ⟨step, -, hstep⟩ := List.exists_of_findSome?_eq_some hsearch
    exact ofDecimal_of_neighbour? hstep

/-- Zero is written as zero. -/
theorem ofDecimal_zero {m : Magnitude} (h : m.units = 0) :
    ofDecimal { coefficient := 0, exponent := 0 } = m := by
  have hscale : Nat.pow 10 (-(0 : Int)).toNat = 1 := rfl
  have hzero := nearest_units m Nat.one_pos
  rw [h, Nat.zero_mul] at hzero
  rw [ofDecimal, hscale, Nat.zero_mul, Nat.zero_mul]
  exact hzero

/-- **The shortest decimal reads as the magnitude.** -/
theorem ofDecimal_shortest (m : Magnitude) : ofDecimal m.shortest = m := by
  rw [shortest]
  split
  · next hzero => exact ofDecimal_zero hzero
  · exact ofDecimal_coarsest m _

end Magnitude

end Formulary.Binary64
