import Formulary.Binary64.Notation
import Formulary.Proofs.Numeral
import Formulary.Proofs.Token.Character
import Mathlib.Data.List.TakeWhile

/-!
# The literals that write numbers

A literal that writes a number has one of three forms.  It is a whole part
alone, a whole part before a decimal separator and a fraction, or a decimal
separator before a fraction.  The whole part is made of runs of digits with
single group separators between them.  The fraction is made of digits, of which
there may be none after a whole part.

Every such literal has a plain notation: the runs one after the other, and a
point before the fraction if there is a decimal separator.  Its value is what
the plain notation spells outside of formulas, where no convention applies.

A group separator can only be judged together with the digits on both sides of
it, so `isGrouped` walks over a whole part with a flag for the digit before.  The
proofs see a whole part as its first run and the others, each after its
separator; this is what is left of it at every place of the walk.

* `Convention.Spells` are the forms with their plain notations;
* `Convention.isGrouped_iff` is the statement for whole parts;
* `Binary64.ofText_append` reads plain notations;
* `Convention.readNumber?_spells` is the statement for literals.
-/

namespace Formulary

/-- One or more digits. -/
structure DigitRun (cs : List Char) : Prop where
  nonempty : cs ≠ []
  digits : ∀ c ∈ cs, c.isDigit

/-- One or more runs of digits. -/
structure DigitRuns (runs : List (List Char)) : Prop where
  nonempty : runs ≠ []
  each : ∀ run ∈ runs, DigitRun run

/-- The literal writes a number under the convention, and the other text is the
same number in plain notation. -/
inductive Convention.Spells (convention : Convention) :
    List Char → List Char → Prop where
  /-- A whole part alone. -/
  | whole {runs : List (List Char)} (grouped : DigitRuns runs) :
      Spells convention ([convention.group].intercalate runs) runs.flatten
  /-- A whole part before a fraction, which may be empty. -/
  | mixed {runs : List (List Char)} {fraction : List Char}
      (grouped : DigitRuns runs) (digits : ∀ c ∈ fraction, c.isDigit) :
      Spells convention
        ([convention.group].intercalate runs ++ convention.decimal :: fraction)
        (runs.flatten ++ '.' :: fraction)
  /-- A fraction alone. -/
  | fraction {fraction : List Char} (run : DigitRun fraction) :
      Spells convention (convention.decimal :: fraction) ('.' :: fraction)

/-- Joined runs are the first of them and the others, each after a separator. -/
theorem intercalate_cons (group : Char) (run : List Char)
    (others : List (List Char)) :
    [group].intercalate (run :: others) =
      run ++ others.flatMap fun other => group :: other := by
  induction others generalizing run with
  | nil => simp
  | cons next others ih =>
    rw [List.intercalate_cons_cons, ih, List.flatMap_cons, List.append_assoc]
    rfl

/-- After a run of digits a digit precedes. -/
private theorem DigitRun.isGrouped {group : Char} {run : List Char}
    (h : DigitRun run) (afterDigit : Bool) (rest : List Char) :
    isGrouped group afterDigit (run ++ rest) = isGrouped group true rest := by
  obtain ⟨hnonempty, hdigits⟩ := h
  induction run generalizing afterDigit with
  | nil => exact absurd rfl hnonempty
  | cons c run ih =>
    obtain ⟨hdigit, hmore⟩ := List.forall_mem_cons.mp hdigits
    rw [List.cons_append, Formulary.isGrouped, if_pos hdigit]
    by_cases hrun : run = []
    · rw [hrun, List.nil_append]
    · exact ih true hrun hmore

/-- Runs that each follow a separator go on with a whole part. -/
private theorem isGrouped_flatMap {group : Char} (hgroup : group.isDigit = false)
    {runs : List (List Char)} (h : ∀ run ∈ runs, DigitRun run) :
    isGrouped group true (runs.flatMap fun run => group :: run) = true := by
  induction runs with
  | nil => rfl
  | cons run runs ih =>
    obtain ⟨hrun, hmore⟩ := List.forall_mem_cons.mp h
    have hnext : ((run ++ runs.flatMap fun run => group :: run).head?.any
        Char.isDigit) = true := by
      obtain ⟨c, others, rfl⟩ := List.exists_cons_of_ne_nil hrun.nonempty
      exact hrun.digits c List.mem_cons_self
    rw [List.flatMap_cons, List.cons_append, isGrouped, if_neg (by simp [hgroup]),
      hnext, hrun.isGrouped, ih hmore]
    simp

/-- What is left of a whole part at any place are digits and further runs, each
after a separator.  If no digit precedes, the first run is not empty. -/
private theorem exists_runs_of_isGrouped {group : Char} {afterDigit : Bool}
    {cs : List Char} (h : isGrouped group afterDigit cs) :
    ∃ (run : List Char) (others : List (List Char)),
      cs = run ++ (others.flatMap fun other => group :: other) ∧
      (∀ c ∈ run, c.isDigit) ∧ (∀ other ∈ others, DigitRun other) ∧
      (afterDigit = false → cs ≠ [] → run ≠ []) := by
  induction cs generalizing afterDigit with
  | nil => exact ⟨[], [], by simp⟩
  | cons c rest ih =>
    rw [isGrouped] at h
    split at h
    · next hdigit =>
      obtain ⟨run, others, rfl, hrun, hothers, -⟩ := ih h
      exact ⟨c :: run, others, rfl, List.forall_mem_cons.mpr ⟨hdigit, hrun⟩,
        hothers, by simp⟩
    · simp only [Bool.and_eq_true, beq_iff_eq] at h
      obtain ⟨⟨⟨rfl, hafter⟩, hnext⟩, hrest⟩ := h
      obtain ⟨run, others, hsplit, hrun, hothers, hsome⟩ := ih hrest
      have hnonempty : run ≠ [] := by
        refine hsome rfl ?_
        rintro rfl
        simp at hnext
      refine ⟨[], run :: others, by simp [hsplit], by simp, ?_, by simp [hafter]⟩
      exact List.forall_mem_cons.mpr ⟨⟨hnonempty, hrun⟩, hothers⟩

namespace Convention

variable {convention : Convention}

/-- The group separator is no digit. -/
theorem isDigit_group (convention : Convention) :
    convention.group.isDigit = false :=
  (free_of_isReserved convention.group_free).1

/-- **Whole parts.**  Characters that are grouped are none at all, or runs of
digits with single separators between them. -/
theorem isGrouped_iff (convention : Convention) {cs : List Char} :
    isGrouped convention.group false cs ↔
      cs = [] ∨ ∃ runs, DigitRuns runs ∧
        cs = [convention.group].intercalate runs := by
  constructor
  · intro h
    obtain ⟨run, others, hsplit, hrun, hothers, hsome⟩ :=
      exists_runs_of_isGrouped h
    by_cases hempty : cs = []
    · exact Or.inl hempty
    · refine Or.inr ⟨run :: others, ⟨List.cons_ne_nil _ _, ?_⟩, ?_⟩
      · exact List.forall_mem_cons.mpr ⟨⟨hsome rfl hempty, hrun⟩, hothers⟩
      · rw [intercalate_cons, hsplit]
  · rintro (rfl | ⟨runs, hruns, rfl⟩)
    · rfl
    · obtain ⟨run, others, rfl⟩ := List.exists_cons_of_ne_nil hruns.nonempty
      obtain ⟨hrun, hothers⟩ := List.forall_mem_cons.mp hruns.each
      rw [intercalate_cons, hrun.isGrouped]
      exact isGrouped_flatMap convention.isDigit_group hothers

end Convention

namespace DigitRuns

variable {runs : List (List Char)}

/-- Without their separators the runs are one run. -/
theorem flatten (h : DigitRuns runs) : DigitRun runs.flatten := by
  obtain ⟨run, others, rfl⟩ := List.exists_cons_of_ne_nil h.nonempty
  refine ⟨?_, ?_⟩
  · rw [List.flatten_cons]
    exact List.append_ne_nil_of_left_ne_nil (h.each run List.mem_cons_self).nonempty _
  · intro c hc
    obtain ⟨part, hpart, hmem⟩ := List.mem_flatten.mp hc
    exact (h.each part hpart).digits c hmem

/-- A choice of characters that keeps the digits but not the separator leaves
the digits. -/
theorem filter_intercalate {group : Char} {p : Char → Bool} (hgroup : p group = false)
    (hp : ∀ c, c.isDigit → p c) (h : DigitRuns runs) :
    ([group].intercalate runs).filter p = runs.flatten := by
  obtain ⟨first, others, rfl⟩ := List.exists_cons_of_ne_nil h.nonempty
  have hkeep : ∀ run ∈ first :: others, run.filter p = run := fun run hrun =>
    List.filter_eq_self.mpr fun c hc => hp c ((h.each run hrun).digits c hc)
  obtain ⟨hfirst, hothers⟩ := List.forall_mem_cons.mp hkeep
  have hrest : (others.flatMap fun other => group :: other).filter p =
      others.flatten := by
    clear hkeep h
    induction others with
    | nil => rfl
    | cons other others ih =>
      obtain ⟨hother, hmore⟩ := List.forall_mem_cons.mp hothers
      rw [List.flatMap_cons, List.filter_append, List.filter_cons_of_neg (by simp [hgroup]),
        hother, ih hmore, List.flatten_cons]
  rw [intercalate_cons, List.filter_append, hfirst, hrest, List.flatten_cons]

end DigitRuns

/-- The characters are a fraction after its mark.  If it is empty the mark may
be missing too. -/
def IsMarked (mark : Char) (fraction tail : List Char) : Prop :=
  tail = mark :: fraction ∨ tail = [] ∧ fraction = []

/-- A literal is split at its first decimal separator. -/
theorem exists_isMarked (mark : Char) (literal : List Char) :
    ∃ whole tail fraction, literal = whole ++ tail ∧ mark ∉ whole ∧
      IsMarked mark fraction tail := by
  by_cases hmark : mark ∈ literal
  · obtain ⟨whole, fraction, rfl, hfirst⟩ := List.eq_append_cons_of_mem hmark
    exact ⟨whole, mark :: fraction, fraction, rfl, hfirst, Or.inl rfl⟩
  · exact ⟨literal, [], [], (List.append_nil _).symm, hmark, Or.inr ⟨rfl, rfl⟩⟩

/-- The parts of a split literal are what the reader looks at. -/
theorem Numeral.ofLiteral?_append {convention : Convention}
    {whole tail fraction : List Char} (hfirst : convention.decimal ∉ whole)
    (htail : IsMarked convention.decimal fraction tail) :
    ofLiteral? convention (whole ++ tail) =
      if isGrouped convention.group false whole && fraction.all Char.isDigit &&
          (whole ++ fraction).any Char.isDigit then
        some { whole := whole.filter Char.isDigit, fraction }
      else none := by
  have hbefore : ∀ c ∈ whole, decide (c ≠ convention.decimal) = true := fun c hc =>
    decide_eq_true fun heq => hfirst (heq ▸ hc)
  have htake : (whole ++ tail).takeWhile (· ≠ convention.decimal) = whole := by
    rw [List.takeWhile_append_of_pos hbefore]
    rcases htail with rfl | ⟨rfl, -⟩ <;> simp
  have hdrop : ((whole ++ tail).dropWhile (· ≠ convention.decimal)).drop 1 =
      fraction := by
    rw [List.dropWhile_append_of_pos hbefore]
    rcases htail with rfl | ⟨rfl, rfl⟩ <;> simp
  simp only [ofLiteral?, htake, hdrop]

namespace Binary64

/-- Lower case leaves digits and points as they are. -/
private theorem toLower_eq_self {c : Char} (h : c.isDigit ∨ c = '.') :
    c.toLower = c := by
  rcases h with h | rfl
  · have hnine : c.toNat ≤ 57 := (Char.isDigit_iff_toNat.mp h).2
    have hupper : ¬(c.val ≥ 'A'.val ∧ c.val ≤ 'Z'.val) := by
      intro hup
      have hfirst : 65 ≤ c.toNat := UInt32.le_iff_toNat_le.mp hup.1
      omega
    exact dif_neg hupper
  · rfl

/-- No word starts with a digit or a point. -/
private theorem toLower_ne_word {c w : Char} {rest ws : List Char}
    (h : c.isDigit ∨ c = '.') (hw : ¬(w.isDigit ∨ w = '.')) :
    String.ofList ((c :: rest).map Char.toLower) ≠ String.ofList (w :: ws) := by
  intro heq
  have hhead : c.toLower = w := by
    simpa using congrArg (List.head? ∘ String.toList) heq
  rw [toLower_eq_self h] at hhead
  exact hw (hhead ▸ h)

/-- Digits with a point among them spell a decimal. -/
private theorem decimal?_append {whole fraction tail : List Char}
    (hwhole : ∀ c ∈ whole, c.isDigit) (hfraction : ∀ c ∈ fraction, c.isDigit)
    (htail : IsMarked '.' fraction tail) (hsome : whole ++ fraction ≠ []) :
    decimal? (whole ++ tail) = some (.ofDigits whole fraction) := by
  have htake : (whole ++ tail).takeWhile Char.isDigit = whole := by
    rw [List.takeWhile_append_of_pos hwhole]
    rcases htail with rfl | ⟨rfl, -⟩ <;> simp
  have hdrop : (whole ++ tail).dropWhile Char.isDigit = tail := by
    rw [List.dropWhile_append_of_pos hwhole]
    rcases htail with rfl | ⟨rfl, -⟩ <;> simp
  have hempty : (whole.isEmpty && fraction.isEmpty) = false := by
    simpa using hsome
  have hscale (low high : Nat) : max (-(low : Int)) (min (high : Int) 0) = 0 := by
    omega
  have hall : fraction.takeWhile Char.isDigit = fraction ∧
      fraction.dropWhile Char.isDigit = [] :=
    ⟨List.takeWhile_eq_self_iff.mpr hfraction, List.dropWhile_eq_nil_iff.mpr hfraction⟩
  rcases htail with rfl | ⟨rfl, rfl⟩
  · simp only [decimal?, htake, hdrop, hall, hempty, powerOfTen?, Option.map_some,
      hscale, Int.add_zero, Bool.false_eq_true, if_false]
  · simp only [decimal?, htake, hdrop, hempty, powerOfTen?, Option.map_some, hscale,
      Int.add_zero, Bool.false_eq_true, if_false]

/-- A notation without a sign that starts with a digit or a point spells its
decimal, for it is no word. -/
private theorem ofText_of_decimal? {c : Char} {rest : List Char} {d : Decimal}
    (hc : c.isDigit ∨ c = '.') (h : decimal? (c :: rest) = some d) :
    ofText (String.ofList (c :: rest)) = .ok (ofParts false (.ofDecimal d)) := by
  have hinf : String.ofList ((c :: rest).map Char.toLower) ≠ "inf" :=
    toLower_ne_word hc (by decide)
  have hinfinity : String.ofList ((c :: rest).map Char.toLower) ≠ "infinity" :=
    toLower_ne_word hc (by decide)
  have hnan : String.ofList ((c :: rest).map Char.toLower) ≠ "nan" :=
    toLower_ne_word hc (by decide)
  have hunsigned : unsigned? (c :: rest) = some (ofParts false (.ofDecimal d)) := by
    simp only [unsigned?, beq_eq_false_iff_ne.mpr hinf, beq_eq_false_iff_ne.mpr hinfinity,
      beq_eq_false_iff_ne.mpr hnan, Bool.or_self, Bool.false_eq_true, if_false, h,
      Option.map_some]
  rw [ofText, String.toList_ofList]
  split
  · next heq => cases heq
  · next heq =>
    rw [(List.cons.inj heq).1] at hc
    exact absurd hc (by decide)
  · next heq =>
    rw [(List.cons.inj heq).1] at hc
    exact absurd hc (by decide)
  · rw [hunsigned]

/-- **Plain notation.**  Digits with a point among them, and at least one digit,
are a number outside of formulas, the one that their numeral writes. -/
theorem ofText_append {whole fraction tail : List Char}
    (hwhole : ∀ c ∈ whole, c.isDigit) (hfraction : ∀ c ∈ fraction, c.isDigit)
    (htail : IsMarked '.' fraction tail) (hsome : whole ++ fraction ≠ []) :
    ofText (String.ofList (whole ++ tail)) = .ok (Numeral.value ⟨whole, fraction⟩) := by
  have hdecimal := decimal?_append hwhole hfraction htail hsome
  obtain ⟨c, rest, hsplit⟩ : ∃ c rest, whole ++ tail = c :: rest := by
    refine List.exists_cons_of_ne_nil ?_
    rcases htail with rfl | ⟨rfl, rfl⟩
    · simp
    · exact hsome
  have hc : c.isDigit ∨ c = '.' := by
    have hmem : c ∈ whole ++ tail := hsplit ▸ List.mem_cons_self
    rcases List.mem_append.mp hmem with hmem | hmem
    · exact Or.inl (hwhole c hmem)
    · rcases htail with rfl | ⟨rfl, -⟩
      · exact (List.mem_cons.mp hmem).symm.imp_left (hfraction c)
      · cases hmem
  rw [hsplit] at hdecimal ⊢
  exact ofText_of_decimal? hc hdecimal

end Binary64

namespace Convention

variable {convention : Convention}

/-- No digit separates groups. -/
theorem ne_group_of_isDigit {c : Char} (h : c.isDigit) : c ≠ convention.group := by
  rintro rfl
  rw [convention.isDigit_group] at h
  cases h

/-- Joined runs without the separators. -/
theorem filter_ne_group {runs : List (List Char)} (h : DigitRuns runs) :
    ([convention.group].intercalate runs).filter (· ≠ convention.group) =
      runs.flatten :=
  h.filter_intercalate (decide_eq_false fun hne => hne rfl)
    fun _ hc => decide_eq_true (ne_group_of_isDigit hc)

/-- The decimal separator does not occur among joined runs. -/
theorem decimal_not_mem_intercalate {runs : List (List Char)} (h : DigitRuns runs) :
    convention.decimal ∉ [convention.group].intercalate runs := by
  intro hmem
  have hkept : convention.decimal ∈ runs.flatten := by
    rw [← filter_ne_group h]
    exact List.mem_filter.mpr ⟨hmem, decide_eq_true convention.distinct⟩
  have hfree := (free_of_isReserved convention.decimal_free).1
  rw [h.flatten.digits _ hkept] at hfree
  cases hfree

/-- A grouped whole part with a fraction is read if one of them has a digit. -/
private theorem ofLiteral?_of_isGrouped {whole tail fraction digits : List Char}
    (hgrouped : isGrouped convention.group false whole)
    (hdigits : whole.filter Char.isDigit = digits)
    (hfirst : convention.decimal ∉ whole)
    (htail : IsMarked convention.decimal fraction tail)
    (hfraction : ∀ c ∈ fraction, c.isDigit) (hsome : digits ++ fraction ≠ []) :
    Numeral.ofLiteral? convention (whole ++ tail) =
      some { whole := digits, fraction } := by
  have hany : (whole ++ fraction).any Char.isDigit = true := by
    obtain ⟨c, hc⟩ := List.exists_mem_of_ne_nil _ hsome
    rw [← hdigits, ← List.filter_eq_self.mpr hfraction, ← List.filter_append] at hc
    exact List.any_eq_true.mpr ⟨c, List.mem_filter.mp hc⟩
  rw [Numeral.ofLiteral?_append hfirst htail, hgrouped,
    List.all_eq_true.mpr hfraction, hany, hdigits]
  rfl

/-- Runs with a fraction are read. -/
private theorem ofLiteral?_runs {runs : List (List Char)} {tail fraction : List Char}
    (hruns : DigitRuns runs) (htail : IsMarked convention.decimal fraction tail)
    (hfraction : ∀ c ∈ fraction, c.isDigit) :
    Numeral.ofLiteral? convention ([convention.group].intercalate runs ++ tail) =
      some { whole := runs.flatten, fraction } := by
  refine ofLiteral?_of_isGrouped ?_ ?_ (decimal_not_mem_intercalate hruns) htail
    hfraction (List.append_ne_nil_of_left_ne_nil hruns.flatten.nonempty _)
  · exact convention.isGrouped_iff.mpr (Or.inr ⟨runs, hruns, rfl⟩)
  · exact hruns.filter_intercalate convention.isDigit_group fun _ hc => hc

namespace Spells

variable {literal plain : List Char}

/-- A literal of one of the forms is read, and its value is the number that the
plain notation spells. -/
theorem exists_ofLiteral? (h : convention.Spells literal plain) :
    ∃ n, Numeral.ofLiteral? convention literal = some n ∧
      Binary64.ofText (String.ofList plain) = .ok n.value := by
  have hnone : ∀ c ∈ ([] : List Char), c.isDigit := by simp
  cases h with
  | @whole runs grouped =>
    have htail (mark : Char) : IsMarked mark [] [] := Or.inr ⟨rfl, rfl⟩
    have hread := ofLiteral?_runs grouped (htail convention.decimal) hnone
    have htext := Binary64.ofText_append grouped.flatten.digits hnone (htail '.')
      (List.append_ne_nil_of_left_ne_nil grouped.flatten.nonempty _)
    rw [List.append_nil] at hread htext
    exact ⟨_, hread, htext⟩
  | @mixed runs fraction grouped digits =>
    have htail (mark : Char) : IsMarked mark fraction (mark :: fraction) := Or.inl rfl
    exact ⟨_, ofLiteral?_runs grouped (htail convention.decimal) digits,
      Binary64.ofText_append grouped.flatten.digits digits (htail '.')
        (List.append_ne_nil_of_left_ne_nil grouped.flatten.nonempty _)⟩
  | @fraction fraction run =>
    have htail (mark : Char) : IsMarked mark fraction (mark :: fraction) := Or.inl rfl
    have hread : Numeral.ofLiteral? convention ([] ++ convention.decimal :: fraction) =
        some { whole := [], fraction } :=
      ofLiteral?_of_isGrouped rfl rfl List.not_mem_nil (htail _) run.digits run.nonempty
    have htext := Binary64.ofText_append hnone run.digits (htail '.') run.nonempty
    rw [List.nil_append] at hread htext
    exact ⟨_, hread, htext⟩

/-- A literal that is read has one of the forms. -/
theorem exists_of_ofLiteral? {n : Numeral}
    (h : Numeral.ofLiteral? convention literal = some n) :
    ∃ plain, convention.Spells literal plain := by
  obtain ⟨whole, tail, fraction, rfl, hfirst, htail⟩ :=
    exists_isMarked convention.decimal literal
  rw [Numeral.ofLiteral?_append hfirst htail] at h
  split at h
  · next haccept =>
    simp only [Bool.and_eq_true] at haccept
    obtain ⟨⟨hgrouped, hall⟩, hany⟩ := haccept
    have hfraction := List.all_eq_true.mp hall
    rcases convention.isGrouped_iff.mp hgrouped with rfl | ⟨runs, hruns, rfl⟩
    · rcases htail with rfl | ⟨-, rfl⟩
      · have hnonempty : fraction ≠ [] := by
          rintro rfl
          cases hany
        exact ⟨_, .fraction ⟨hnonempty, hfraction⟩⟩
      · cases hany
    · rcases htail with rfl | ⟨rfl, rfl⟩
      · exact ⟨_, .mixed hruns hfraction⟩
      · rw [List.append_nil]
        exact ⟨_, .whole hruns⟩
  · cases h

/-- A literal of one of the forms starts with a digit or with the decimal
separator. -/
theorem exists_cons (h : convention.Spells literal plain) :
    ∃ c rest, literal = c :: rest ∧ convention.startsNumber c := by
  have hdigits {runs : List (List Char)} (hruns : DigitRuns runs) :
      ∃ c rest, [convention.group].intercalate runs = c :: rest ∧
        convention.startsNumber c := by
    obtain ⟨run, others, rfl⟩ := List.exists_cons_of_ne_nil hruns.nonempty
    have hrun := hruns.each run List.mem_cons_self
    obtain ⟨c, rest, rfl⟩ := List.exists_cons_of_ne_nil hrun.nonempty
    refine ⟨c, _, by rw [intercalate_cons, List.cons_append], ?_⟩
    simp [startsNumber, hrun.digits c List.mem_cons_self]
  cases h with
  | whole grouped => exact hdigits grouped
  | @mixed runs fraction grouped _ =>
    obtain ⟨c, rest, hsplit, hstarts⟩ := hdigits grouped
    exact ⟨c, _, by rw [hsplit, List.cons_append], hstarts⟩
  | @fraction fraction _ => exact ⟨_, fraction, rfl, by simp [startsNumber]⟩

/-- Without the group separators a literal has the same plain notation. -/
theorem ungrouped (h : convention.Spells literal plain) :
    convention.Spells (literal.filter (· ≠ convention.group)) plain := by
  have hfraction {fraction : List Char} (hdigits : ∀ c ∈ fraction, c.isDigit) :
      (convention.decimal :: fraction).filter (· ≠ convention.group) =
        convention.decimal :: fraction :=
    List.filter_eq_self.mpr (List.forall_mem_cons.mpr
      ⟨decide_eq_true convention.distinct,
        fun c hc => decide_eq_true (ne_group_of_isDigit (hdigits c hc))⟩)
  have hone {runs : List (List Char)} (hruns : DigitRuns runs) :
      DigitRuns [runs.flatten] :=
    ⟨List.cons_ne_nil _ _, List.forall_mem_singleton.mpr hruns.flatten⟩
  cases h with
  | @whole runs grouped =>
    rw [filter_ne_group grouped]
    simpa using @whole convention _ (hone grouped)
  | @mixed runs fraction grouped digits =>
    rw [List.filter_append, filter_ne_group grouped, hfraction digits]
    simpa using Spells.mixed (hone grouped) digits
  | @fraction fraction run =>
    rw [hfraction run.digits]
    exact .fraction run

/-- A text of one of the forms has the value that its plain notation spells. -/
private theorem exists_value {text : String}
    (h : convention.Spells text.toList plain) :
    ∃ value, Binary64.ofText (String.ofList plain) = .ok value ∧
      convention.readNumber? text = some value := by
  obtain ⟨n, hliteral, hplain⟩ := h.exists_ofLiteral?
  refine ⟨n.value, hplain, ?_⟩
  rw [readNumber?, hliteral, Option.map_some]

end Spells

/-- **Literals.**  A literal is read under a convention exactly if it has one of
the three forms, and its value is the number that its plain notation spells.
Without its group separators it has the same value. -/
theorem readNumber?_spells (convention : Convention) (literal : String) :
    ((∃ value, convention.readNumber? literal = some value) ↔
      ∃ plain, convention.Spells literal.toList plain) ∧
    (∀ plain, convention.Spells literal.toList plain →
      ∃ value, Binary64.ofText (String.ofList plain) = .ok value ∧
        convention.readNumber? literal = some value) ∧
    ∀ value, convention.readNumber? literal = some value →
      convention.readNumber?
        (String.ofList (literal.toList.filter (· ≠ convention.group))) = some value := by
  have hform {value : Float} (h : convention.readNumber? literal = some value) :
      ∃ plain, convention.Spells literal.toList plain := by
    obtain ⟨n, hliteral, -⟩ := Option.map_eq_some_iff.mp h
    exact Spells.exists_of_ofLiteral? hliteral
  refine ⟨⟨?_, ?_⟩, fun _ h => h.exists_value, ?_⟩
  · rintro ⟨value, h⟩
    exact hform h
  · rintro ⟨plain, h⟩
    obtain ⟨value, -, hvalue⟩ := h.exists_value
    exact ⟨value, hvalue⟩
  · intro value h
    obtain ⟨plain, hplain⟩ := hform h
    have hungrouped : convention.Spells (String.ofList
        (literal.toList.filter (· ≠ convention.group))).toList plain := by
      rw [String.toList_ofList]
      exact hplain.ungrouped
    obtain ⟨grouped, htext, hgrouped⟩ := hplain.exists_value
    obtain ⟨bare, htext', hbare⟩ := hungrouped.exists_value
    have hsame : grouped = bare := Except.ok.inj (htext.symm.trans htext')
    rw [hbare, ← hsame, ← hgrouped, h]

end Convention

end Formulary
