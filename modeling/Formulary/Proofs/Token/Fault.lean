import Formulary.Proofs.Token.Character

/-!
# The leftmost fault of a text

A text has no tokens if one of its characters fits nowhere, if a closing
parenthesis has none to close, or if an opening one stays open at the end.
`Convention.LeftmostFault` says which of these comes first, in terms of the text
alone: what stands before a fault is without fault.

`Convention.fault?` finds it by counting open parentheses from left to right.
Before a character is read, the count is that of the text so far, and the text
so far is faultless; `openAfter?_opened` is the step that keeps it so.

* `Convention.fault?_eq_none_iff` is for texts without fault;
* `Convention.fault?_eq_some_iff` is for the others.
-/

namespace Formulary.Convention

variable {convention : Convention}

/-- Whether every character fits somewhere and every closing parenthesis has one
to close; opening parentheses may be left open. -/
structure Faultless (convention : Convention) (cs : List Char) : Prop where
  defined : ∀ c ∈ cs, convention.classify c ≠ .undefined
  closes : ∀ front, front <+: cs → front.count ')' ≤ front.count '('

/-- Whether a text is without fault to its end. -/
structure Balanced (convention : Convention) (cs : List Char) : Prop where
  faultless : Faultless convention cs
  closed : cs.count '(' = cs.count ')'

/-- The first fault of a text from the left. -/
inductive LeftmostFault (convention : Convention) (cs : List Char) :
    CompileError → Prop where
  /-- The character `c` fits nowhere. -/
  | character {front : List Char} {c : Char} {rest : List Char}
      (split : cs = front ++ c :: rest)
      (before : Faultless convention front)
      (undefined : convention.classify c = .undefined) :
      LeftmostFault convention cs (.invalidCharacter c (byteLength front))
  /-- The parenthesis exceeds those that are open before it. -/
  | closing {front rest : List Char}
      (split : cs = front ++ ')' :: rest)
      (before : Faultless convention front)
      (exceeds : front.count '(' < front.count ')' + 1) :
      LeftmostFault convention cs (.unmatchedParentheses (byteLength front))
  /-- Nothing is wrong but a parenthesis that stays open. -/
  | opening (before : Faultless convention cs)
      (stays : cs.count ')' < cs.count '(') :
      LeftmostFault convention cs (.unmatchedParentheses (byteLength cs))

/-- The fault that a count of open parentheses meets first. -/
def fault? (convention : Convention) (position depth : Nat) :
    List Char → Option CompileError
  | [] => if depth = 0 then none else some (.unmatchedParentheses position)
  | c :: rest =>
    if convention.classify c = .undefined then
      some (.invalidCharacter c position)
    else
      match openAfter? depth c with
      | none => some (.unmatchedParentheses position)
      | some depth => convention.fault? (position + c.utf8Size) depth rest

/-- How many parentheses are open after the characters. -/
def opened (cs : List Char) : Nat :=
  cs.count '(' - cs.count ')'

/-- One character changes the count as it changes the number of parentheses that
are open, and fails where it closes one too many. -/
theorem openAfter?_opened {front : List Char} (c : Char)
    (h : front.count ')' ≤ front.count '(') :
    openAfter? (opened front) c =
      if c = ')' ∧ opened front = 0 then none
      else some (opened (front ++ [c])) := by
  simp only [openAfter?, opened, List.count_append, List.count_singleton]
  by_cases hopening : c = '('
  · simp [hopening, Nat.sub_add_comm h]
  · by_cases hclosing : c = ')'
    · simp [hclosing, Nat.sub_sub]
    · simp [hopening, hclosing]

namespace Faultless

theorem nil : Faultless convention [] := by
  refine ⟨by simp, ?_⟩
  intro front hfront
  rw [List.prefix_nil.mp hfront]
  exact Nat.le_refl _

/-- What a faultless text starts with is faultless. -/
theorem of_prefix {front cs : List Char} (h : Faultless convention cs)
    (hfront : front <+: cs) : Faultless convention front := by
  refine ⟨?_, ?_⟩
  · intro c hc
    exact h.defined c (hfront.subset hc)
  · intro start hstart
    exact h.closes start (hstart.trans hfront)

/-- One more character closes no more than is open, unless it is a closing
parenthesis and nothing is open. -/
private theorem closes_concat_iff {front : List Char} {c : Char}
    (h : front.count ')' ≤ front.count '(') :
    (front ++ [c]).count ')' ≤ (front ++ [c]).count '(' ↔
      ¬(c = ')' ∧ opened front = 0) := by
  by_cases hclosing : c = ')'
  · have hcloses : (front ++ [c]).count ')' = front.count ')' + 1 := by
      simp [hclosing]
    have hopens : (front ++ [c]).count '(' = front.count '(' := by
      simp [hclosing]
    rw [hcloses, hopens, opened]
    simp only [hclosing, true_and]
    omega
  · have hcloses : (front ++ [c]).count ')' = front.count ')' := by
      simp [hclosing]
    have hopens : front.count '(' ≤ (front ++ [c]).count '(' := by
      simp [List.count_append]
    simp only [hcloses, hclosing, false_and, not_false_eq_true, iff_true]
    exact Nat.le_trans h hopens

/-- A faultless text stays so with one more character if that is no fault. -/
theorem concat_iff {front : List Char} {c : Char} :
    Faultless convention (front ++ [c]) ↔
      Faultless convention front ∧ convention.classify c ≠ .undefined ∧
        ¬(c = ')' ∧ opened front = 0) := by
  constructor
  · intro h
    have hfront := h.of_prefix (List.prefix_append front [c])
    have hcloses := h.closes _ (List.prefix_refl _)
    rw [closes_concat_iff (hfront.closes _ (List.prefix_refl _))] at hcloses
    exact ⟨hfront, h.defined c (by simp), hcloses⟩
  · intro h
    obtain ⟨hfront, hdefined, hcloses⟩ := h
    refine ⟨?_, ?_⟩
    · intro x hx
      rcases List.mem_append.mp hx with hx | hx
      · exact hfront.defined x hx
      · rw [List.mem_singleton.mp hx]
        exact hdefined
    · intro start hstart
      rcases List.prefix_concat_iff.mp hstart with heq | hstart
      · rw [heq, closes_concat_iff (hfront.closes _ (List.prefix_refl _))]
        exact hcloses
      · exact hfront.closes start hstart

end Faultless

/-- One step over a character without fault. -/
private theorem fault?_step {front : List Char} {c : Char}
    (h : Faultless convention (front ++ [c])) (rest : List Char) :
    convention.fault? (byteLength front) (opened front) (c :: rest) =
      convention.fault? (byteLength (front ++ [c])) (opened (front ++ [c]))
        rest := by
  obtain ⟨hfront, hdefined, hclosing⟩ := Faultless.concat_iff.mp h
  have hopen := openAfter?_opened c (hfront.closes front (List.prefix_refl _))
  rw [if_neg hclosing] at hopen
  simp only [fault?, if_neg hdefined, hopen, byteLength_append, byteLength,
    Nat.add_zero]

/-- The count passes over a faultless stretch of text. -/
private theorem fault?_walk {front middle : List Char}
    (h : Faultless convention (front ++ middle)) (rest : List Char) :
    convention.fault? (byteLength front) (opened front) (middle ++ rest) =
      convention.fault? (byteLength (front ++ middle)) (opened (front ++ middle))
        rest := by
  induction middle generalizing front with
  | nil => rw [List.append_nil, List.nil_append]
  | cons c middle ih =>
    rw [List.append_cons front c middle] at h ⊢
    have hfront := h.of_prefix (List.prefix_append (front ++ [c]) middle)
    rw [List.cons_append, fault?_step hfront, ih h]

/-- After a faultless text the count goes on with its open parentheses. -/
theorem fault?_append {front : List Char} (h : Faultless convention front)
    (rest : List Char) :
    convention.fault? 0 0 (front ++ rest) =
      convention.fault? (byteLength front) (opened front) rest := by
  have hfront : Faultless convention ([] ++ front) := h
  exact fault?_walk hfront rest

/-- What the count finds is the leftmost fault, and where it finds none there is
none. -/
private theorem fault?_spec {front : List Char}
    (h : Faultless convention front) (rest : List Char) :
    match convention.fault? (byteLength front) (opened front) rest with
    | none => Balanced convention (front ++ rest)
    | some e => LeftmostFault convention (front ++ rest) e := by
  induction rest generalizing front with
  | nil =>
    have hle := h.closes front (List.prefix_refl _)
    rw [List.append_nil, fault?]
    by_cases hopened : opened front = 0
    · rw [if_pos hopened]
      rw [opened] at hopened
      exact ⟨h, by omega⟩
    · rw [if_neg hopened]
      rw [opened] at hopened
      exact .opening h (by omega)
  | cons c rest ih =>
    by_cases hundefined : convention.classify c = .undefined
    · rw [fault?, if_pos hundefined]
      exact .character rfl h hundefined
    by_cases hclosing : c = ')' ∧ opened front = 0
    · have hopen := openAfter?_opened c (h.closes front (List.prefix_refl _))
      rw [if_pos hclosing] at hopen
      simp only [fault?, if_neg hundefined, hopen]
      obtain ⟨rfl, hopened⟩ := hclosing
      rw [opened] at hopened
      exact .closing rfl h (by omega)
    · have hnext := Faultless.concat_iff.mpr ⟨h, hundefined, hclosing⟩
      have hspec := ih hnext
      rw [fault?_step hnext, List.append_cons front c rest]
      exact hspec

/-- **Texts without fault.** -/
theorem fault?_eq_none_iff {cs : List Char} :
    convention.fault? 0 0 cs = none ↔ Balanced convention cs := by
  constructor
  · intro h
    have hnil : Faultless convention [] := Faultless.nil
    have hspec := fault?_spec hnil cs
    rw [show convention.fault? (byteLength []) (opened []) cs = none from h]
      at hspec
    exact hspec
  · intro h
    have hwalk := fault?_append h.faultless []
    have hopened : opened cs = 0 := by
      rw [opened, h.closed, Nat.sub_self]
    rw [List.append_nil, fault?, if_pos hopened] at hwalk
    exact hwalk

/-- **Texts with a fault.**  The fault that the count finds is the leftmost. -/
theorem fault?_eq_some_iff {cs : List Char} {e : CompileError} :
    convention.fault? 0 0 cs = some e ↔ LeftmostFault convention cs e := by
  constructor
  · intro h
    have hnil : Faultless convention [] := Faultless.nil
    have hspec := fault?_spec hnil cs
    rw [show convention.fault? (byteLength []) (opened []) cs = some e from h]
      at hspec
    exact hspec
  · intro h
    cases h with
    | character split before undefined =>
      rw [split, fault?_append before, fault?, if_pos undefined]
    | closing split before exceeds =>
      have hdefined : convention.classify ')' ≠ .undefined := by
        rw [ne_eq, classify_eq_undefined_iff]
        intro h
        exact h.2.2.2 (by decide)
      have hopened : opened _ = 0 := Nat.sub_eq_zero_of_le
        (Nat.le_of_lt_succ exceeds)
      have hopen := openAfter?_opened ')' (before.closes _ (List.prefix_refl _))
      rw [if_pos ⟨rfl, hopened⟩] at hopen
      rw [split, fault?_append before]
      simp only [fault?, if_neg hdefined, hopen]
    | opening before stays =>
      have hwalk := fault?_append before []
      have hopened : opened cs ≠ 0 := by
        rw [opened]
        omega
      rw [List.append_nil, fault?, if_neg hopened] at hwalk
      exact hwalk

/-- No fault is reported at the end of the text but a parenthesis that stays
open. -/
theorem leftmostFault_end_iff {cs : List Char} :
    LeftmostFault convention cs (.unmatchedParentheses (byteLength cs)) ↔
      Faultless convention cs ∧ cs.count ')' < cs.count '(' := by
  constructor
  · intro h
    generalize hposition : byteLength cs = position at h
    cases h with
    | closing split before exceeds =>
      have hsize := (')' : Char).utf8Size_pos
      rw [split, byteLength_append, byteLength] at hposition
      omega
    | opening before stays => exact ⟨before, stays⟩
  · intro h
    exact .opening h.1 h.2

/-- Characters that are no fault and no parentheses change nothing. -/
theorem fault?_quiet {run : List Char} (h : ∀ c ∈ run, Quiet convention c)
    (position depth : Nat) (rest : List Char) :
    convention.fault? position depth (run ++ rest) =
      convention.fault? (position + byteLength run) depth rest := by
  induction run generalizing position with
  | nil => rfl
  | cons c run ih =>
    have hc := h c List.mem_cons_self
    have hopen : openAfter? depth c = some depth := by
      rw [openAfter?, if_neg hc.not_opening, if_neg hc.not_closing]
    rw [List.cons_append, fault?, if_neg hc.defined]
    simp only [hopen, byteLength]
    rw [ih fun x hx => h x (List.mem_cons_of_mem _ hx), Nat.add_assoc]

end Formulary.Convention
