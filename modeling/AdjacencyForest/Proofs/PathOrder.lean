import AdjacencyForest.Proofs.Evaluation

/-!
# The order of paths

Paths whose keys are integers, sorted as texts, stand in the order of a tree: with a separator that
is less than every digit, a path comes before those that continue it, and two paths that part at some
key are told apart by the texts of their keys there.

Main statements: `intercalate_lt_append` and `intercalate_lt_of_lt`.
-/

namespace AdjacencyForest

/-- The characters of a number: at least one, and from the second on none less than `0`. -/
structure IsNumeral (text : List Char) : Prop where
  ne_nil : text ≠ []
  digits : ∀ c ∈ text.tail, '0' ≤ c

section Texts

variable {a b u v : List Char}

theorem append_lt_append_of_digits (digits : ∀ c ∈ b, '0' ≤ c) (low : ∀ c ∈ u.head?, c < '0')
    (less : a < b) : a ++ u < b ++ v := by
  induction a generalizing b with
  | nil =>
    cases b with
    | nil => exact absurd less (List.not_lt_nil _)
    | cons d b =>
      cases u with
      | nil => exact List.nil_lt_cons d _
      | cons c u =>
        exact List.cons_lt_cons_iff.mpr (.inl (Std.lt_of_lt_of_le (low c rfl) (digits d (by simp))))
  | cons c a ih =>
    cases b with
    | nil => exact absurd less (List.not_lt_nil _)
    | cons d b =>
      refine List.cons_lt_cons_iff.mpr ((List.cons_lt_cons_iff.mp less).imp_right ?_)
      exact fun ⟨same, later⟩ => ⟨same, ih (fun e member => digits e (by simp [member])) later⟩

/-- What comes after a number does not undo its order, as long as it begins with less than a digit. -/
theorem append_lt_append_of_lt (nonempty : a ≠ []) (numeral : IsNumeral b)
    (low : ∀ c ∈ u.head?, c < '0') (less : a < b) : a ++ u < b ++ v := by
  obtain ⟨c, a, rfl⟩ := List.exists_cons_of_ne_nil nonempty
  obtain ⟨d, b, rfl⟩ := List.exists_cons_of_ne_nil numeral.ne_nil
  refine List.cons_lt_cons_iff.mpr ((List.cons_lt_cons_iff.mp less).imp_right ?_)
  exact fun ⟨same, later⟩ => ⟨same, append_lt_append_of_digits numeral.digits low later⟩

end Texts

/-! ## Numbers -/

theorem zero_le_of_mem_decimalDigits {n : Nat} {c : Char} (member : c ∈ Text.decimalDigits n) :
    '0' ≤ c := by
  have digit := Nat.isDigit_of_mem_toDigits (by decide) (by decide) member
  simp only [Char.isDigit, Bool.and_eq_true, decide_eq_true_eq] at digit
  exact digit.1

theorem decimalDigits_injective : Function.Injective Text.decimalDigits := by
  intro n m same
  rw [← @Nat.ofDigitChars_ten_toDigits n, ← @Nat.ofDigitChars_ten_toDigits m]
  exact congrArg (Nat.ofDigitChars 10 · 0) same

theorem toList_writeInteger_of_neg {i : Int} (negative : i < 0) :
    (writeInteger i).toList = '-' :: Text.decimalDigits i.natAbs := by
  simp [writeInteger, negative]

theorem toList_writeInteger_of_nonneg {i : Int} (positive : ¬ i < 0) :
    (writeInteger i).toList = Text.decimalDigits i.natAbs := by
  simp [writeInteger, positive]

theorem isNumeral_writeInteger (i : Int) : IsNumeral (writeInteger i).toList := by
  by_cases negative : i < 0
  · rw [toList_writeInteger_of_neg negative]
    exact ⟨List.cons_ne_nil _ _, fun c member => zero_le_of_mem_decimalDigits member⟩
  · rw [toList_writeInteger_of_nonneg negative]
    exact ⟨Nat.toDigits_ne_nil, fun c member =>
      zero_le_of_mem_decimalDigits (List.mem_of_mem_tail member)⟩

theorem decimalDigits_ne_minus (n : Nat) (text : List Char) : Text.decimalDigits n ≠ '-' :: text := by
  intro same
  have digit : '0' ≤ '-' := zero_le_of_mem_decimalDigits (same ▸ List.mem_cons_self)
  exact absurd digit (by decide)

theorem writeInteger_injective : Function.Injective writeInteger := by
  intro i j same
  have texts := congrArg String.toList same
  by_cases negative : i < 0 <;> by_cases otherNegative : j < 0
  · rw [toList_writeInteger_of_neg negative, toList_writeInteger_of_neg otherNegative] at texts
    have magnitude := decimalDigits_injective (List.cons.inj texts).2
    omega
  · rw [toList_writeInteger_of_neg negative, toList_writeInteger_of_nonneg otherNegative] at texts
    exact absurd texts.symm (decimalDigits_ne_minus _ _)
  · rw [toList_writeInteger_of_nonneg negative, toList_writeInteger_of_neg otherNegative] at texts
    exact absurd texts (decimalDigits_ne_minus _ _)
  · rw [toList_writeInteger_of_nonneg negative,
      toList_writeInteger_of_nonneg otherNegative] at texts
    have magnitude := decimalDigits_injective texts
    omega

/-! ## Paths -/

/-- The separator is one character, less than every digit. -/
def IsLowSeparator (separator : String) : Prop :=
  ∃ c, separator = String.singleton c ∧ c < '0'

section Paths

variable {separator s t : String} {before after u v : List String}

theorem text_lt_iff : s < t ↔ s.toList < t.toList := Iff.rfl

theorem intercalate_lt_append (low : IsLowSeparator separator) (beforeNonempty : before ≠ [])
    (nonempty : after ≠ []) :
    separator.intercalate before < separator.intercalate (before ++ after) := by
  obtain ⟨c, rfl, -⟩ := low
  rw [String.intercalate_append_of_ne_nil beforeNonempty nonempty, text_lt_iff, String.toList_append,
    String.toList_append, List.append_assoc]
  generalize ((String.singleton c).intercalate before).toList = text
  have longer : text ++ [] < text ++ c :: ((String.singleton c).intercalate after).toList :=
    List.append_left_lt (List.nil_lt_cons _ _)
  simpa using longer

/-- A path is the text of its first key and what begins with a separator, if anything. -/
theorem exists_intercalate_cons (low : IsLowSeparator separator) (s : String) (u : List String) :
    ∃ rest : List Char, (separator.intercalate (s :: u)).toList = s.toList ++ rest ∧
      ∀ c ∈ rest.head?, c < '0' := by
  obtain ⟨c, rfl, less⟩ := low
  cases u with
  | nil => exact ⟨[], by simp, by simp⟩
  | cons t u =>
    refine ⟨c :: ((String.singleton c).intercalate (t :: u)).toList, ?_, by simpa using less⟩
    rw [String.intercalate_cons_cons]
    simp

theorem intercalate_lt_of_lt (low : IsLowSeparator separator) (numeral : IsNumeral s.toList)
    (otherNumeral : IsNumeral t.toList) (less : s < t) :
    separator.intercalate (before ++ s :: u) < separator.intercalate (before ++ t :: v) := by
  obtain ⟨rest, shape, small⟩ := exists_intercalate_cons low s u
  obtain ⟨otherRest, otherShape, -⟩ := exists_intercalate_cons low t v
  have parted : separator.intercalate (s :: u) < separator.intercalate (t :: v) := by
    rw [text_lt_iff, shape, otherShape]
    exact append_lt_append_of_lt numeral.ne_nil otherNumeral small (text_lt_iff.mp less)
  cases before with
  | nil => exact parted
  | cons first before =>
    have appended (w : List String) (nonempty : w ≠ []) :=
      String.intercalate_append_of_ne_nil (s := separator) (List.cons_ne_nil first before) nonempty
    rw [appended _ (List.cons_ne_nil _ _), appended _ (List.cons_ne_nil _ _), text_lt_iff]
    simp only [String.toList_append]
    exact List.append_left_lt (text_lt_iff.mp parted)

end Paths

end AdjacencyForest
