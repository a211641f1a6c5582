import AdjacencyForest.Store.Like
import Mathlib.Data.List.Forall2

/-!
# What a pattern matches

The matcher of patterns goes back and forth in a text. What it finds is what the pattern says: `%`
stands for any stretch of text, `_` for any character, and every other character for itself without
its case. So a pattern with a term between two `%` finds the texts with a stretch that the term fits.
These are the texts that hold the term as it stands if all its characters stand for themselves, and
only then.

Main statements: `isMatch_iff_fits`; `fits_around_iff`, a term between two `%`;
`holds_iff_exists_fits`, terms of characters that stand for themselves; `isLiteral_of_holds_specimen`,
any other term fits a text that does not hold it.
-/

namespace AdjacencyForest.Like

variable {pattern others term text : List Char} {p c : Char}

/-- What a character of a pattern stands for. -/
def Stands (p : Char) (stretch : List Char) : Prop :=
  p = '%' ∨ ∃ c, stretch = [c] ∧ (p = '_' ∨ fold p = fold c)

/-- The text is made of stretches that the characters of the pattern stand for. -/
def Fits (pattern text : List Char) : Prop :=
  ∃ stretches, List.Forall₂ Stands pattern stretches ∧ stretches.flatten = text

theorem fits_nil_iff : Fits [] text ↔ text = [] := by
  constructor
  · rintro ⟨_, ⟨⟩, rfl⟩
    rfl
  · rintro rfl
    exact ⟨[], .nil, rfl⟩

theorem fits_cons_iff : Fits (p :: pattern) text ↔
    ∃ first rest, first ++ rest = text ∧ Stands p first ∧ Fits pattern rest := by
  constructor
  · rintro ⟨_, stands, rfl⟩
    obtain ⟨first, stretches, here, others, rfl⟩ := List.forall₂_cons_left_iff.mp stands
    exact ⟨first, _, rfl, here, stretches, others, rfl⟩
  · rintro ⟨first, _, rfl, stands, stretches, others, rfl⟩
    exact ⟨first :: stretches, .cons stands others, rfl⟩

theorem fits_percent_iff : Fits ('%' :: pattern) text ↔
    ∃ first rest, first ++ rest = text ∧ Fits pattern rest := by
  simp only [fits_cons_iff, Stands, true_or, true_and]

theorem fits_one_iff (proper : p ≠ '%') : Fits (p :: pattern) text ↔
    ∃ c rest, c :: rest = text ∧ (p = '_' ∨ fold p = fold c) ∧ Fits pattern rest := by
  rw [fits_cons_iff]
  constructor
  · rintro ⟨_, rest, rfl, percent | ⟨c, rfl, same⟩, fits⟩
    · exact absurd percent proper
    · exact ⟨c, rest, rfl, same, fits⟩
  · rintro ⟨c, rest, rfl, same, fits⟩
    exact ⟨[c], rest, rfl, .inr ⟨c, rfl, same⟩, fits⟩

/-- Where the matcher tries both, one of them fits. -/
theorem fits_percent_cons_iff : Fits ('%' :: pattern) (c :: text) ↔
    Fits pattern (c :: text) ∨ Fits ('%' :: pattern) text := by
  rw [fits_percent_iff, fits_percent_iff]
  constructor
  · rintro ⟨first, rest, split, fits⟩
    cases first with
    | nil => exact .inl (split ▸ fits)
    | cons d first =>
      obtain ⟨-, rfl⟩ := List.cons.inj split
      exact .inr ⟨first, rest, rfl, fits⟩
  · rintro (fits | ⟨first, rest, rfl, fits⟩)
    · exact ⟨[], _, rfl, fits⟩
    · exact ⟨c :: first, rest, rfl, fits⟩

theorem isMatch_iff_fits : isMatch pattern text = true ↔ Fits pattern text := by
  fun_induction isMatch pattern text with
  | case1 text => rw [fits_nil_iff, List.isEmpty_iff]
  | case2 pattern ih =>
    rw [ih, fits_percent_iff]
    constructor
    · exact fun fits => ⟨[], [], rfl, fits⟩
    · rintro ⟨first, rest, split, fits⟩
      obtain ⟨-, rfl⟩ := List.append_eq_nil_iff.mp split
      exact fits
  | case3 pattern c text here later =>
    rw [Bool.or_eq_true, here, later, fits_percent_cons_iff]
  | case4 p pattern proper =>
    refine iff_of_false Bool.false_ne_true fun fits => ?_
    obtain ⟨c, rest, impossible, -⟩ := (fits_one_iff proper).mp fits
    cases impossible
  | case5 p pattern c text proper ih =>
    rw [Bool.and_eq_true, Bool.or_eq_true, beq_iff_eq, beq_iff_eq, ih, fits_one_iff proper]
    constructor
    · exact fun ⟨same, fits⟩ => ⟨c, text, rfl, same, fits⟩
    · rintro ⟨_, _, ⟨⟩, same, fits⟩
      exact ⟨same, fits⟩

theorem fits_append_iff : Fits (pattern ++ others) text ↔
    ∃ before after, before ++ after = text ∧ Fits pattern before ∧ Fits others after := by
  constructor
  · rintro ⟨stretches, stands, rfl⟩
    have first := List.forall₂_take pattern.length stands
    have second := List.forall₂_drop pattern.length stands
    rw [List.take_left] at first
    rw [List.drop_left] at second
    refine ⟨_, _, ?_, ⟨_, first, rfl⟩, ⟨_, second, rfl⟩⟩
    rw [← List.flatten_append, List.take_append_drop]
  · rintro ⟨_, _, rfl, ⟨first, stands, rfl⟩, ⟨second, others, rfl⟩⟩
    exact ⟨first ++ second, List.rel_append stands others, List.flatten_append⟩

theorem fits_percent (text : List Char) : Fits ['%'] text := isMatch_iff_fits.mp (isMatch_percent text)

/-- A term between two `%` fits where the term fits some stretch of the text. -/
theorem fits_around_iff : Fits ('%' :: (term ++ ['%'])) text ↔
    ∃ before inner after, before ++ (inner ++ after) = text ∧ Fits term inner := by
  rw [fits_percent_iff]
  constructor
  · rintro ⟨before, rest, rfl, fits⟩
    obtain ⟨inner, after, rfl, first, -⟩ := fits_append_iff.mp fits
    exact ⟨before, inner, after, rfl, first⟩
  · rintro ⟨before, inner, after, rfl, fits⟩
    exact ⟨before, _, rfl, fits_append_iff.mpr ⟨inner, after, rfl, fits, fits_percent after⟩⟩

/-! ## Terms without special characters -/

/-- The text holds the term as it stands, ASCII letters without regard to case. -/
def Holds (term text : List Char) : Prop := term.map fold <:+: text.map fold

/-- Every character stands for itself. -/
def IsLiteral (term : List Char) : Prop := '%' ∉ term ∧ '_' ∉ term

theorem fits_iff_of_isLiteral (literal : IsLiteral term) :
    Fits term text ↔ term.map fold = text.map fold := by
  induction term generalizing text with
  | nil => rw [fits_nil_iff, List.map_nil, eq_comm (a := []), List.map_eq_nil_iff]
  | cons p term ih =>
    obtain ⟨proper, plain⟩ := literal
    have rest : IsLiteral term :=
      ⟨fun member => proper (.tail _ member), fun member => plain (.tail _ member)⟩
    have first : p ≠ '%' := fun same => proper (same ▸ .head _)
    have other : p ≠ '_' := fun same => plain (same ▸ .head _)
    rw [fits_one_iff first]
    cases text with
    | nil => simp
    | cons c text => simp [ih rest, other]

theorem holds_iff_exists_fits (literal : IsLiteral term) : Holds term text ↔
    ∃ before inner after, before ++ (inner ++ after) = text ∧ Fits term inner := by
  constructor
  · rintro ⟨before, after, split⟩
    rw [List.append_assoc] at split
    obtain ⟨first, rest, rfl, -, inner⟩ := List.map_eq_append_iff.mp split.symm
    obtain ⟨stretch, last, rfl, same, -⟩ := List.map_eq_append_iff.mp inner
    exact ⟨first, stretch, last, rfl, (fits_iff_of_isLiteral literal).mpr same.symm⟩
  · rintro ⟨before, inner, after, rfl, fits⟩
    refine ⟨before.map fold, after.map fold, ?_⟩
    rw [(fits_iff_of_isLiteral literal).mp fits, List.map_append, List.map_append, List.append_assoc]

/-! ## Terms with special characters -/

/-- The least text that fits, with a letter for each `_`. -/
def specimen (pattern : List Char) : List Char :=
  (pattern.filter (· != '%')).map fun p => if p = '_' then 'x' else p

theorem fits_specimen (pattern : List Char) : Fits pattern (specimen pattern) := by
  induction pattern with
  | nil => exact fits_nil_iff.mpr rfl
  | cons p pattern ih =>
    by_cases percent : p = '%'
    · subst percent
      exact fits_percent_iff.mpr ⟨[], _, rfl, ih⟩
    · have rest : specimen (p :: pattern) =
          (if p = '_' then 'x' else p) :: specimen pattern := by
        simp [specimen, percent]
      refine (fits_one_iff percent).mpr ⟨_, _, rest.symm, ?_, ih⟩
      by_cases any : p = '_'
      · exact .inl any
      · exact .inr (by rw [if_neg any])

theorem eq_or_mem_of_mem_specimen (member : c ∈ specimen pattern) : c = 'x' ∨ c ∈ pattern := by
  obtain ⟨p, kept, rfl⟩ := List.mem_map.mp member
  split
  · exact .inl rfl
  · exact .inr (List.mem_filter.mp kept).1

/-- Only letters have a case. -/
theorem fold_eq_or (c : Char) : fold c = c ∨ ('a' ≤ fold c ∧ fold c ≤ 'z') := by
  unfold fold Char.toLower
  split
  next upper =>
    have low : 65 ≤ c.val.toNat := UInt32.le_iff_toNat_le.mp upper.1
    have high : c.val.toNat ≤ 90 := UInt32.le_iff_toNat_le.mp upper.2
    have shifted : (c.val + ('a'.val - 'A'.val)).toNat = c.val.toNat + 32 := by
      have distance : ('a'.val - 'A'.val).toNat = 32 := rfl
      rw [UInt32.toNat_add, distance]
      omega
    have first : 'a'.val.toNat = 97 := rfl
    have last : 'z'.val.toNat = 122 := rfl
    refine .inr ?_
    simp only [Char.le_def, UInt32.le_iff_toNat_le, shifted, first, last]
    omega
  next => exact .inl rfl

/-- A character that is no small letter comes from itself alone. -/
theorem eq_of_fold_eq {p c : Char} (same : fold p = c) (caseless : ¬ ('a' ≤ c ∧ c ≤ 'z')) : p = c := by
  subst same
  exact ((fold_eq_or p).resolve_right caseless).symm

/-- A text without letters holds a term just as it is. -/
theorem holds_iff_of_caseless (caseless : ∀ c ∈ text, fold c = c ∧ ¬ ('a' ≤ c ∧ c ≤ 'z')) :
    Holds term text ↔ term <:+: text := by
  have own : text.map fold = text :=
    (List.map_congr_left fun c member => (caseless c member).1).trans (List.map_id' text)
  unfold Holds
  rw [own]
  constructor
  · intro holds
    have same : term.map fold = term := by
      refine (List.map_congr_left fun p member => ?_).trans (List.map_id' term)
      have inside := holds.subset (List.mem_map_of_mem member)
      exact (eq_of_fold_eq rfl (caseless _ inside).2).symm
    rwa [same] at holds
  · intro stands
    have holds := stands.map fold
    rwa [own] at holds

/-- No term is found just where it stands unless all its characters stand for themselves: what is made
of the term's beginning is as long as the term only if that is the whole term and nothing is left out. -/
theorem isLiteral_of_holds_specimen (beginning : pattern <+: term)
    (holds : Holds term (specimen pattern)) : pattern = term ∧ IsLiteral term := by
  have long : term.length ≤ (pattern.filter (· != '%')).length := by
    simpa [specimen] using holds.length_le
  have shorter := List.length_filter_le (· != '%') pattern
  obtain rfl : pattern = term := beginning.eq_of_length_le (Nat.le_trans long shorter)
  have proper : ∀ p ∈ pattern, (p != '%') = true :=
    List.length_filter_eq_length_iff.mp (Nat.le_antisymm shorter long)
  have whole : specimen pattern = pattern.map fun p => if p = '_' then 'x' else p := by
    rw [specimen, List.filter_eq_self.mpr proper]
  have same : pattern.map fold = (specimen pattern).map fold := by
    refine holds.eq_of_length ?_
    rw [whole, List.length_map, List.length_map, List.length_map]
  refine ⟨rfl, fun member => ?_, fun member => ?_⟩
  · exact bne_iff_ne.mp (proper _ member) rfl
  · obtain ⟨c, stands, folded⟩ : ∃ c ∈ specimen pattern, fold c = '_' :=
      List.mem_map.mp (same ▸ List.mem_map_of_mem member)
    obtain rfl := eq_of_fold_eq folded (by decide)
    rw [whole] at stands
    obtain ⟨p, -, other⟩ := List.mem_map.mp stands
    split at other
    · cases other
    next different => exact different other

end AdjacencyForest.Like
