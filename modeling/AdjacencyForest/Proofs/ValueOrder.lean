import AdjacencyForest.Store.Value
import Mathlib.Algebra.Order.Field.Rat
import Mathlib.Data.Prod.Lex
import Mathlib.Data.String.Basic
import Mathlib.Order.WithBot
import Mathlib.Tactic.FieldSimp
import Mathlib.Tactic.Positivity

/-!
# The order of stored values

Numbers are compared by what they stand for, whether they are integers or not, and a number that is
none is equal to every other. Without that one the order of stored values is that of their places: by
kind, then by number, then by text.

Main statements: `Binary64.compare?_eq` and `Binary64.compareInt?_eq` for numbers,
`Value.compareWith_eq` for all values.
-/

namespace AdjacencyForest

namespace Binary64

/-- Where a number stands among the rational numbers and the two infinities. -/
def place : Binary64 → WithBot (WithTop ℚ)
  | .finite n a e => (((signedRatio n a e).1 / (signedRatio n a e).2 : ℚ) : WithTop ℚ)
  | .infinite true => ⊥
  | .infinite false => ((⊤ : WithTop ℚ) : WithBot (WithTop ℚ))
  | .nan => ((0 : ℚ) : WithTop ℚ)

/-- Where an integer stands among the numbers. -/
def placeOfInt (i : Int) : WithBot (WithTop ℚ) := ((i : ℚ) : WithTop ℚ)

theorem signedRatio_snd_pos (negative : Bool) (mantissa : Nat) (exponent : Int) :
    0 < (signedRatio negative mantissa exponent).2 := by
  unfold signedRatio magnitudeRatio
  split
  · exact Nat.one_pos
  · exact Nat.pow_pos (by decide)

theorem lt_top_of_coe (q : ℚ) : (((q : ℚ) : WithTop ℚ) : WithBot (WithTop ℚ)) < (⊤ : WithTop ℚ) :=
  WithBot.coe_lt_coe.mpr (WithTop.coe_lt_top q)

theorem compare_coe (p q : ℚ) :
    compare (((p : ℚ) : WithTop ℚ) : WithBot (WithTop ℚ)) ((q : WithTop ℚ) : WithBot (WithTop ℚ)) =
      compare p q := by
  rcases lt_trichotomy p q with less | rfl | greater
  · rw [compare_lt_iff_lt.mpr less, compare_lt_iff_lt]
    simpa using less
  · simp
  · rw [compare_gt_iff_gt.mpr greater, compare_gt_iff_gt]
    simpa using greater

theorem compare_crosswise {a b : Int} {c d : Nat} (left : 0 < c) (right : 0 < d) :
    compare (a * d) (b * c) = compare (a / c : ℚ) (b / d : ℚ) := by
  have leftQ : (0 : ℚ) < c := by exact_mod_cast left
  have rightQ : (0 : ℚ) < d := by exact_mod_cast right
  rcases lt_trichotomy (a * d) (b * c) with less | same | greater
  · rw [compare_lt_iff_lt.mpr less, eq_comm, compare_lt_iff_lt, div_lt_div_iff₀ leftQ rightQ]
    exact_mod_cast less
  · rw [compare_eq_iff_eq.mpr same, eq_comm, compare_eq_iff_eq,
      div_eq_div_iff leftQ.ne' rightQ.ne']
    exact_mod_cast same
  · rw [compare_gt_iff_gt.mpr greater, eq_comm, compare_gt_iff_gt, div_lt_div_iff₀ rightQ leftQ]
    exact_mod_cast greater

theorem compare?_eq {x y : Binary64} (number : x ≠ .nan) (otherNumber : y ≠ .nan) :
    x.compare? y = some (compare x.place y.place) := by
  cases x with
  | nan => exact absurd rfl number
  | infinite n =>
    cases y with
    | nan => exact absurd rfl otherNumber
    | infinite m => cases n <;> cases m <;> rfl
    | finite m b f =>
      cases n
      · exact congrArg some (compare_gt_iff_gt.mpr (lt_top_of_coe _)).symm
      · exact congrArg some (compare_lt_iff_lt.mpr (WithBot.bot_lt_coe _)).symm
  | finite n a e =>
    cases y with
    | nan => exact absurd rfl otherNumber
    | infinite m =>
      cases m
      · exact congrArg some (compare_lt_iff_lt.mpr (lt_top_of_coe _)).symm
      · exact congrArg some (compare_gt_iff_gt.mpr (WithBot.bot_lt_coe _)).symm
    | finite m b f =>
      rw [place, place, compare_coe,
        ← compare_crosswise (signedRatio_snd_pos n a e) (signedRatio_snd_pos m b f)]
      rfl

theorem compareInt?_eq {x : Binary64} (number : x ≠ .nan) (i : Int) :
    x.compareInt? i = some (compare x.place (placeOfInt i)) := by
  cases x with
  | nan => exact absurd rfl number
  | infinite n =>
    cases n
    · exact congrArg some (compare_gt_iff_gt.mpr (lt_top_of_coe _)).symm
    · exact congrArg some (compare_lt_iff_lt.mpr (WithBot.bot_lt_coe _)).symm
  | finite n a e =>
    have crosswise := @compare_crosswise (signedRatio n a e).1 i _ 1 (signedRatio_snd_pos n a e)
      Nat.one_pos
    rw [Nat.cast_one, Nat.cast_one, Int.mul_one, div_one] at crosswise
    rw [place, placeOfInt, compare_coe, ← crosswise]
    rfl

theorem compare_placeOfInt (i j : Int) : compare (placeOfInt i) (placeOfInt j) = compare i j := by
  have crosswise := @compare_crosswise i j 1 1 Nat.one_pos Nat.one_pos
  rw [Nat.cast_one, Nat.cast_one, Int.mul_one, Int.mul_one, div_one, div_one] at crosswise
  rw [placeOfInt, placeOfInt, compare_coe, crosswise]

end Binary64

namespace Value

/-- The value is none that is not a number. -/
def IsOrdered (value : Value) : Prop := value ≠ .real .nan

/-- The number of a value; null and texts have the least place. -/
def number : Value → WithBot (WithTop ℚ)
  | .int i => Binary64.placeOfInt i
  | .real x => x.place
  | .null | .text _ => ⊥

/-- The characters of a text; what is no text has none. -/
def written : Value → String
  | .text s => s
  | _ => ""

/-- The place of a value among all values: by kind, then by number, then by text. -/
def place (value : Value) : ℕ ×ₗ WithBot (WithTop ℚ) ×ₗ String :=
  toLex (value.rank, toLex (value.number, value.written))

variable {a b c : Value}

theorem compareText_eq (s t : String) : compareText s t = compare s t := by
  rw [compareText]
  split
  next less => exact (compare_lt_iff_lt.mpr less).symm
  next least =>
    split
    next same => exact (compare_eq_iff_eq.mpr same).symm
    next different =>
      exact (compare_gt_iff_gt.mpr (lt_of_le_of_ne (not_lt.mp least) (Ne.symm different))).symm

theorem compare_place (a b : Value) : compare a.place b.place =
    ((compare a.rank b.rank).then ((compare a.number b.number).then
      (compare a.written b.written))) := by
  unfold place
  simp only [Prod.Lex.compare_def, compareLex, compareOn, ofLex_toLex]

theorem compare_place_of_rank (different : a.rank ≠ b.rank) :
    compare a.place b.place = compare a.rank b.rank := by
  rw [compare_place]
  rcases lt_or_gt_of_ne different with less | greater
  · rw [compare_lt_iff_lt.mpr less]
    rfl
  · rw [compare_gt_iff_gt.mpr greater]
    rfl

/-- The order of values is that of their places, but for the number that is none. -/
theorem compareWith_eq (ordered : a.IsOrdered) (otherOrdered : b.IsOrdered) :
    a.compareWith b = compare a.place b.place := by
  -- Kinds of values are ordered first. Within one kind the places are numbers or texts.
  by_cases different : a.rank ≠ b.rank
  · rw [compare_place_of_rank different]
    cases a <;> cases b <;> first | rfl | exact absurd rfl different
  · rw [compare_place, not_not.mp different]
    cases a with
    | null => cases b <;> simp_all [compareWith, rank, number, written]
    | text s => cases b <;> simp_all [compareWith, rank, number, written, compareText_eq]
    | int i =>
      cases b with
      | int j => simp [compareWith, rank, number, written, Binary64.compare_placeOfInt]
      | real y =>
        have isNumber : y ≠ .nan := fun none => otherOrdered (none ▸ rfl)
        have swapped : (compare y.place (Binary64.placeOfInt i)).swap =
            compare (Binary64.placeOfInt i) y.place := (Std.OrientedCmp.eq_swap).symm
        simp [compareWith, rank, number, written, Binary64.compareInt?_eq isNumber, swapped]
      | null | text => simp [rank] at different
    | real x =>
      have isNumber : x ≠ .nan := fun none => ordered (none ▸ rfl)
      cases b with
      | int j => simp [compareWith, rank, number, written, Binary64.compareInt?_eq isNumber]
      | real y =>
        have otherNumber : y ≠ .nan := fun none => otherOrdered (none ▸ rfl)
        simp [compareWith, rank, number, written, Binary64.compare?_eq isNumber otherNumber]
      | null | text => simp [rank] at different

theorem compareWith_null (given : a ≠ .null) : Value.null.compareWith a = .lt := by
  cases a <;> first | exact absurd rfl given | rfl

end Value
end AdjacencyForest
