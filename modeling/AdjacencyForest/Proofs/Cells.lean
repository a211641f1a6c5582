import AdjacencyForest.Proofs.Numerals
import AdjacencyForest.Service.Columns

/-!
# Keys in cells

A workbook holds numbers only, so a key becomes one when it is written and is an integer again when it
is read. Keys of at most 53 bits come back as they were. A path of keys is a text that can be written.

Main statements: `read_ofInt`, a key is read from its cell; `toInt?_ofInt`, a number that stands for a
key is the key; `writable_intercalate`, the characters of a path.
-/

namespace AdjacencyForest

namespace Binary64

variable {negative : Bool} {mantissa n : Nat} {exponent i : Int}

theorem toInt?_of_whole (whole : (mantissa * 2 ^ exponent : ℚ) = n) :
    (finite negative mantissa exponent).toInt? = some (signed negative n) := by
  have positive := magnitudeRatio_snd_pos mantissa exponent
  have ratio := (magnitudeRatio_ratio mantissa exponent).trans whole
  unfold toInt? signedRatio
  dsimp only
  generalize magnitudeRatio mantissa exponent = pair at positive ratio
  have denominator : (pair.2 : ℚ) ≠ 0 := by exact_mod_cast positive.ne'
  have numerator : pair.1 = n * pair.2 := by exact_mod_cast (div_eq_iff denominator).mp ratio
  have signedNumerator : (if negative = true then -(pair.1 : Int) else pair.1) =
      signed negative n * pair.2 := by
    rw [numerator]
    cases negative <;> simp [signed]
  have nonzero : (pair.2 : Int) ≠ 0 := by exact_mod_cast positive.ne'
  rw [signedNumerator, Int.mul_emod_left, if_pos rfl, Int.mul_ediv_cancel _ nonzero]

/-- A key that a number can hold. -/
structure IsSmall (i : Int) : Prop where
  nonzero : i ≠ 0
  small : i.natAbs ≤ 2 ^ 53

theorem IsSmall.exists_ofInt (small : IsSmall i) : ∃ mantissa exponent,
    ofInt i = .finite (decide (i < 0)) mantissa exponent ∧ 0 < mantissa ∧
      (mantissa * 2 ^ exponent : ℚ) = i.natAbs :=
  exists_ofRatio_whole _ (Int.natAbs_pos.mpr small.nonzero) small.small

theorem toInt?_ofInt (small : IsSmall i) : (ofInt i).toInt? = some i := by
  obtain ⟨mantissa, exponent, same, -, whole⟩ := small.exists_ofInt
  rw [same, toInt?_of_whole whole, Json.signed_natAbs]

theorem isFinite_ofInt (small : IsSmall i) : (ofInt i).isFinite = true := by
  obtain ⟨mantissa, exponent, same, -⟩ := small.exists_ofInt
  rw [same]
  rfl

theorem IsSmall.fits (small : IsSmall i) : fitsInt64 i = true := by
  have bound := small.small
  simp only [fitsInt64_iff]
  omega

end Binary64

namespace Service.Cell

open Binary64

variable {i : Int}

theorem numberOfText?_write (small : IsSmall i) :
    Value.numberOfText? (NumberLayout.cell.write (ofInt i)) = some (.int i) := by
  obtain ⟨mantissa, exponent, same, positive, whole⟩ := small.exists_ofInt
  have bound : i.natAbs < 10 ^ 16 := small.small.trans_lt (by decide)
  obtain ⟨digits, nonempty, value⟩ :=
    magnitude_cell_of_whole (Int.natAbs_pos.mpr small.nonzero) whole bound
  have text : NumberLayout.cell.write (ofInt i) = String.ofList
      (Json.signChars (decide (i < 0)) ++ NumberLayout.cell.magnitude mantissa exponent) := by
    rw [same, NumberLayout.write]
    simp [NumberLayout.cell, Json.signChars]
  have integer : signed (decide (i < 0)) (Text.ofDigits (NumberLayout.cell.magnitude mantissa exponent)) =
      i := by rw [value, Json.signed_natAbs]
  rw [text, Json.numberOfText?_digits digits nonempty (by rw [integer]; exact small.fits), integer]

theorem read_ofInt (small : IsSmall i) : (number (.ofInt i)).read = .int i := by
  have written : writtenNumber (.ofInt i) = .int i := by
    unfold writtenNumber
    dsimp only
    rw [numberOfText?_write small]
  unfold read
  dsimp only
  rw [written]

/-! ## Paths -/

theorem writable_of_isAsciiDigit {c : Char} (digit : Text.isAsciiDigit c = true) :
    isWritable c = true := by
  simp only [Text.isAsciiDigit_iff] at digit
  have printable : 0x20 ≤ c.toNat := by omega
  simp [isWritable, printable]

theorem writable_writeInteger (i : Int) :
    ∀ c ∈ (writeInteger i).toList, isWritable c = true := by
  intro c member
  rw [Json.toList_writeInteger] at member
  rcases List.mem_append.mp member with sign | digit
  · cases negative : decide (i < 0)
    · rw [negative] at sign
      cases sign
    · rw [negative] at sign
      rw [List.mem_singleton.mp sign]
      decide
  · exact writable_of_isAsciiDigit (Text.isDigits_decimalDigits _ c digit)

theorem writable_intercalate {separator : String} {texts : List String}
    (plain : ∀ c ∈ separator.toList, isWritable c = true)
    (parts : ∀ text ∈ texts, ∀ c ∈ text.toList, isWritable c = true) :
    ∀ c ∈ (separator.intercalate texts).toList, isWritable c = true := by
  induction texts with
  | nil => simp
  | cons text rest ih =>
    cases rest with
    | nil => simpa using parts text List.mem_cons_self
    | cons next rest =>
      intro c member
      rw [String.intercalate_cons_cons] at member
      simp only [String.toList_append, List.mem_append] at member
      rcases member with (first | between) | later
      · exact parts text List.mem_cons_self c first
      · exact plain c between
      · exact ih (fun text member => parts text (List.mem_cons_of_mem _ member)) c later

end Service.Cell
end AdjacencyForest
