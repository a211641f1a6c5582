import AdjacencyForest.Proofs.Exporting

/-!
# Payloads in cells

The exchange form of data has no control characters, so every payload can be written into a cell. An
object is neither taken for a formula nor for an error code, and if its text is no longer than a cell
it is found there as it was written.

Main statements: `exists_ofText_print`, a payload can be written; `read_print_obj`, an object is read
back.
-/

namespace AdjacencyForest

open Text

/-- All characters stand above the control characters. -/
def HasNoControls (text : List Char) : Prop := ∀ c ∈ text, 0x20 ≤ c.toNat

@[simp] theorem hasNoControls_nil : HasNoControls [] := by simp [HasNoControls]

@[simp] theorem hasNoControls_cons {c : Char} {rest : List Char} :
    HasNoControls (c :: rest) ↔ 0x20 ≤ c.toNat ∧ HasNoControls rest := by simp [HasNoControls]

@[simp] theorem hasNoControls_append {text rest : List Char} :
    HasNoControls (text ++ rest) ↔ HasNoControls text ∧ HasNoControls rest := by
  simp [HasNoControls, or_imp, forall_and]

variable {text digits : List Char}

theorem HasNoControls.subset {part : List Char} (clear : HasNoControls text)
    (inside : part ⊆ text) : HasNoControls part := fun c member => clear c (inside member)

theorem hasNoControls_of_isDigits (numeral : IsDigits digits) : HasNoControls digits := by
  intro c member
  have digit := numeral c member
  simp only [isAsciiDigit_iff] at digit
  omega

theorem hasNoControls_flatMap {α : Type} {items : List α} {step : α → List Char}
    (each : ∀ item, HasNoControls (step item)) : HasNoControls (items.flatMap step) := by
  intro c member
  obtain ⟨item, -, found⟩ := List.mem_flatMap.mp member
  exact each item c found

/-! ## Numbers -/

theorem hasNoControls_zeros (n : Nat) : HasNoControls (List.replicate n '0') :=
  hasNoControls_of_isDigits (isDigits_replicate_zero n)

theorem hasNoControls_writeInteger (i : Int) : HasNoControls (writeInteger i).toList := by
  have digits := hasNoControls_of_isDigits (isDigits_decimalDigits i.natAbs)
  rw [Json.toList_writeInteger, hasNoControls_append]
  refine ⟨?_, digits⟩
  unfold Json.signChars
  split <;> simp

namespace NumberLayout

variable (layout : NumberLayout) (numeral : IsDigits digits) (power : Int)

theorem hasNoControls_exponentText : HasNoControls (exponentText power) := by
  have digits := hasNoControls_of_isDigits (isDigits_decimalDigits power.natAbs)
  have sign : 0x20 ≤ (if power < 0 then '-' else '+').toNat := by split <;> decide
  have padded : HasNoControls (if (decimalDigits power.natAbs).length < 2
      then '0' :: decimalDigits power.natAbs else decimalDigits power.natAbs) := by
    split
    · exact hasNoControls_cons.mpr ⟨by decide, digits⟩
    · exact digits
  exact hasNoControls_cons.mpr ⟨by decide, hasNoControls_cons.mpr ⟨sign, padded⟩⟩

include numeral

theorem hasNoControls_positional : HasNoControls (layout.positional digits power) := by
  have clear := hasNoControls_of_isDigits numeral
  have first (n : Nat) := clear.subset (List.take_subset n digits)
  have later (n : Nat) := clear.subset (List.drop_subset n digits)
  unfold positional padRight
  split
  · simp [clear, hasNoControls_zeros]
  · dsimp only
    split
    · split <;> simp [first, hasNoControls_zeros]
    · simp [first, later, hasNoControls_zeros]

theorem hasNoControls_scientific : HasNoControls (layout.scientific digits power) := by
  have clear := hasNoControls_of_isDigits numeral
  have first := clear.subset (List.take_subset 1 digits)
  have later := clear.subset (List.tail_subset digits)
  have exponent := hasNoControls_exponentText power
  unfold scientific
  rw [List.drop_one]
  dsimp only
  split
  · split <;> simp [first, exponent]
  · simp [first, later, exponent]

omit numeral in
theorem hasNoControls_magnitude (mantissa : Nat) (exponent : Int) :
    HasNoControls (layout.magnitude mantissa exponent) := by
  have placed (decimal : Decimal) : HasNoControls
      (if layout.positionalFrom ≤ decimal.power ∧ decimal.power ≤ layout.positionalTo then
        layout.positional (decimalDigits decimal.digits) decimal.power
      else layout.scientific (decimalDigits decimal.digits) decimal.power) := by
    have numeral := isDigits_decimalDigits decimal.digits
    split
    · exact hasNoControls_positional layout numeral _
    · exact hasNoControls_scientific layout numeral _
  unfold magnitude
  split
  · exact hasNoControls_positional layout (isDigits_replicate_zero 1) 0
  · exact placed _

omit numeral in
theorem hasNoControls_exchange (x : Binary64) : HasNoControls (exchange.write x).toList := by
  cases x with
  | finite negative mantissa exponent =>
    have magnitude := hasNoControls_magnitude exchange mantissa exponent
    rw [write, String.toList_ofList, hasNoControls_append]
    refine ⟨?_, magnitude⟩
    split <;> simp
  | infinite negative => cases negative <;> simp [write, exchange]
  | nan => simp [write, exchange]

end NumberLayout

/-! ## Texts -/

namespace Json

theorem hasNoControls_hexadecimal (width point : Nat) : HasNoControls (hexadecimal width point) := by
  have digits : ∀ digit < 16, 0x20 ≤ (Nat.digitChar digit).toNat := by decide
  intro c member
  obtain ⟨place, -, rfl⟩ := List.mem_map.mp member
  exact digits _ (Nat.mod_lt _ (by decide))

theorem hasNoControls_escapedText (point : Nat) : HasNoControls (escapedText point) := by
  have units : HasNoControls ((utf16Units point).flatMap escapedUnit) :=
    hasNoControls_flatMap fun unit => by simp [escapedUnit, hasNoControls_hexadecimal]
  have plain (visible : 0x20 ≤ point ∧ point < 0x7f) : HasNoControls [Char.ofNat point] := by
    have valid : point.isValidChar := .inl (by omega)
    have same : (Char.ofNat point).toNat = point := by
      rw [Char.ofNat, dif_pos valid]
      rfl
    exact hasNoControls_cons.mpr ⟨by omega, hasNoControls_nil⟩
  unfold escapedText
  repeat' split
  all_goals first | exact units | exact plain ‹_› | simp

theorem hasNoControls_printPoints (points : List Nat) : HasNoControls (printPoints points) := by
  simp [printPoints, hasNoControls_flatMap hasNoControls_escapedText]

mutual

/-- Control characters are escaped wherever a text stands: by the structure of the data. -/
theorem hasNoControls_printChars : (value : Json) → HasNoControls (printChars value)
  | .null | .bool true | .bool false => by simp [printChars]
  | .int i => hasNoControls_writeInteger i
  | .num x => NumberLayout.hasNoControls_exchange x
  | .str _ | .illFormed _ => hasNoControls_printPoints _
  | .arr items => by simp [printChars, hasNoControls_printItems items]
  | .obj fields => by simp [printChars, hasNoControls_printFields fields]

theorem hasNoControls_printItems : (items : List Json) → HasNoControls (printItems items)
  | [] => hasNoControls_nil
  | [item] => hasNoControls_printChars item
  | item :: next :: rest => by
    simp [printItems, hasNoControls_printChars item, hasNoControls_printItems (next :: rest)]

theorem hasNoControls_printFields : (fields : List (String × Json)) →
    HasNoControls (printFields fields)
  | [] => hasNoControls_nil
  | [(name, value)] => by
    simp [printFields, printText, hasNoControls_printPoints, hasNoControls_printChars value]
  | (name, value) :: next :: rest => by
    simp [printFields, printText, hasNoControls_printPoints, hasNoControls_printChars value,
      hasNoControls_printFields (next :: rest)]

end

theorem hasNoControls_print (value : Json) : HasNoControls value.print.toList := by
  rw [print, String.toList_ofList]
  exact hasNoControls_printChars value

end Json

/-! ## Cells -/

namespace Service

theorem lineEnds_eq_self_iff : Cell.lineEnds text = text ↔ '\r' ∉ text := by
  induction text with
  | nil => simp [Cell.lineEnds]
  | cons c rest ih =>
    by_cases same : c = '\r'
    · subst same
      refine iff_of_false (fun kept => ?_) (by simp)
      unfold Cell.lineEnds at kept
      split at kept <;> simp_all
    · rw [lineEnds_cons rest same, List.cons_eq_cons, ih]
      simp [Ne.symm same]

theorem exists_ofText_print (value : Json) : ∃ cell, Cell.ofText value.print = .ok cell :=
  exists_ofText fun c member => by simp [Cell.isWritable, Json.hasNoControls_print value c member]

theorem read_print_obj {fields : List (String × Json)} {cell : Cell}
    (short : (Json.obj fields).print.length ≤ Cell.textLimit)
    (written : Cell.ofText (Json.obj fields).print = .ok cell) :
    cell.read = .text (Json.obj fields).print := by
  obtain ⟨rest, begins⟩ := startsObject_print fields
  have clear := Json.hasNoControls_print (.obj fields)
  have whole : (Json.obj fields).print.toList.take Cell.textLimit = (Json.obj fields).print.toList :=
    List.take_of_length_le short
  have kept : Cell.lineEnds (Json.obj fields).print.toList = (Json.obj fields).print.toList :=
    lineEnds_eq_self_iff.mpr fun ending => absurd (clear _ ending) (by decide)
  have code : Cell.errorCodes.contains (Json.obj fields).print = false := by
    have absent := (startsObject_print fields).not_mem
      (by decide +kernel : ∀ word ∈ Cell.errorCodes, word.toList.head? ≠ some '\x7b')
    simpa using absent
  have some : (Json.obj fields).print.isEmpty = false := by
    refine Bool.eq_false_iff.mpr fun none => ?_
    rw [String.isEmpty_iff.mp none] at begins
    cases begins
  unfold Cell.ofText at written
  rw [whole] at written
  dsimp only at written
  rw [kept, String.ofList_toList, code] at written
  split at written
  · cases written
  · rw [if_neg (by simp [begins]), if_neg Bool.false_ne_true] at written
    obtain rfl := Except.ok.inj written
    rw [Cell.read, some]
    rfl

end Service
end AdjacencyForest
