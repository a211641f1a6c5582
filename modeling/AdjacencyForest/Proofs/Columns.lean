import AdjacencyForest.Proofs.Steps
import AdjacencyForest.Service.Columns
import Mathlib

/-!
# The order of a sheet's rows

What kind of column the cells make up depends on all of them, but not on their order: there is one
way to read a row that serves however the rows stand.

Main statements: `column?_ofSheet`, a column is read row by row; `rowReader_perm`, in the same way in
any order of the rows.
-/

namespace AdjacencyForest

theorem mapM_eq_if {α β : Type} (read : α → Option β) (other : β) (items : List α) :
    items.mapM read =
      if items.all fun item => (read item).isSome then
        some (items.map fun item => (read item).getD other)
      else none := by
  induction items with
  | nil => rfl
  | cons item rest ih =>
    rw [List.mapM_cons, ih, List.all_cons]
    cases found : read item with
    | none => rfl
    | some value => cases rest.all fun item => (read item).isSome <;> simp [found]

namespace Service

/-- What makes data of the numerals of a column; `none` if no one kind of number holds them all. -/
def Numeral.reader? (numerals : List Numeral) : Option (Numeral → Json) :=
  if numerals.any isWide && numerals.any (fun n => n.isNegative || n == .missing) then none
  else if numerals.any isFractional then some toNumber
  else if numerals.any isInteger then some toInteger
  else some toTruth

theorem Numeral.column?_eq (numerals : List Numeral) :
    column? numerals = (reader? numerals).map numerals.map := by
  unfold column? reader?
  split
  · rfl
  · split
    · rfl
    · split <;> rfl

theorem Numeral.reader?_perm {numerals others : List Numeral} (same : numerals.Perm others) :
    reader? numerals = reader? others := by
  unfold reader?
  rw [same.any_eq, same.any_eq, same.any_eq, same.any_eq]

section Narrow

variable {numerals : List Numeral} (narrow : ∀ numeral ∈ numerals, numeral.isWide = false)
include narrow

/-- Numerals of at most 64 bits are all read as numbers if one of them needs it. -/
theorem Numeral.reader?_of_fractional {numeral : Numeral} (member : numeral ∈ numerals)
    (fractional : numeral.isFractional = true) : reader? numerals = some toNumber := by
  have narrow : numerals.any isWide = false := List.any_eq_false.mpr fun numeral member =>
    Bool.eq_false_iff.mp (narrow numeral member)
  rw [reader?, narrow, Bool.false_and, if_neg Bool.false_ne_true,
    if_pos (List.any_eq_true.mpr ⟨numeral, member, fractional⟩)]

theorem Numeral.reader?_of_integer (whole : ∀ numeral ∈ numerals, numeral.isFractional = false)
    {numeral : Numeral} (member : numeral ∈ numerals) (integer : numeral.isInteger = true) :
    reader? numerals = some toInteger := by
  have narrow : numerals.any isWide = false := List.any_eq_false.mpr fun numeral member =>
    Bool.eq_false_iff.mp (narrow numeral member)
  have whole : numerals.any isFractional = false := List.any_eq_false.mpr fun numeral member =>
    Bool.eq_false_iff.mp (whole numeral member)
  rw [reader?, narrow, Bool.false_and, if_neg Bool.false_ne_true, whole, if_neg Bool.false_ne_true,
    if_pos (List.any_eq_true.mpr ⟨numeral, member, integer⟩)]

end Narrow

theorem Numeral.isWide_int {i : Int} (fits : fitsInt64 i = true) : (Numeral.int i).isWide = false := by
  simp only [fitsInt64_iff] at fits
  simp only [isWide, Bool.and_eq_false_iff, decide_eq_false_iff_not]
  omega

theorem Numeral.isFractional_int {i : Int} (fits : fitsInt64 i = true) :
    (Numeral.int i).isFractional = false := by
  simp only [fitsInt64_iff] at fits
  simp only [isFractional, Bool.or_eq_false_iff, decide_eq_false_iff_not]
  omega

def cellReader (cells : List Content) : Content → Json :=
  if cells.all fun cell => (Numeral.ofContent? cell).isSome then
    let numeral := fun cell => (Numeral.ofContent? cell).getD .missing
    ((Numeral.reader? (cells.map numeral)).map (· ∘ numeral)).getD Content.toRawJson
  else if cells.all fun cell => (truthOfContent? cell).isSome then
    fun cell => (truthOfContent? cell).getD .null
  else Content.toJson

theorem columnValues_eq (cells : List Content) :
    columnValues cells = cells.map (cellReader cells) := by
  unfold columnValues cellReader
  rw [mapM_eq_if Numeral.ofContent? .missing, mapM_eq_if truthOfContent? .null]
  by_cases numerals : (cells.all fun cell => (Numeral.ofContent? cell).isSome) = true
  · rw [if_pos numerals, if_pos numerals]
    dsimp only
    rw [Numeral.column?_eq]
    cases Numeral.reader? (cells.map fun cell => (Numeral.ofContent? cell).getD .missing) with
    | none => rfl
    | some read => simp
  · rw [if_neg numerals, if_neg numerals]
    dsimp only
    split
    next values complete =>
      split at complete
      next truths =>
        rw [if_pos truths]
        exact (Option.some.inj complete).symm
      next => cases complete
    next incomplete =>
      split at incomplete
      next => cases incomplete
      next truths => rw [if_neg truths]

theorem cellReader_perm {cells others : List Content} (same : cells.Perm others) :
    cellReader cells = cellReader others := by
  unfold cellReader
  rw [same.all_eq, same.all_eq]
  dsimp only
  rw [Numeral.reader?_perm (same.map _)]

def contents (row : List Cell) : List Content := withoutFinalBlanks (row.map Cell.read)

def width (rows : List (List Cell)) : Nat :=
  rows.foldl (fun width row => max width (contents row).length) 0

def filled (width : Nat) (row : List Cell) : List Content :=
  contents row ++ List.replicate (width - (contents row).length) .blank

theorem contentRows_eq_map (sheet : Sheet) : contentRows sheet =
    ((sheet.map contents).rdropWhile List.isEmpty).map fun row => row ++ List.replicate
      (((sheet.map contents).rdropWhile List.isEmpty).foldl
        (fun width row => max width row.length) 0 - row.length) .blank := rfl

theorem length_contentRows_le (sheet : Sheet) : (contentRows sheet).length ≤ sheet.length := by
  rw [contentRows_eq_map, List.length_map]
  exact (List.rdropWhile_prefix List.isEmpty _).length_le.trans_eq (List.length_map _)

theorem contentRows_eq {sheet : Sheet} (last : ∀ row ∈ sheet.getLast?, contents row ≠ []) :
    contentRows sheet = sheet.map (filled (width sheet)) := by
  have kept : (sheet.map contents).rdropWhile List.isEmpty = sheet.map contents := by
    refine List.rdropWhile_eq_self_iff.mpr fun some blank => ?_
    rw [List.getLast_map] at blank
    refine last _ ?_ (List.isEmpty_iff.mp blank)
    exact List.getLast?_eq_getLast_of_ne_nil _
  rw [contentRows_eq_map, kept, List.foldl_map, List.map_map]
  rfl

theorem last_of_length_le {sheet : Sheet} (all : sheet.length ≤ (contentRows sheet).length) :
    ∀ row ∈ sheet.getLast?, contents row ≠ [] := by
  intro row last blank
  have kept : (sheet.map contents).rdropWhile List.isEmpty = sheet.map contents := by
    refine (List.rdropWhile_prefix List.isEmpty _).eq_of_length_le ?_
    rw [contentRows_eq_map, List.length_map] at all
    rwa [List.length_map]
  obtain ⟨some, same⟩ := List.getLast?_eq_some_iff.mp last
  have some : sheet.map contents ≠ [] := by simp [same]
  refine List.rdropWhile_eq_self_iff.mp kept some ?_
  simp [same, blank]

theorem width_perm {header : List Cell} {rows others : List (List Cell)} (same : rows.Perm others) :
    width (header :: rows) = width (header :: others) := by
  refine (same.cons header).foldl_eq' (fun first _ second _ width => ?_) 0
  omega

/-- What makes data of the cells in one column of a row, if the header has the column. -/
def rowReader (header : List Cell) (rows : List (List Cell)) (name : String) :
    Option (List Cell → Json) :=
  ((filled (width (header :: rows)) header).findIdx? (· == .text name)).map fun index =>
    let cell := fun row => (filled (width (header :: rows)) row).getD index .blank
    cellReader (rows.map cell) ∘ cell

theorem rowReader_perm {header : List Cell} {rows others : List (List Cell)}
    (same : rows.Perm others) : rowReader header rows = rowReader header others := by
  funext name
  unfold rowReader
  rw [width_perm same]
  dsimp only
  congr 1
  funext index
  rw [cellReader_perm (same.map _)]

theorem column?_ofSheet {header : List Cell} {rows : List (List Cell)}
    (last : ∀ row ∈ (header :: rows).getLast?, contents row ≠ []) (name : String) :
    (SheetTable.ofSheet (header :: rows)).column? name = (rowReader header rows name).map rows.map := by
  have read : SheetTable.ofSheet (header :: rows) =
      ⟨filled (width (header :: rows)) header, rows.map (filled (width (header :: rows)))⟩ := by
    rw [SheetTable.ofSheet, contentRows_eq last]
    rfl
  rw [read, SheetTable.column?, rowReader, Option.map_map]
  congr 1
  funext index
  dsimp only
  rw [columnValues_eq, List.map_map, List.map_map, List.map_map]
  rfl

theorem cellReader_blank (cells : List Content) :
    cellReader cells .blank = .null ∨ cellReader cells .blank = .str "" := by
  unfold cellReader
  split
  · dsimp only
    cases found : Numeral.reader? (cells.map fun cell => (Numeral.ofContent? cell).getD .missing) with
    | none => exact .inr rfl
    | some read =>
      left
      have missing : (Numeral.ofContent? .blank).getD .missing = .missing := by decide
      simp only [Option.map_some, Option.getD_some, Function.comp_apply, missing]
      unfold Numeral.reader? at found
      split at found
      · cases found
      · split at found
        · cases found
          rfl
        · split at found <;> cases found <;> rfl
  · split
    · exact .inl rfl
    · exact .inl rfl

end Service
end AdjacencyForest
