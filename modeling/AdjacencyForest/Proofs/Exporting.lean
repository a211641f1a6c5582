import AdjacencyForest.Proofs.ColumnKinds
import AdjacencyForest.Proofs.Outlines
import AdjacencyForest.Proofs.Printing
import AdjacencyForest.Proofs.Relatives
import AdjacencyForest.Service.Export

/-!
# Exported sheets

The sheet that is exported has a line for each row of the table. What is found in the cells of a line
tells the row's key, its parent and its payload, and of its label whether there is one.

Main statements: `exists_sheet`, the sheet of some rows; `exists_records`, what an import reads in it,
and `exists_records_of_labels`, the same for labels of any kind.
-/

namespace AdjacencyForest

open Binary64

/-- The text begins with an ASCII letter. -/
def StartsWithLetter (text : String) : Prop := ∃ c rest, text.toList = c :: rest ∧ c.isAlpha = true

namespace Service

/-- What a workbook can hold of a row: a key that a number can hold, a text that can be written and
begins with a letter as the label, and as the payload an object whose text a cell gives back. -/
structure IsExportable (row : Row) : Prop where
  key : ∃ i, row.key = .int i ∧ IsSmall i
  label : row.label = .null ∨
    ∃ text, row.label = .text text ∧ StartsWithLetter text ∧ ∃ cell, Cell.ofText text = .ok cell
  payload : row.payload.getD .null = .null ∨
    ∃ fields, row.payload = some (.obj fields) ∧ (Json.obj fields).IsPortable ∧
      ∃ cell, Cell.ofText (Json.obj fields).print = .ok cell ∧
        cell.read = .text (Json.obj fields).print

/-- What is found in a cell of a line; there is nothing behind its end. -/
def contentAt (index : Nat) (line : List Cell) : Content := (line.map Cell.read).getD index .blank

/-- The line has the cells of an export, with the key and the parent of the row among them. -/
structure IsPlacedLine (line : List Cell) (row : Row) : Prop where
  length : line.length = 6
  key : ∃ i, row.key = .int i ∧ IsSmall i ∧ contentAt 0 line = .int i
  parent : (row.parent = .null ∧ contentAt 2 line = .blank) ∨
    ∃ i, row.parent = .int i ∧ IsSmall i ∧ contentAt 2 line = .int i

/-- The line is what an export makes of the row, whatever it makes of the label. -/
structure IsOutlineLine (line : List Cell) (row : Row) : Prop extends IsPlacedLine line row where
  payload : (row.payload.getD .null = .null ∧ contentAt 3 line = .blank) ∨
    ∃ fields, row.payload = some (.obj fields) ∧ (Json.obj fields).IsPortable ∧
      contentAt 3 line = .text (Json.obj fields).print

/-- The line is what an export makes of the row. -/
structure IsLineOf (line : List Cell) (row : Row) : Prop extends IsOutlineLine line row where
  label : contentAt 1 line = .blank ∨ ∃ text, contentAt 1 line = .text text ∧ StartsHigh text

variable {settings : Settings} {table : Table} {row : Row} {treeRow : TreeRow} {text : String}
  {cell : Cell} {anyMissing : Bool} {i : Int}

/-! ## Cells -/

theorem startsObject_print (fields : List (String × Json)) : StartsObject (Json.obj fields).print :=
  ⟨_, by rw [Json.print, String.toList_ofList, Json.printChars]⟩

theorem high_of_isAlpha {c : Char} (letter : c.isAlpha = true) : 0x41 ≤ c.toNat := by
  simp only [Char.isAlpha, Char.isUpper, Char.isLower, Bool.or_eq_true, Bool.and_eq_true,
    decide_eq_true_eq, ge_iff_le, UInt32.le_iff_toNat_le] at letter
  have same : c.toNat = c.val.toNat := rfl
  have upper : ('A' : Char).val.toNat = 0x41 := rfl
  have lower : ('a' : Char).val.toNat = 0x61 := rfl
  omega

theorem lineEnds_cons {c : Char} (rest : List Char) (other : c ≠ '\r') :
    Cell.lineEnds (c :: rest) = c :: Cell.lineEnds rest := by
  rw [Cell.lineEnds]
  · exact fun _ same _ => other same
  · exact other

/-- A text that begins with a letter is neither a formula nor an error code. -/
theorem read_of_letter (starts : StartsWithLetter text) (written : Cell.ofText text = .ok cell) :
    ∃ kept, cell.read = .text kept ∧ StartsHigh kept := by
  obtain ⟨c, rest, same, letter⟩ := starts
  have high := high_of_isAlpha letter
  have formula : c ≠ '=' := ne_of_high high (by decide)
  have cut : text.toList.take Cell.textLimit = c :: rest.take (Cell.textLimit - 1) := by
    rw [same]
    rfl
  have begins : (String.ofList (Cell.lineEnds (c :: rest.take (Cell.textLimit - 1)))).toList =
      c :: Cell.lineEnds (rest.take (Cell.textLimit - 1)) := by
    rw [String.toList_ofList, lineEnds_cons _ (ne_of_high high (by decide))]
  unfold Cell.ofText at written
  rw [cut] at written
  dsimp only at written
  generalize String.ofList (Cell.lineEnds (c :: rest.take (Cell.textLimit - 1))) = kept at begins written
  -- Each error code begins with a number sign.
  have code : Cell.errorCodes.contains kept = false := by
    refine Bool.eq_false_iff.mpr fun listed => ?_
    have firsts : ∀ code ∈ Cell.errorCodes, code.toList.head? = some '#' := by decide +kernel
    have first := firsts kept (by simpa using listed)
    rw [begins, List.head?_cons, Option.some.injEq] at first
    exact ne_of_high high (by decide) first
  have some : kept.isEmpty = false := by
    refine Bool.eq_false_iff.mpr fun none => ?_
    rw [String.isEmpty_iff.mp none] at begins
    cases begins
  split at written
  · cases written
  · rw [if_neg (by simp [formula]), code, if_neg Bool.false_ne_true] at written
    obtain rfl := Except.ok.inj written
    refine ⟨kept, ?_, c, _, begins, high⟩
    rw [Cell.read, some]
    rfl

/-- A text is written if its beginning, as far as a cell holds it, can be. -/
theorem exists_ofText_of_cut (writable : (text.toList.take Cell.textLimit).all Cell.isWritable = true) :
    ∃ cell, Cell.ofText text = .ok cell := by
  unfold Cell.ofText
  dsimp only
  rw [writable, Bool.not_true, if_neg Bool.false_ne_true]
  split
  · exact ⟨_, rfl⟩
  · split <;> exact ⟨_, rfl⟩

theorem exists_ofText (writable : ∀ c ∈ text.toList, Cell.isWritable c = true) :
    ∃ cell, Cell.ofText text = .ok cell :=
  exists_ofText_of_cut (List.all_eq_true.mpr fun c member => writable c (List.mem_of_mem_take member))

theorem cut_of_ofText (written : Cell.ofText text = .ok cell) :
    (text.toList.take Cell.textLimit).all Cell.isWritable = true := by
  by_contra unwritable
  unfold Cell.ofText at written
  dsimp only at written
  rw [if_pos (by simpa using unwritable)] at written
  cases written

theorem ofJson_error {value : Json} {cause : Fault} (failed : Cell.ofJson value = .error cause) :
    ∃ cut, cause = .unwritableCell cut := by
  cases value with
  | str text =>
    change Cell.ofText text = .error cause at failed
    unfold Cell.ofText at failed
    dsimp only at failed
    split at failed
    · exact ⟨_, (Except.error.inj failed).symm⟩
    · split at failed
      · cases failed
      · split at failed <;> cases failed
  | null | bool | int | num | illFormed | arr | obj => cases failed

/-! ## The line of a row -/

/-- A payload in a line is its text. -/
def payloadText : Json → Json
  | .null => .null
  | payload => .str payload.print

theorem exportRow_eq : exportRow anyMissing treeRow =
    [treeRow.row.key.toJson, treeRow.row.label.toJson, exportParent anyMissing treeRow.row.parent,
      payloadText (treeRow.row.payload.getD .null), treeRow.depth.toJson, treeRow.path.toJson] := rfl

theorem ofJson_exportParent (small : IsSmall i) :
    Cell.ofJson (exportParent anyMissing (.int i)) = .ok (.number (ofInt i)) := by
  cases anyMissing
  · rfl
  · rw [exportParent, if_pos rfl, Cell.ofJson, isFinite_ofInt small, if_pos rfl]

theorem exists_labelCell (exportable : IsExportable row) :
    ∃ cell, Cell.ofJson row.label.toJson = .ok cell ∧
      (cell.read = .blank ∨ ∃ text, cell.read = .text text ∧ StartsHigh text) := by
  rcases exportable.label with null | ⟨text, label, starts, cell, written⟩
  · rw [null]
    exact ⟨.blank, rfl, .inl rfl⟩
  · rw [label]
    exact ⟨cell, written, .inr (read_of_letter starts written)⟩

theorem exists_parentCell (linked : row.parent = .null ∨ ∃ i, row.parent = .int i ∧ IsSmall i) :
    ∃ cell, Cell.ofJson (exportParent anyMissing row.parent) = .ok cell ∧
      ((row.parent = .null ∧ cell.read = .blank) ∨
        ∃ i, row.parent = .int i ∧ IsSmall i ∧ cell.read = .int i) := by
  rcases linked with null | ⟨i, parent, small⟩
  · rw [null]
    exact ⟨.blank, rfl, .inl ⟨rfl, rfl⟩⟩
  · rw [parent]
    exact ⟨_, ofJson_exportParent small, .inr ⟨i, rfl, small, Cell.read_ofInt small⟩⟩

theorem exists_payloadCell (exportable : IsExportable row) :
    ∃ cell, Cell.ofJson (payloadText (row.payload.getD .null)) = .ok cell ∧
      ((row.payload.getD .null = .null ∧ cell.read = .blank) ∨
        ∃ fields, row.payload = some (.obj fields) ∧ (Json.obj fields).IsPortable ∧
          cell.read = .text (Json.obj fields).print) := by
  rcases exportable.payload with null | ⟨fields, payload, portable, cell, written, read⟩
  · rw [null]
    exact ⟨.blank, rfl, .inl ⟨rfl, rfl⟩⟩
  · rw [payload]
    exact ⟨cell, written, .inr ⟨fields, rfl, portable, read⟩⟩

/-- A row of a tree with a key and a parent that a number can hold, and a path that can be written. -/
structure HasPlace (treeRow : TreeRow) : Prop where
  key : ∃ i, treeRow.row.key = .int i ∧ IsSmall i
  parent : treeRow.row.parent = .null ∨ ∃ i, treeRow.row.parent = .int i ∧ IsSmall i
  depth : ∃ depth, treeRow.depth = .int depth
  path : ∃ path, treeRow.path = .text path ∧ ∀ c ∈ path.toList, Cell.isWritable c = true

/-- The row of a tree can be written in a line. -/
structure FitsLine (treeRow : TreeRow) : Prop extends HasPlace treeRow where
  exportable : IsExportable treeRow.row

/-- The line of a row, from the cells of its label and its payload. -/
theorem exists_placedLine {labelCell payloadCell : Cell} (place : HasPlace treeRow)
    (labelWritten : Cell.ofJson treeRow.row.label.toJson = .ok labelCell)
    (payloadWritten : Cell.ofJson (payloadText (treeRow.row.payload.getD .null)) = .ok payloadCell)
    (anyMissing : Bool) :
    ∃ line, (exportRow anyMissing treeRow).mapM Cell.ofJson = .ok line ∧
      IsPlacedLine line treeRow.row ∧ contentAt 1 line = labelCell.read ∧
      contentAt 3 line = payloadCell.read := by
  obtain ⟨i, key, small⟩ := place.key
  obtain ⟨parentCell, parentWritten, parent⟩ := @exists_parentCell _ anyMissing place.parent
  obtain ⟨depth, depthGiven⟩ := place.depth
  obtain ⟨path, pathGiven, plain⟩ := place.path
  obtain ⟨pathCell, pathWritten⟩ := exists_ofText plain
  refine ⟨[.number (ofInt i), labelCell, parentCell, payloadCell, .number (ofInt depth), pathCell],
    ?_, ⟨rfl, ⟨i, key, small, Cell.read_ofInt small⟩, parent⟩, rfl, rfl⟩
  have keyWritten : Cell.ofJson treeRow.row.key.toJson = .ok (.number (ofInt i)) := by
    rw [key]
    rfl
  have depthWritten : Cell.ofJson treeRow.depth.toJson = .ok (.number (ofInt depth)) := by
    rw [depthGiven]
    rfl
  have pathWritten : Cell.ofJson treeRow.path.toJson = .ok pathCell := by
    rw [pathGiven]
    exact pathWritten
  rw [exportRow_eq]
  simp only [List.mapM_cons, List.mapM_nil, keyWritten, labelWritten, parentWritten, payloadWritten,
    depthWritten, pathWritten, bind, Except.bind, pure, Except.pure]

theorem exists_line (fits : FitsLine treeRow) (anyMissing : Bool) :
    ∃ line, (exportRow anyMissing treeRow).mapM Cell.ofJson = .ok line ∧ IsLineOf line treeRow.row := by
  obtain ⟨labelCell, labelWritten, label⟩ := exists_labelCell fits.exportable
  obtain ⟨payloadCell, payloadWritten, payload⟩ := exists_payloadCell fits.exportable
  obtain ⟨line, written, placed, labelContent, payloadContent⟩ :=
    exists_placedLine fits.toHasPlace labelWritten payloadWritten anyMissing
  exact ⟨line, written, ⟨placed, payloadContent ▸ payload⟩, labelContent ▸ label⟩

/-! ## The lines of a sheet -/

theorem exists_mapM {α β ε : Type} {step : α → Except ε β} {related : β → α → Prop} {items : List α}
    (each : ∀ item ∈ items, ∃ result, step item = .ok result ∧ related result item) :
    ∃ results, items.mapM step = .ok results ∧ List.Forall₂ related results items := by
  induction items with
  | nil => exact ⟨[], rfl, .nil⟩
  | cons item rest ih =>
    obtain ⟨result, first, fits⟩ := each item List.mem_cons_self
    obtain ⟨results, later, others⟩ := ih fun other member => each other (List.mem_cons_of_mem _ member)
    refine ⟨result :: results, ?_, .cons fits others⟩
    rw [List.mapM_cons]
    exact bind_eq_ok.mpr ⟨result, first, bind_eq_ok.mpr ⟨results, later, rfl⟩⟩

theorem exists_of_mapM_ok {α β ε : Type} {step : α → Except ε β} {items : List α} {results : List β}
    (done : items.mapM step = .ok results) : ∀ item ∈ items, ∃ result, step item = .ok result := by
  induction items generalizing results with
  | nil => exact fun _ none => nomatch none
  | cons item rest ih =>
    rw [List.mapM_cons] at done
    obtain ⟨result, first, done⟩ := bind_eq_ok.mp done
    obtain ⟨others, later, -⟩ := bind_eq_ok.mp done
    exact List.forall_mem_cons.mpr ⟨⟨result, first⟩, ih later⟩

theorem exists_of_mapM_error {α β ε : Type} {step : α → Except ε β} {items : List α} {e : ε}
    (failed : items.mapM step = .error e) : ∃ item ∈ items, step item = .error e := by
  induction items with
  | nil => cases failed
  | cons item rest ih =>
    rw [List.mapM_cons] at failed
    cases first : step item with
    | error other =>
      rw [first] at failed
      exact ⟨item, List.mem_cons_self, first.trans (congrArg _ (Except.error.inj failed))⟩
    | ok result =>
      rw [first] at failed
      cases later : rest.mapM step with
      | error other =>
        rw [later] at failed
        obtain ⟨other, member, refused⟩ := ih (later.trans (congrArg _ (Except.error.inj failed)))
        exact ⟨other, List.mem_cons_of_mem _ member, refused⟩
      | ok others =>
        rw [later] at failed
        cases failed

def headerLine : List Cell := exportHeader.map Cell.text

theorem eq_ok_of_toOption {ε α : Type} {step : Except ε α} {result : α}
    (made : step.toOption = some result) : step = .ok result := by
  cases step with
  | error => cases made
  | ok => exact congrArg Except.ok (Option.some.inj made)

theorem mapM_exportHeader : (exportHeader.map Json.str).mapM Cell.ofJson = .ok headerLine :=
  eq_ok_of_toOption (by decide +kernel)

variable {shown : List TreeRow} {lines : List (List Cell)} {rows : List Row} {records : List ImportRecord}

/-- If each row of a tree has a line, the sheet is made up of the lines. -/
theorem exists_sheet_of_lines {related : List Cell → Row → Prop}
    (each : ∀ treeRow ∈ shown, ∀ anyMissing, ∃ line,
      (exportRow anyMissing treeRow).mapM Cell.ofJson = .ok line ∧ related line treeRow.row) :
    ∃ lines, sheetOfRows (exportValues shown) = .ok (headerLine :: lines) ∧
      List.Forall₂ related lines (shown.map TreeRow.row) := by
  obtain ⟨lines, written, lined⟩ :=
    @exists_mapM _ _ _ (fun treeRow => (exportRow
      (shown.any fun treeRow => treeRow.row.parent.isNull) treeRow).mapM Cell.ofJson)
      (fun line treeRow => related line treeRow.row) shown
      fun treeRow member => each treeRow member _
  refine ⟨lines, ?_, List.forall₂_map_right_iff.mpr lined⟩
  rw [sheetOfRows, exportValues, List.mapM_cons, mapM_exportHeader, List.mapM_map]
  exact bind_eq_ok.mpr ⟨_, rfl, bind_eq_ok.mpr ⟨lines, written, rfl⟩⟩

theorem exists_sheet (fits : ∀ treeRow ∈ shown, FitsLine treeRow) :
    ∃ lines, sheetOfRows (exportValues shown) = .ok (headerLine :: lines) ∧
      List.Forall₂ IsLineOf lines (shown.map TreeRow.row) :=
  exists_sheet_of_lines fun treeRow member anyMissing => exists_line (fits treeRow member) anyMissing

/-! ## Lines that are read -/

/-- The cells that are cut off at the end of a row are put back when rows are filled up. -/
theorem withoutFinalBlanks_append (row : List Content) :
    withoutFinalBlanks row ++
      List.replicate (row.length - (withoutFinalBlanks row).length) .blank = row := by
  have whole := congrArg List.reverse (@List.takeWhile_append_dropWhile _ (· == Content.blank) row.reverse)
  rw [List.reverse_append, List.reverse_reverse] at whole
  have blanks : (row.reverse.takeWhile (· == Content.blank)).reverse =
      List.replicate (row.length - (withoutFinalBlanks row).length) .blank := by
    refine List.eq_replicate_iff.mpr ⟨?_, fun cell member => ?_⟩
    · have length := congrArg List.length whole
      rw [List.length_append] at length
      exact Nat.eq_sub_of_add_eq' length
    · simpa using List.mem_takeWhile_imp (List.mem_reverse.mp member)
  rw [← blanks]
  exact whole

theorem filled_eq {line : List Cell} {width : Nat} (length : line.length = width) :
    filled width line = line.map Cell.read := by
  have whole := withoutFinalBlanks_append (line.map Cell.read)
  rw [List.length_map, length] at whole
  exact whole

theorem length_contents_le (line : List Cell) : (contents line).length ≤ line.length := by
  have whole := congrArg List.length (withoutFinalBlanks_append (line.map Cell.read))
  rw [List.length_append, List.length_map] at whole
  exact (Nat.le_add_right _ _).trans_eq whole

theorem width_headerLine (shaped : ∀ line ∈ lines, line.length = 6) :
    width (headerLine :: lines) = 6 := by
  have kept : ∀ lines : List (List Cell), (∀ line ∈ lines, line.length = 6) →
      lines.foldl (fun width line => max width (contents line).length) 6 = 6 := by
    intro lines shaped
    induction lines with
    | nil => rfl
    | cons line rest ih =>
      have short := (length_contents_le line).trans_eq (shaped line List.mem_cons_self)
      rw [List.foldl_cons, Nat.max_eq_left short]
      exact ih fun other member => shaped other (List.mem_cons_of_mem _ member)
  have header : max 0 (contents headerLine).length = 6 := by decide +kernel
  rw [width, List.foldl_cons, header]
  exact kept lines shaped

variable {line : List Cell} {name : String} {index : Nat}

/-- A column of the sheet is read cell by cell. -/
theorem rowReader_headerLine (shaped : ∀ line ∈ lines, line.length = 6)
    (named : (headerLine.map Cell.read).findIdx? (· == .text name) = some index)
    (member : line ∈ lines) : (rowReader headerLine lines name).map (· line) =
      some (cellReader (lines.map (contentAt index)) (contentAt index line)) := by
  have at6 (line : List Cell) (found : line ∈ lines) :
      (filled 6 line).getD index .blank = contentAt index line := by
    rw [filled_eq (shaped line found)]
    rfl
  rw [rowReader, width_headerLine shaped, @filled_eq headerLine 6 rfl, named, Option.map_some,
    Option.map_some, Function.comp_apply, at6 line member, List.map_congr_left at6]

/-! ## Records -/

theorem exists_forall₂ {α β γ : Type} {related : α → β → Prop} {left : α → γ → Prop}
    {right : γ → β → Prop} {items : List α} {others : List β} (all : List.Forall₂ related items others)
    (each : ∀ item ∈ items, ∀ other, related item other → ∃ between, left item between ∧ right between other) :
    ∃ betweens, List.Forall₂ left items betweens ∧ List.Forall₂ right betweens others := by
  induction all with
  | nil => exact ⟨[], .nil, .nil⟩
  | cons first _ ih =>
    obtain ⟨between, fits, fitsOther⟩ := each _ List.mem_cons_self _ first
    obtain ⟨betweens, lefts, rights⟩ := ih fun item member => each item (List.mem_cons_of_mem _ member)
    exact ⟨between :: betweens, .cons fits lefts, .cons fitsOther rights⟩

theorem contents_ne_nil (ofRow : IsPlacedLine line row) : contents line ≠ [] := by
  intro blank
  obtain ⟨i, -, -, content⟩ := ofRow.key
  rw [contentAt, ← filled_eq ofRow.length, filled, blank] at content
  cases content

section Placed

variable (written : List.Forall₂ IsPlacedLine lines rows)
include written

theorem shaped_lines : ∀ line ∈ lines, line.length = 6 := fun line member => by
  obtain ⟨row, -, ofRow⟩ := exists_of_forall₂ written member
  exact ofRow.length

theorem areKeys_ids : AreKeys (lines.map (contentAt 0)) := by
  intro cell member
  obtain ⟨line, found, rfl⟩ := List.mem_map.mp member
  obtain ⟨row, -, ofRow⟩ := exists_of_forall₂ written found
  obtain ⟨i, -, small, content⟩ := ofRow.key
  exact .inr ⟨i, content, small⟩

/-- The cell of a key is read as the key. -/
theorem exists_keyCell (member : line ∈ lines) (ofRow : IsPlacedLine line row) :
    ∃ i, row.key = .int i ∧ IsSmall i ∧
      (cellReader (lines.map (contentAt 0)) (contentAt 0 line)).IsInteger i := by
  obtain ⟨i, key, small, content⟩ := ofRow.key
  have found := List.mem_map_of_mem (f := contentAt 0) member
  rw [content] at found ⊢
  exact ⟨i, key, small, (areKeys_ids written).isInteger found⟩

theorem last_headerLine : ∀ line ∈ (headerLine :: lines).getLast?, contents line ≠ [] := by
  intro line last
  rcases List.mem_cons.mp (List.mem_of_getLast? last) with rfl | member
  · decide +kernel
  · obtain ⟨row, -, ofRow⟩ := exists_of_forall₂ written member
    exact contents_ne_nil ofRow

end Placed

theorem areLabels_labels (written : List.Forall₂ IsLineOf lines rows) :
    AreLabels (lines.map (contentAt 1)) := by
  intro cell member
  obtain ⟨line, found, rfl⟩ := List.mem_map.mp member
  obtain ⟨row, -, ofRow⟩ := exists_of_forall₂ written found
  exact ofRow.label

section Outlines

variable (written : List.Forall₂ IsOutlineLine lines rows)
include written

theorem areKeys_parents : AreKeys (lines.map (contentAt 2)) := by
  intro cell member
  obtain ⟨line, found, rfl⟩ := List.mem_map.mp member
  obtain ⟨row, -, ofRow⟩ := exists_of_forall₂ written found
  rcases ofRow.parent with ⟨-, content⟩ | ⟨i, -, small, content⟩
  · exact .inl content
  · exact .inr ⟨i, content, small⟩

theorem arePayloads_payloads : ArePayloads (lines.map (contentAt 3)) := by
  intro cell member
  obtain ⟨line, found, rfl⟩ := List.mem_map.mp member
  obtain ⟨row, -, ofRow⟩ := exists_of_forall₂ written found
  rcases ofRow.payload with ⟨-, content⟩ | ⟨fields, -, -, content⟩
  · exact .inl content
  · exact .inr ⟨_, content, startsObject_print fields⟩

theorem isParentCell_of_isOutlineLine (member : line ∈ lines) (ofRow : IsOutlineLine line row) :
    IsParentCell (cellReader (lines.map (contentAt 2)) (contentAt 2 line)) row.parent.toJson := by
  have keys := areKeys_parents written
  have found := List.mem_map_of_mem (f := contentAt 2) member
  rcases ofRow.parent with ⟨parent, content⟩ | ⟨i, parent, -, content⟩
  · rw [content] at found ⊢
    rw [parent, keys.blank found]
    exact .blank
  · rw [content] at found ⊢
    rw [parent]
    exact .integer (keys.isInteger found)

theorem isPayloadCell_of_isOutlineLine (member : line ∈ lines) (ofRow : IsOutlineLine line row) :
    IsPayloadCell (cellReader (lines.map (contentAt 3)) (contentAt 3 line))
      (row.payload.getD .null) := by
  have payloads := arePayloads_payloads written
  have found := List.mem_map_of_mem (f := contentAt 3) member
  rcases ofRow.payload with ⟨payload, content⟩ | ⟨fields, payload, portable, content⟩
  · rw [content] at found ⊢
    rw [payload, payloads.blank found]
    exact .blank
  · rw [content] at found ⊢
    rw [payload, payloads.object found]
    exact .text (Json.parse_print portable)

theorem exists_record (member : line ∈ lines) (ofRow : IsOutlineLine line row)
    (label : ∃ value, Value.ofParameter (.column .label)
      (cellReader (lines.map (contentAt 1)) (contentAt 1 line)) = .ok value) :
    ∃ record : ImportRecord,
      record.IsReadFrom (fun name => (rowReader headerLine lines name).map (· line)) ∧
        record.Describes row := by
  have keyLines := written.imp fun _ _ => IsOutlineLine.toIsPlacedLine
  have shaped := shaped_lines keyLines
  obtain ⟨i, key, small, keyCell⟩ := exists_keyCell keyLines member ofRow.toIsPlacedLine
  refine ⟨⟨i, some (cellReader (lines.map (contentAt 1)) (contentAt 1 line)),
    some row.parent.toJson, some (row.payload.getD .null)⟩, ⟨?_, ?_, ?_, ?_⟩, ⟨key, rfl, rfl, ?_⟩⟩
  · exact ⟨_, @rowReader_headerLine lines line "id" 0 shaped (by decide +kernel) member, keyCell⟩
  · exact (@rowReader_headerLine lines line "label" 1 shaped (by decide +kernel) member).symm
  · rw [@rowReader_headerLine lines line "parent_id" 2 shaped (by decide +kernel) member]
    exact .some (isParentCell_of_isOutlineLine written member ofRow)
  · rw [@rowReader_headerLine lines line "meta" 3 shaped (by decide +kernel) member]
    exact .some (isPayloadCell_of_isOutlineLine written member ofRow)
  · refine ⟨small.nonzero, small.fits, ?_, ?_⟩
    · rintro _ ⟨⟩
      exact label
    · rintro _ ⟨⟩
      rcases ofRow.parent with ⟨null, -⟩ | ⟨j, parent, small, -⟩
      · exact .inl (congrArg Value.toJson null)
      · exact .inr ⟨j, congrArg Value.toJson parent, small.fits⟩

/-- A sheet of lines is read as records that describe the rows of the lines, if the store takes what
the labels are read as. -/
theorem exists_records_of_labels (labels : ∀ line ∈ lines, ∃ value, Value.ofParameter (.column .label)
      (cellReader (lines.map (contentAt 1)) (contentAt 1 line)) = .ok value) :
    ∃ records, IsReadAs (headerLine :: lines) records ∧
      List.Forall₂ ImportRecord.Describes records rows := by
  obtain ⟨records, read, described⟩ := exists_forall₂ written
    fun line member row ofRow => exists_record written member ofRow (labels line member)
  exact ⟨records, (isReadAs_iff (last_headerLine
    (written.imp fun _ _ => IsOutlineLine.toIsPlacedLine))).mpr read, described⟩

end Outlines

/-- A sheet of lines is read as records that describe the rows of the lines. -/
theorem exists_records (written : List.Forall₂ IsLineOf lines rows) :
    ∃ records, IsReadAs (headerLine :: lines) records ∧
      List.Forall₂ ImportRecord.Describes records rows :=
  exists_records_of_labels (written.imp fun _ _ => IsLineOf.toIsOutlineLine) fun _ member =>
    (areLabels_labels written).exists_parameter (List.mem_map_of_mem member)

end Service
end AdjacencyForest
