import AdjacencyForest.Proofs.Descriptions
import AdjacencyForest.Proofs.LabelReading
import AdjacencyForest.Proofs.RoundTrip

/-!
# Labels from a table to a workbook and back

The labels of a forest are any texts that cells can store. The workbook that is exported holds them
with the keys of their rows, and an import of it into the same table is refused or stores for each
exported row what the reader makes of its label among the others, and changes no other label.

Main statements: `isRelabelled_of_importSheet`, what an accepted import does to labels;
`exists_importSheet`, when an import is accepted; `exists_export_import_labels`, the whole way.
-/

namespace AdjacencyForest.Service

open Binary64 Table TreeModel

/-- A row with a text of one cell as its label. -/
structure IsLabelled (row : Row) : Prop where
  key : ∃ i, row.key = .int i ∧ IsSmall i
  label : ∃ text, row.label = .text text ∧ FitsCell text
  payload : row.HasObject

/-- The payload is null, or an object that is read back from its cell. -/
def HasCellPayload (row : Row) : Prop :=
  row.payload.getD .null = .null ∨ ∃ fields, row.payload = some (.obj fields) ∧
    (Json.obj fields).IsPortable ∧ (Json.obj fields).print.length ≤ Cell.textLimit

/-- The line is what an export makes of the row, with whatever a cell holds of its label. -/
structure IsLabelLine (line : List Cell) (row : Row) : Prop extends IsPlacedLine line row where
  label : contentAt 1 line = labelContent row.label
  outline : HasCellPayload row → IsOutlineLine line row

/-- The table after an import of exported rows: each of them has the label that is read back among
theirs, and the rows that are not exported are as they were. -/
structure IsRelabelled (table after : Table) (rows : List Row) : Prop where
  keys : List.map Row.key after = List.map Row.key table
  labels : ∀ row ∈ rows, ∃ new ∈ after, new.key = row.key ∧
    new.label = labelReadBack (rows.map Row.label) row.label
  others : ∀ row ∈ table, row ∉ rows → row ∈ after

variable {settings : Settings} {table after : Table} {row : Row} {rows : List Row}
  {treeRow : TreeRow} {shown : List TreeRow} {line : List Cell} {lines : List (List Cell)}
  {records : List ImportRecord} {record : ImportRecord} {read : Option ImportRecord}
  {columns : ImportColumns} {staging : Staging} {ids : List Int} {id : Int} {count index : Nat}
  {node : NodeFields} {data : Json} {sheet : Sheet} {changes : List (Row × NodeFields)}

/-! ## The lines of labels -/

theorem exists_labelLine (labelled : IsLabelled treeRow.row) (place : HasPlace treeRow)
    (anyMissing : Bool) : ∃ line, (exportRow anyMissing treeRow).mapM Cell.ofJson = .ok line ∧
      IsLabelLine line treeRow.row := by
  obtain ⟨text, label, fits⟩ := labelled.label
  obtain ⟨labelCell, labelWritten⟩ := exists_ofText fits.writable
  have labelWritten : Cell.ofJson treeRow.row.label.toJson = .ok labelCell := by
    rw [label]
    exact labelWritten
  have labelFound : labelContent treeRow.row.label = labelCell.read := by
    rw [labelContent, labelWritten]
  rcases labelled.payload with null | ⟨fields, payload⟩
  · have payloadWritten : Cell.ofJson (payloadText (treeRow.row.payload.getD .null)) = .ok .blank := by
      rw [null]
      rfl
    obtain ⟨line, written, placed, labelCells, payloadCells⟩ :=
      exists_placedLine place labelWritten payloadWritten anyMissing
    exact ⟨line, written, placed, labelCells.trans labelFound.symm,
      fun _ => ⟨placed, .inl ⟨null, payloadCells⟩⟩⟩
  · obtain ⟨payloadCell, objectWritten⟩ := exists_ofText_print (.obj fields)
    have payloadWritten : Cell.ofJson (payloadText (treeRow.row.payload.getD .null)) =
        .ok payloadCell := by
      rw [payload]
      exact objectWritten
    obtain ⟨line, written, placed, labelCells, payloadCells⟩ :=
      exists_placedLine place labelWritten payloadWritten anyMissing
    refine ⟨line, written, placed, labelCells.trans labelFound.symm, fun readable => ⟨placed, ?_⟩⟩
    rcases readable with null | ⟨others, same, portable, short⟩
    · rw [payload] at null
      cases null
    · obtain rfl := Json.obj.inj (Option.some.inj (payload.symm.trans same))
      exact .inr ⟨fields, payload, portable,
        payloadCells.trans (read_print_obj short objectWritten)⟩

section Lines

variable (written : List.Forall₂ IsLabelLine lines rows)
include written

theorem map_contentAt_label : lines.map (contentAt 1) = (rows.map Row.label).map labelContent := by
  induction written with
  | nil => rfl
  | cons first _ ih => rw [List.map_cons, List.map_cons, List.map_cons, ih, first.label]

theorem cellReader_label (ofRow : IsLabelLine line row) :
    cellReader (lines.map (contentAt 1)) (contentAt 1 line) =
      labelData (rows.map Row.label) row.label := by
  rw [map_contentAt_label written, ofRow.label, labelData]

/-- A record that is read in a line has the key of its row and what is made of its label. -/
theorem exists_record_of_line (found : lines[index]? = some line) (ofRow : IsLabelLine line row)
    (done : importRecord (.ofTable (.ofSheet (headerLine :: lines))) index = .ok read) :
    ∃ record, read = some record ∧ row.key = .int record.id ∧
      record.label = some (labelData (rows.map Row.label) row.label) := by
  have placed := written.imp fun _ _ => IsLabelLine.toIsPlacedLine
  have shaped := shaped_lines placed
  have member := List.mem_of_getElem? found
  obtain ⟨i, key, small, integer⟩ := exists_keyCell placed member ofRow.toIsPlacedLine
  have cells := cellsAt_eq (last_headerLine placed) found
  have idCell : cellAt (ImportColumns.ofTable (.ofSheet (headerLine :: lines))).id index =
      some (cellReader (lines.map (contentAt 0)) (contentAt 0 line)) :=
    (congrFun cells "id").trans
      (@rowReader_headerLine lines line "id" 0 shaped (by decide +kernel) member)
  have labelCell : cellAt (ImportColumns.ofTable (.ofSheet (headerLine :: lines))).label index =
      some (labelData (rows.map Row.label) row.label) := by
    rw [← cellReader_label written ofRow]
    exact (congrFun cells "label").trans
      (@rowReader_headerLine lines line "label" 1 shaped (by decide +kernel) member)
  unfold importRecord at done
  rw [idCell, Option.getD_some] at done
  dsimp only at done
  rw [integer.isFalsy small.nonzero, if_neg Bool.false_ne_true] at done
  obtain ⟨id, converted, done⟩ := bind_eq_ok.mp done
  obtain ⟨parent, -, done⟩ := bind_eq_ok.mp done
  obtain ⟨payload, -, done⟩ := bind_eq_ok.mp done
  obtain rfl := pure_eq_ok.mp done
  have same : i = id := by
    have given := mapError_eq_ok.mp converted
    rw [integer.toInteger] at given
    exact Except.ok.inj given
  exact ⟨_, rfl, same ▸ key, labelCell⟩

theorem length_rows_headerLine :
    (SheetTable.ofSheet (headerLine :: lines)).rows.length = lines.length := by
  have last := last_headerLine (written.imp fun _ _ => IsLabelLine.toIsPlacedLine)
  rw [length_rows_ofSheet, contentRows_eq last, List.length_map]
  rfl

end Lines

/-! ## What is read of the lines -/

theorem exists_of_stageRows (staged : stageRows table columns count = .ok (staging, ids))
    (inside : index < count) : ∃ read, importRecord columns index = .ok read := by
  obtain ⟨_, _, step⟩ := exists_step_of_foldlM staged (List.mem_range.mpr inside)
  obtain ⟨read, found, -⟩ := bind_eq_ok.mp step
  exact ⟨read, found⟩

theorem mem_recordsOf_iff : record ∈ recordsOf sheet ↔
    ∃ index < (SheetTable.ofSheet sheet).rows.length,
      importRecord (.ofTable (.ofSheet sheet)) index = .ok (some record) := by
  have joined (index : Nat) :
      (importRecord (.ofTable (.ofSheet sheet)) index).toOption.join = some record ↔
        importRecord (.ofTable (.ofSheet sheet)) index = .ok (some record) := by
    cases importRecord (.ofTable (.ofSheet sheet)) index <;> simp [Except.toOption]
  simp only [recordsOf, recordsUpTo, List.mem_filterMap, List.mem_range, joined]

/-- The records tell the keys and the labels of the rows, and no other key or label. -/
structure TellLabels (records : List ImportRecord) (rows : List Row) : Prop where
  sound : ∀ record ∈ records, ∃ row ∈ rows, row.key = .int record.id ∧
    record.label = some (labelData (rows.map Row.label) row.label)
  complete : ∀ row ∈ rows, ∃ record ∈ records, row.key = .int record.id

theorem tellLabels (written : List.Forall₂ IsLabelLine lines rows)
    (staged : stageRows table (.ofTable (.ofSheet (headerLine :: lines)))
      (SheetTable.ofSheet (headerLine :: lines)).rows.length = .ok (staging, ids)) :
    TellLabels (recordsOf (headerLine :: lines)) rows where
  sound record member := by
    obtain ⟨index, inside, done⟩ := mem_recordsOf_iff.mp member
    rw [length_rows_headerLine written] at inside
    obtain ⟨row, listed, ofRow⟩ := exists_of_forall₂ written (List.getElem_mem inside)
    obtain ⟨_, same, key, label⟩ :=
      exists_record_of_line written (List.getElem?_eq_getElem inside) ofRow done
    obtain rfl := Option.some.inj same
    exact ⟨row, listed, key, label⟩
  complete row listed := by
    obtain ⟨line, member, ofRow⟩ := exists_of_forall₂ written.flip listed
    obtain ⟨index, found⟩ := List.getElem?_of_mem member
    have inside : index < (SheetTable.ofSheet (headerLine :: lines)).rows.length := by
      rw [length_rows_headerLine written]
      exact (List.getElem?_eq_some_iff.mp found).1
    obtain ⟨read, done⟩ := exists_of_stageRows staged inside
    obtain ⟨record, rfl, key, -⟩ := exists_record_of_line written found ofRow done
    exact ⟨record, mem_recordsOf_iff.mpr ⟨index, inside, done⟩, key⟩

/-! ## What is written -/

theorem label_foldl_applyTo (nonempty : records ≠ []) (same : ∀ record ∈ records, record.label = some data) :
    (records.foldl (fun node record => record.applyTo node) node).label = data := by
  induction records using List.reverseRecOn with
  | nil => exact absurd rfl nonempty
  | append_singleton before last _ =>
    rw [List.foldl_append, List.foldl_cons, List.foldl_nil, last.label_applyTo,
      same last (by simp)]
    rfl

/-- Records of a key that all have one label describe a node with this label. -/
theorem label_described (known : ∃ record ∈ records, record.id = id)
    (same : ∀ record ∈ records, record.id = id → record.label = some data) :
    (described table records id).label = data := by
  obtain ⟨record, member, rfl⟩ := known
  refine label_foldl_applyTo (List.ne_nil_of_mem (List.mem_filter.mpr ⟨member, beq_self_eq_true _⟩))
    fun other listed => ?_
  obtain ⟨found, key⟩ := List.mem_filter.mp listed
  exact same other found (beq_iff_eq.mp key)

theorem label_rewritten {text : String} (label : row.label = .text text)
    (sameKey : (NodeFields.ofRow row).key.alike node.key = true) :
    (rewritten (.ofRow row) node row).label = standard.columnValue .label node.label := by
  rw [rewritten_eq sameKey]
  dsimp only
  split
  next alike =>
    have same : (Json.str text).alike node.label = true := by
      rwa [NodeFields.ofRow, label, Value.toJson] at alike
    rw [eq_str_of_alike same, columnValue_label, label]
  next => rfl

theorem map_key_foldl_applyChange :
    List.map Row.key (changes.foldl applyChange table) = List.map Row.key table := by
  refine List.foldlRecOn (motive := fun after => List.map Row.key after = List.map Row.key table)
    changes applyChange rfl fun before kept change _ => ?_
  exact map_key_modify.trans kept

/-- What a staging without new nodes writes: its changes, in the order of their keys. -/
theorem exists_changes_of_write (covers : staging.Covers table ids) (none : staging.additions = [])
    (written : staging.write table = .ok after) :
    ∃ changes : List (Row × NodeFields), changes.Perm staging.changes ∧
      (∀ change ∈ changes, (NodeFields.ofRow change.1).key.alike change.2.key = true) ∧
      after = changes.foldl applyChange table := by
  have sorted := List.mergeSort_perm staging.changes fun a b => a.1.key.compareWith b.1.key != .gt
  obtain ⟨middle, rewrites, inserts⟩ := bind_eq_ok.mp written
  rw [none] at inserts
  obtain rfl := pure_eq_ok.mp inserts
  have sameKeys (change : Row × NodeFields) (member : change ∈ staging.changes.mergeSort
      fun a b => a.1.key.compareWith b.1.key != .gt) := covers.sameKey (sorted.subset member)
  exact ⟨_, sorted, sameKeys, foldlM_updateNode_eq_ok sameKeys rewrites⟩

namespace IsRelabelled

variable {new : Row} (relabelled : IsRelabelled table after rows) (keyed : table.IsKeyed .integer)
include relabelled keyed

theorem eq_of_key (member : new ∈ after) {other : Row} (otherMember : other ∈ after)
    (same : new.key = other.key) : new = other :=
  List.inj_on_of_nodup_map (relabelled.keys ▸ keyed.distinct) member otherMember same

theorem label_eq (member : new ∈ after) (listed : row ∈ rows) (same : new.key = row.key) :
    new.label = labelReadBack (rows.map Row.label) row.label := by
  obtain ⟨other, found, key, label⟩ := relabelled.labels row listed
  rwa [relabelled.eq_of_key keyed member found (same.trans key.symm)]

/-- All labels are as before iff all that are exported are read back as they were. -/
theorem map_label_eq_iff (inside : ∀ row ∈ rows, row ∈ table) :
    List.map Row.label after = List.map Row.label table ↔
      ∀ row ∈ rows, labelReadBack (rows.map Row.label) row.label = row.label := by
  have length : after.length = table.length := by simpa using congrArg List.length relabelled.keys
  have key (index : Nat) (first : index < after.length) (second : index < table.length) :
      after[index].key = table[index].key := by
    have same := List.getElem_of_eq relabelled.keys (by simpa using first)
    simpa using same
  constructor
  · intro same row listed
    obtain ⟨index, second, rfl⟩ := List.getElem_of_mem (inside row listed)
    have first : index < after.length := length ▸ second
    have kept := List.getElem_of_eq same (by simpa using first)
    rw [List.getElem_map, List.getElem_map] at kept
    rw [← relabelled.label_eq keyed (List.getElem_mem first) listed (key index first second), kept]
  · intro kept
    refine List.ext_getElem (by simpa using length) fun index first second => ?_
    rw [List.length_map] at first second
    rw [List.getElem_map, List.getElem_map]
    by_cases listed : table[index] ∈ rows
    · rw [relabelled.label_eq keyed (List.getElem_mem first) listed (key index first second),
        kept _ listed]
    · have own := relabelled.others _ (List.getElem_mem second) listed
      rw [relabelled.eq_of_key keyed (List.getElem_mem first) own (key index first second)]

end IsRelabelled

theorem isRelabelled_of_write (keyed : table.IsKeyed .integer)
    (texts : ∀ row ∈ table, ∃ text, row.label = .text text) (inside : ∀ row ∈ rows, row ∈ table)
    (covers : staging.Covers table ids) (stages : Stages table records staging)
    (tell : TellLabels records rows) (written : staging.write table = .ok after) :
    IsRelabelled table after rows := by
  have found {row : Row} {record : ImportRecord} (listed : row ∈ rows)
      (key : row.key = .int record.id) : table.find? (.int record.id) = some row :=
    (find?_iff keyed).mpr ⟨inside row listed, key⟩
  -- Each line is of a row that exists, so nothing is added.
  have none : staging.additions = [] := by
    rw [stages.additions]
    refine List.map_eq_nil_iff.mpr (List.filter_eq_nil_iff.mpr fun record member => ?_)
    obtain ⟨row, listed, key, -⟩ := tell.sound record member
    simp [contains_of_find? (found listed key)]
  obtain ⟨changes, same, sameKeys, rfl⟩ := exists_changes_of_write covers none written
  have mem_after {row : Row} := @mem_foldl_applyChange table row changes keyed
    (fun change member => (covers.rows change (same.subset member)).1)
    ((same.map fun change => change.1.key).nodup_iff.mpr stages.distinct)
  refine ⟨map_key_foldl_applyChange, fun row listed => ?_, fun row member absent => ?_⟩
  · obtain ⟨record, member, key⟩ := tell.complete row listed
    obtain ⟨text, label⟩ := texts row (inside row listed)
    have change : (row, described table records record.id) ∈ changes := same.symm.subset
      ((stages.changes _).mpr ⟨record, member, found listed key, rfl⟩)
    refine ⟨_, mem_after.mpr (.inr ⟨_, change, rfl⟩), rfl, ?_⟩
    refine (label_rewritten label (sameKeys _ change)).trans ?_
    rw [label_described ⟨record, member, rfl⟩ fun other otherMember sameId => ?_, labelReadBack]
    obtain ⟨otherRow, otherListed, otherKey, otherLabel⟩ := tell.sound other otherMember
    rw [sameId, ← key] at otherKey
    rwa [keyed.eq_of_key (inside otherRow otherListed) (inside row listed) otherKey] at otherLabel
  · refine mem_after.mpr (.inl ⟨member, fun change staged sameKey => absent ?_⟩)
    obtain ⟨record, listed, looked, -⟩ := (stages.changes change).mp (same.subset staged)
    obtain ⟨own, ownListed, ownKey, -⟩ := tell.sound record listed
    obtain ⟨changed, changedKey⟩ := mem_of_find? looked
    rw [keyed.eq_of_key member (inside own ownListed)
      (sameKey.symm.trans (changedKey.trans ownKey.symm))]
    exact ownListed

/-! ## The whole import -/

section Import

variable (written : List.Forall₂ IsLabelLine lines rows) (inside : ∀ row ∈ rows, row ∈ table)
include written inside

theorem isRelabelled_of_importSheet (keyed : table.IsKeyed .integer)
    (texts : ∀ row ∈ table, ∃ text, row.label = .text text)
    (imported : importSheet settings table (headerLine :: lines) = .ok (after, count)) :
    count = rows.length ∧ IsRelabelled table after rows := by
  obtain ⟨staging, ids, staged, write, -, rfl⟩ := importSheet_eq_ok_iff.mp imported
  exact ⟨(length_rows_headerLine written).trans written.length_eq,
    isRelabelled_of_write keyed texts inside (stageRows_covers keyed staged)
      (stages_of_stageRows staged) (tellLabels written staged) write⟩

/-- The import is accepted if all payloads are read back and the store takes what is read of the
labels. -/
theorem exists_importSheet (supported : settings.registry.grammarFor .sqlite = .ok .sqlite)
    (forest : table.IsForest) (labelled : ∀ row ∈ table, IsLabelled row) (distinct : rows.Nodup)
    (payloads : ∀ row ∈ rows, HasCellPayload row)
    (stored : ∀ row ∈ rows, ∃ value, Value.ofParameter (.column .label)
      (labelData (rows.map Row.label) row.label) = .ok value) :
    ∃ after, importSheet settings table (headerLine :: lines) = .ok (after, rows.length) ∧
      List.map Row.outline after = List.map Row.outline table := by
  have outlined : List.Forall₂ IsOutlineLine lines rows := by
    refine List.forall₂_iff_zip.mpr ⟨written.length_eq, fun {line row} paired => ?_⟩
    have ofRow := (List.forall₂_iff_zip.mp written).2 paired
    exact ofRow.outline (payloads row (List.of_mem_zip paired).2)
  obtain ⟨records, read, described⟩ := exists_records_of_labels outlined fun line member => by
    obtain ⟨row, listed, ofRow⟩ := exists_of_forall₂ written member
    rw [cellReader_label written ofRow]
    exact stored row listed
  have describes : ∀ record ∈ records, ∃ row ∈ table, record.Describes row := fun record listed => by
    obtain ⟨row, found, describes⟩ := exists_of_forall₂ described listed
    exact ⟨row, inside row found, describes⟩
  obtain ⟨after, changed, outlines⟩ := exists_write_present forest.keyed
    (fun row member => .inr ((labelled row member).label.imp fun _ => And.left))
    (fun row member => (labelled row member).payload) describes
  have writable : ∀ record ∈ records, record.IsWritable := fun record listed => by
    obtain ⟨_, -, describes⟩ := describes record listed
    exact describes.writable
  have distinctIds : (records.map ImportRecord.id).Nodup := by
    refine List.Nodup.of_map Value.int ?_
    rw [← key_of_described described]
    exact distinct.map_on fun row listed other otherListed =>
      forest.keyed.eq_of_key (inside row listed) (inside other otherListed)
  have length : after.length = table.length := by simpa using congrArg List.length outlines
  have fitsLength := fits_length_of_isSmall forest.keyed fun row member => (labelled row member).key
  refine ⟨after, ?_, outlines⟩
  rw [← described.length_eq]
  exact importSheet_eq_ok supported read writable distinctIds changed
    (isForest_of_outlines (.of_eq outlines) forest) (length ▸ fitsLength)

end Import

/-- The rows that an export of the table shows: all of them if no limit of depth is set. -/
structure IsExported (settings : Settings) (table : Table) (rows : List Row) : Prop where
  shown : (treeRows settings table).map (List.map TreeRow.row) = .ok rows
  nonempty : rows ≠ []
  inside : ∀ row ∈ rows, row ∈ table
  all : settings.treeMaxDepth = none → rows.Perm table

theorem exists_labelSheet (forest : table.IsForest) (labelled : ∀ row ∈ table, IsLabelled row)
    (supported : settings.registry.grammarFor .sqlite = .ok .sqlite)
    (bounds : IsStepLimit settings.treeMaxDepth) (nonempty : table ≠ []) :
    ∃ rows lines, IsExported settings table rows ∧ rows.Nodup ∧
      List.Forall₂ IsLabelLine lines rows ∧
      answerExport settings table = .ok (.workbook (headerLine :: lines)) := by
  obtain ⟨shown, made, some, distinct, placed, all⟩ := exists_placedRows forest
    (fun row member => (labelled row member).key) supported bounds
  obtain ⟨lines, sheet, written⟩ := exists_sheet_of_lines fun treeRow member anyMissing =>
    exists_labelLine (labelled _ (placed treeRow member).1) (placed treeRow member).2 anyMissing
  refine ⟨_, lines, ⟨by rw [made]; rfl, ?_, fun row listed => ?_, all⟩, distinct, written, ?_⟩
  · exact fun none => some nonempty (List.map_eq_nil_iff.mp none)
  · obtain ⟨treeRow, member, rfl⟩ := List.mem_map.mp listed
    exact (placed treeRow member).1
  · exact answerExport_eq_ok made (some nonempty) sheet

/-- A forest with any labels is exported, and an import of the workbook is refused or keeps exactly
the labels that the column gives back. It is accepted if all payloads and labels are read as something
that is stored. -/
theorem exists_export_import_labels {request importing : Request} {key importKey name : String}
    (forest : table.IsForest) (labelled : ∀ row ∈ table, IsLabelled row)
    (supported : settings.registry.grammarFor .sqlite = .ok .sqlite)
    (bounds : IsStepLimit settings.treeMaxDepth) (nonempty : table ≠ [])
    (asked : request.Asks .exportNodes key) (sendable : request.body.isSendable = true)
    (importAsked : importing.Asks .importNodes importKey) (named : name.endsWith ".xlsx" = true) :
    ∃ rows sheet, IsExported settings table rows ∧
      respond settings table request = (table, .ok (.workbook sheet)) ∧
      ((∃ message, respond settings table (importing.uploading name sheet) =
          (table, .error (.status 400 message))) ∨
        ∃ after, respond settings table (importing.uploading name sheet) = (after,
            .ok (.json (.obj [("detail", .str s!"Successfully processed {rows.length} rows.")]))) ∧
          IsRelabelled table after rows ∧
          (List.map Row.label after = List.map Row.label table ↔
            ∀ row ∈ rows, labelReadBack (rows.map Row.label) row.label = row.label)) ∧
      ((∀ row ∈ rows, HasCellPayload row) →
        (∀ row ∈ rows, ∃ value, Value.ofParameter (.column .label)
          (labelData (rows.map Row.label) row.label) = .ok value) →
        ∃ after, respond settings table (importing.uploading name sheet) = (after,
            .ok (.json (.obj [("detail", .str s!"Successfully processed {rows.length} rows.")]))) ∧
          List.map Row.outline after = List.map Row.outline table) ∧
      KeepsLabels (rows.map Row.label) := by
  obtain ⟨rows, lines, exported, distinct, written, answered⟩ :=
    exists_labelSheet forest labelled supported bounds nonempty
  have inside := exported.inside
  refine ⟨rows, headerLine :: lines, exported,
    respond_of_perform asked sendable (reading_eq_ok answered), ?_, fun payloads stored => ?_, ?_⟩
  · cases imported : importSheet settings table (headerLine :: lines) with
    | error refusal =>
      refine .inl ⟨refusal.message, ?_⟩
      rw [respond, outcome_uploading settings table _ importAsked named, imported]
    | ok result =>
      obtain ⟨after, count⟩ := result
      obtain ⟨rfl, relabelled⟩ := isRelabelled_of_importSheet written inside forest.keyed
        (fun row member => (labelled row member).label.imp fun _ => And.left) imported
      exact .inr ⟨after, respond_uploading_of_importSheet importAsked named imported, relabelled,
        relabelled.map_label_eq_iff forest.keyed inside⟩
  · obtain ⟨after, imported, outlines⟩ := exists_importSheet written inside supported forest labelled
      distinct payloads stored
    exact ⟨after, respond_uploading_of_importSheet importAsked named imported, outlines⟩
  · refine keepsLabels fun text member => ?_
    obtain ⟨row, listed, same⟩ := List.mem_map.mp member
    obtain ⟨own, label, fits⟩ := (labelled row (inside row listed)).label
    obtain rfl := Value.text.inj (same.symm.trans label)
    exact fits

/-- A root, and below it a node whose label is a word for a missing value. -/
def unavailableTable : Table :=
  [⟨.int 1, .null, .text "Root", none⟩, ⟨.int 2, .int 1, .text "NA", some (.obj [])⟩]

theorem isForest_unavailableTable : unavailableTable.IsForest where
  keyed := {
    key := by simp [unavailableTable, KeyKind.Admits]
    parent := by simp [unavailableTable, KeyKind.Admits]
    distinct := by decide }
  parents := by decide +kernel
  acyclic := by
    let rank := fun row : Row => if row.key = .int 1 then 0 else 1
    have falls : ∀ row ∈ unavailableTable, ∀ next ∈ unavailableTable, next.key = row.parent →
        rank next < rank row := by decide +kernel
    exact Table.not_onCycle_of_falls rank fun _ _ joined => falls _ joined.1 _ joined.2.1 joined.2.2

theorem isLabelled_unavailableTable : ∀ row ∈ unavailableTable, IsLabelled row := by
  have rootLength : "Root".length = 4 := by decide +kernel
  have rootFits : FitsCell "Root" := {
    short := by simp [rootLength, Cell.textLimit]
    writable := List.all_eq_true.mp (by decide +kernel) }
  have lostLength : "NA".length = 2 := by decide +kernel
  have lostFits : FitsCell "NA" := {
    short := by simp [lostLength, Cell.textLimit]
    writable := List.all_eq_true.mp (by decide +kernel) }
  intro row member
  rcases List.mem_cons.mp member with rfl | member
  · exact ⟨⟨1, rfl, by decide, by decide⟩, ⟨"Root", rfl, rootFits⟩, .inl rfl⟩
  · obtain rfl := List.mem_singleton.mp member
    exact ⟨⟨2, rfl, by decide, by decide⟩, ⟨"NA", rfl, lostFits⟩, .inr ⟨[], rfl⟩⟩

theorem hasCellPayload_unavailableTable : ∀ row ∈ unavailableTable, HasCellPayload row := by
  intro row member
  rcases List.mem_cons.mp member with rfl | member
  · exact .inl rfl
  · obtain rfl := List.mem_singleton.mp member
    have length : (Json.obj []).print.length = 2 := by decide +kernel
    exact .inr ⟨[], rfl, by simp [Json.IsPortable, Json.AreFieldsPortable],
      by simp [length, Cell.textLimit]⟩

/-- One label comes back, and the other is lost. -/
theorem export_import_labels_unavailable :
    ∃ sheet after, respond {} unavailableTable exportRequest = (unavailableTable, .ok (.workbook sheet)) ∧
      respond {} unavailableTable (importRequest.uploading "nodes.xlsx" sheet) = (after,
        .ok (.json (.obj [("detail", .str "Successfully processed 2 rows.")]))) ∧
      (∃ row ∈ after, row.key = .int 1 ∧ row.label = .text "Root") ∧
      (∃ row ∈ after, row.key = .int 2 ∧ row.label = .null) ∧
      List.map Row.label after ≠ List.map Row.label unavailableTable := by
  have supported : ({} : Settings).registry.grammarFor .sqlite = .ok .sqlite := rfl
  have named : "nodes.xlsx".endsWith ".xlsx" = true := by decide +kernel
  have bounds : IsStepLimit ({} : Settings).treeMaxDepth := fun _ given => by cases given
  have asked : exportRequest.Asks .exportNodes "" := by
    unfold Request.Asks
    decide +kernel
  obtain ⟨rows, sheet, exported, sent, answered, accepted, keeps⟩ :=
    exists_export_import_labels isForest_unavailableTable isLabelled_unavailableTable supported bounds
      (List.cons_ne_nil _ _) asked rfl asks_importRequest named
  have all := exported.all rfl
  have length : rows.length = 2 := all.length_eq
  have root := all.symm.subset (List.mem_cons_self : _ ∈ unavailableTable)
  have lost := all.symm.subset (List.mem_cons_of_mem _ List.mem_cons_self : _ ∈ unavailableTable)
  have mixed : IsMixed (rows.map Row.label) :=
    ⟨⟨_, List.mem_map_of_mem root, by decide +kernel⟩, ⟨_, List.mem_map_of_mem root, by decide +kernel⟩⟩
  have rootLabel : labelReadBack (rows.map Row.label) (.text "Root") = .text "Root" := by
    rw [labelReadBack, labelData_of_mixed mixed]
    decide +kernel
  have lostLabel : labelReadBack (rows.map Row.label) (.text "NA") = .null := by
    rw [labelReadBack, labelData_of_mixed mixed]
    decide +kernel
  have stored : ∀ row ∈ rows, ∃ value, Value.ofParameter (.column .label)
      (labelData (rows.map Row.label) row.label) = .ok value := by
    intro row listed
    rw [labelData_of_mixed mixed]
    rcases List.mem_cons.mp (exported.inside row listed) with rfl | member
    · exact ⟨.text "Root", rfl⟩
    · obtain rfl := List.mem_singleton.mp member
      exact ⟨.null, rfl⟩
  obtain ⟨after, imported, -⟩ := accepted
    (fun row listed => hasCellPayload_unavailableTable row (exported.inside row listed)) stored
  rcases answered with ⟨message, refused⟩ | ⟨other, importedOther, relabelled, same⟩
  · cases (Prod.mk.inj (refused.symm.trans imported)).2
  · obtain rfl := (Prod.mk.inj (importedOther.symm.trans imported)).1
    rw [length] at imported
    refine ⟨sheet, other, sent, imported, ?_, ?_, fun kept => ?_⟩
    · obtain ⟨new, member, key, label⟩ := relabelled.labels _ root
      exact ⟨new, member, key, label.trans rootLabel⟩
    · obtain ⟨new, member, key, label⟩ := relabelled.labels _ lost
      exact ⟨new, member, key, label.trans lostLabel⟩
    · have back := same.mp kept _ lost
      rw [lostLabel] at back
      cases back

end AdjacencyForest.Service
