import AdjacencyForest.Proofs.Columns
import AdjacencyForest.Proofs.Upsert

/-!
# Sheets that are read as records

Each row below the header of such a sheet is one record. What the cells hold is what the reader makes
of them; the order of the rows only orders the records.

Main statements: `importRecord_eq_ok`, the import finds the records; `isReadAs_perm`, the rows in
another order are the records in another order.
-/

namespace AdjacencyForest

/-- The data is an integer, with or without a fraction of zero. -/
def Json.IsInteger (given : Json) (i : Int) : Prop :=
  given = .int i ∨ ∃ x, given = .num x ∧ x.toInt? = some i

theorem Json.IsInteger.isFalsy {given : Json} {i : Int} (integer : given.IsInteger i) (key : i ≠ 0) :
    given.isFalsy = false := by
  rcases integer with rfl | ⟨x, rfl, whole⟩
  · simpa [Json.isFalsy] using key
  · cases x with
    | finite negative mantissa exponent =>
      refine Bool.eq_false_iff.mpr fun zero => key ?_
      have none : mantissa = 0 := by simpa [Json.isFalsy, Binary64.isZero] using zero
      have ratio : (Binary64.signedRatio negative 0 exponent).1 = 0 := by
        cases negative <;> simp [Binary64.signedRatio, Binary64.magnitudeRatio, apply_ite]
      rw [none, Binary64.toInt?] at whole
      simpa [ratio] using whole.symm
    | infinite => simp [Binary64.toInt?] at whole
    | nan => simp [Binary64.toInt?] at whole

theorem Json.IsInteger.toInteger {given : Json} {i : Int} (integer : given.IsInteger i) :
    given.toInteger = .ok i := by
  rcases integer with rfl | ⟨x, rfl, whole⟩
  · rfl
  · simp [Json.toInteger, Binary64.truncate?_of_toInt? whole]

theorem Json.IsInteger.ne_null {given : Json} {i : Int} (integer : given.IsInteger i) :
    given ≠ .null := by
  rintro rfl
  rcases integer with same | ⟨x, same, -⟩ <;> cases same

namespace Service

variable {record : ImportRecord} {records : List ImportRecord} {columns : ImportColumns}
  {cell : String → Option Json} {index : Nat} {header : List Cell} {rows others : List (List Cell)}

/-- A cell of a parent column is empty or an integer. -/
inductive IsParentCell : Json → Json → Prop where
  | blank : IsParentCell .null .null
  | integer {given : Json} {i : Int} (integer : given.IsInteger i) : IsParentCell given (.int i)

/-- A cell of a payload column is empty or a text that is read as data. -/
inductive IsPayloadCell : Json → Json → Prop where
  | blank : IsPayloadCell .null .null
  | text {text : String} {data : Json} (parsed : Json.parse text = .ok data) :
    IsPayloadCell (.str text) data

/-- The record is what the cells of a row hold, each column by its name. -/
structure ImportRecord.IsReadFrom (record : ImportRecord) (cell : String → Option Json) : Prop where
  key : ∃ given, cell "id" = some given ∧ given.IsInteger record.id
  label : record.label = cell "label"
  parent : Option.Rel IsParentCell (cell "parent_id") record.parent
  payload : Option.Rel IsPayloadCell (cell "meta") record.payload

def cellsAt (sheet : Sheet) (index : Nat) (name : String) : Option Json :=
  cellAt ((SheetTable.ofSheet sheet).column? name) index

/-- Each row below the header of the sheet is read as a record. -/
structure IsReadAs (sheet : Sheet) (records : List ImportRecord) : Prop where
  count : sheet.length = records.length + 1
  rows : ∀ index (record : ImportRecord), records[index]? = some record →
    record.IsReadFrom (cellsAt sheet index)

theorem convertOption_eq {convert : Json → Except ImportRefusal Json} {reads : Json → Json → Prop}
    (converts : ∀ given read, reads given read → convert given = .ok read)
    {given read : Option Json} (related : Option.Rel reads given read) :
    convertOption convert given = .ok read := by
  cases related with
  | none => rfl
  | some related =>
    rw [convertOption, converts _ _ related]
    rfl

theorem importParent_of_isParentCell {given read : Json} (cell : IsParentCell given read) :
    importParent given = .ok read := by
  cases cell with
  | blank => rfl
  | @integer _ i integer =>
    have converted : importInteger given = .ok i := by
      rw [importInteger, integer.toInteger]
      rfl
    rcases integer with rfl | ⟨x, rfl, -⟩
    · rfl
    · rw [importParent, converted]
      rfl
      exact fun null => Json.noConfusion null

theorem importPayload_of_isPayloadCell {given read : Json} (cell : IsPayloadCell given read) :
    importPayload given = .ok read := by
  cases cell with
  | blank => rfl
  | text parsed =>
    rw [importPayload, parsed]
    rfl

theorem importRecord_eq_ok {sheet : Sheet} (read : record.IsReadFrom (cellsAt sheet index))
    (key : record.id ≠ 0) :
    importRecord (.ofTable (.ofSheet sheet)) index = .ok (some record) := by
  obtain ⟨given, found, integer⟩ := read.key
  have converted : importInteger given = .ok record.id := by
    rw [importInteger, integer.toInteger]
    rfl
  have idCell : cellAt (ImportColumns.ofTable (.ofSheet sheet)).id index = some given := found
  unfold importRecord
  rw [idCell, Option.getD_some]
  dsimp only
  rw [integer.isFalsy key, if_neg (by decide)]
  refine bind_eq_ok.mpr ⟨record.id, converted, ?_⟩
  refine bind_eq_ok.mpr ⟨record.parent,
    convertOption_eq (fun _ _ cell => importParent_of_isParentCell cell) read.parent, ?_⟩
  refine bind_eq_ok.mpr ⟨record.payload,
    convertOption_eq (fun _ _ cell => importPayload_of_isPayloadCell cell) read.payload, ?_⟩
  have label : cellAt (ImportColumns.ofTable (.ofSheet sheet)).label index = record.label :=
    read.label.symm
  rw [label]
  rfl

/-! ## The rows in another order -/

theorem length_rows_ofSheet (sheet : Sheet) :
    (SheetTable.ofSheet sheet).rows.length = (contentRows sheet).length - 1 := by
  unfold SheetTable.ofSheet
  cases contentRows sheet <;> rfl

theorem lt_of_cellsAt {sheet : Sheet} {name : String} {given : Json}
    (found : cellsAt sheet index name = some given) (data : given ≠ .null) :
    index + 1 < (contentRows sheet).length := by
  obtain ⟨values, column, same⟩ := Option.map_eq_some_iff.mp found
  obtain ⟨position, -, rfl⟩ := Option.map_eq_some_iff.mp column
  have length := length_rows_ofSheet sheet
  by_contra outside
  refine data (same.symm.trans (List.getD_eq_default _ _ ?_))
  rw [columnValues_eq, List.length_map, List.length_map]
  omega

theorem cellsAt_eq (last : ∀ row ∈ (header :: rows).getLast?, contents row ≠ [])
    {row : List Cell} (found : rows[index]? = some row) :
    cellsAt (header :: rows) index = fun name => (rowReader header rows name).map (· row) := by
  funext name
  rw [cellsAt, column?_ofSheet last, cellAt, Option.map_map]
  congr 1
  funext read
  simp [found]

theorem IsReadAs.exists_key (read : IsReadAs (header :: rows) records)
    (inside : index < rows.length) :
    ∃ given i, cellsAt (header :: rows) index "id" = some given ∧ given.IsInteger i := by
  have listed : index < records.length := by
    have count := read.count
    rw [List.length_cons] at count
    omega
  obtain ⟨given, found, integer⟩ :=
    (read.rows index records[index] (List.getElem?_eq_getElem listed)).key
  exact ⟨given, _, found, integer⟩

theorem IsReadAs.last (read : IsReadAs (header :: rows) records) (some : rows ≠ []) :
    ∀ row ∈ (header :: rows).getLast?, contents row ≠ [] := by
  -- Only blank rows at the end are dropped, and the last row has a key.
  have positive := List.length_pos_iff.mpr some
  have final : rows.length - 1 < rows.length := by omega
  obtain ⟨given, i, found, integer⟩ := read.exists_key final
  have inside := lt_of_cellsAt found integer.ne_null
  refine last_of_length_le ?_
  rw [List.length_cons]
  omega

theorem IsReadAs.full (read : IsReadAs (header :: rows) records) :
    ∀ row ∈ rows, contents row ≠ [] := by
  intro row member blank
  have last := read.last (List.ne_nil_of_mem member)
  obtain ⟨index, inside, same⟩ := List.getElem_of_mem member
  obtain ⟨given, i, found, integer⟩ := read.exists_key inside
  rw [cellsAt_eq last (List.getElem?_eq_some_iff.mpr ⟨inside, same⟩)] at found
  -- In a blank row the key would be missing or an empty text, whatever the kind of the column.
  have empty : given = .null ∨ given = .str "" := by
    obtain ⟨reader, made, rfl⟩ := Option.map_eq_some_iff.mp found
    obtain ⟨position, -, rfl⟩ := Option.map_eq_some_iff.mp made
    have none : (filled (width (header :: rows)) row).getD position .blank = .blank := by
      rw [filled, blank, List.nil_append, List.getD_eq_getElem?_getD, List.getElem?_replicate]
      split <;> rfl
    dsimp only [Function.comp_apply]
    rw [none]
    exact cellReader_blank _
  rcases empty with rfl | rfl <;> rcases integer with same | ⟨x, same, -⟩ <;> cases same

theorem isReadAs_iff (last : ∀ row ∈ (header :: rows).getLast?, contents row ≠ []) :
    IsReadAs (header :: rows) records ↔ List.Forall₂ (fun row record =>
      ImportRecord.IsReadFrom record fun name => (rowReader header rows name).map (· row))
      rows records := by
  rw [List.forall₂_iff_get]
  constructor
  · intro read
    refine ⟨Nat.succ.inj read.count, fun index inside listed => ?_⟩
    have row := read.rows index _ (List.getElem?_eq_getElem listed)
    rwa [cellsAt_eq last (List.getElem?_eq_getElem inside)] at row
  · rintro ⟨count, related⟩
    refine ⟨congrArg Nat.succ count, fun index record found => ?_⟩
    obtain ⟨listed, rfl⟩ := List.getElem?_eq_some_iff.mp found
    have inside : index < rows.length := count ▸ listed
    rw [cellsAt_eq last (List.getElem?_eq_getElem inside)]
    exact related index inside listed

theorem isReadAs_perm (read : IsReadAs (header :: rows) records) (same : others.Perm rows) :
    ∃ reordered, reordered.Perm records ∧ IsReadAs (header :: others) reordered := by
  by_cases none : rows = []
  · obtain rfl := none
    obtain rfl := List.perm_nil.mp same
    exact ⟨records, .refl _, read⟩
  · obtain ⟨reordered, related, sameRecords⟩ :=
      List.perm_comp_forall₂ same ((isReadAs_iff (read.last none)).mp read)
    have others : others ≠ [] := fun empty => none (List.perm_nil.mp (empty ▸ same.symm))
    refine ⟨reordered, sameRecords, (isReadAs_iff fun row last => ?_).mpr ?_⟩
    · rw [List.getLast?_cons, List.getLast?_eq_getLast_of_ne_nil others] at last
      refine read.full row (same.mem_iff.mp ?_)
      exact Option.some.inj last ▸ List.getLast_mem others
    · rwa [rowReader_perm same]

end Service
end AdjacencyForest
