import AdjacencyForest.Proofs.Batch
import AdjacencyForest.Proofs.Requests
import AdjacencyForest.Proofs.SheetReading

/-!
# Accepted imports

An import of a sheet that is read as records writes all of them or none. Which of the two is decided
by the table with all records written: each of their rows must be a root, or have its parent there
and be on no cycle. The order of the rows plays no part.

Main statement: `respond_uploading_perm`.
-/

open Relation

namespace AdjacencyForest.Service

open Table

variable {settings : Settings} {table : Table} {row : Row} {record : ImportRecord}
  {records : List ImportRecord} {sheet : Sheet} {id : Int} {ids : List Int}

/-- The rows of the keys may stay where they are. -/
def Accepts (table : Table) (ids : List Int) : Prop :=
  ∀ row ∈ table, row.key ∈ ids.map Value.int → IsPlaced table row

theorem checkPlacement_of_isPlaced (keyed : table.IsKeyed .integer) (fits : fitsInt64 id = true)
    (fitsLength : fitsInt64 table.length = true)
    (supported : settings.registry.grammarFor .sqlite = .ok .sqlite)
    (placed : ∀ row ∈ table, row.key = .int id → IsPlaced table row) :
    checkPlacement settings table id = .ok () := by
  refine checkPlacement_eq_ok.mpr fun row found => ?_
  obtain ⟨member, rowKey⟩ := (find?_iff keyed).mp found
  refine (placed row member rowKey).imp_right fun ⟨present, around⟩ => ⟨present, ?_⟩
  obtain ⟨below, answered⟩ := exists_isAtOrBelow keyed rowKey fits fitsLength supported row.parent
  cases below with
  | false => exact answered
  | true =>
    have reached := (isAtOrBelow_iff keyed member answered).mp rfl
    exact absurd ((onCycle_iff_below member).mpr reached) around

theorem forM_checkPlacement_eq_ok (keyed : table.IsKeyed .integer)
    (fits : ∀ id ∈ ids, fitsInt64 id = true) (fitsLength : fitsInt64 table.length = true)
    (supported : settings.registry.grammarFor .sqlite = .ok .sqlite) :
    ids.forM (checkPlacement settings table) = .ok () ↔ Accepts table ids := by
  rw [forM_eq_ok]
  constructor
  · intro checked row member inside
    obtain ⟨id, listed, key⟩ := List.mem_map.mp inside
    exact isPlaced_of_checkPlacement keyed (checked id listed) member key.symm
  · intro accepted id listed
    refine checkPlacement_of_isPlaced keyed (fits id listed) fitsLength supported
      fun row member rowKey => accepted row member ?_
    exact rowKey ▸ List.mem_map_of_mem listed

theorem length_upsert_le (merge : ImportRecord → Row → Row) (table : Table)
    (records : List ImportRecord) : (upsert merge table records).length ≤ table.length + records.length := by
  induction records generalizing table with
  | nil => exact Nat.le_refl _
  | cons record rest ih =>
    have one : (upsertRecord merge table record).length ≤ table.length + 1 := by
      unfold upsertRecord
      split
      · exact (List.length_map _).le.trans (Nat.le_succ _)
      · exact (insert_perm .integer record.newRow table).length_eq.le
    have later := ih (upsertRecord merge table record)
    rw [List.length_cons]
    exact later.trans (by omega)

theorem IsReadAs.length_rows (read : IsReadAs sheet records) :
    (SheetTable.ofSheet sheet).rows.length = records.length := by
  have length := length_rows_ofSheet sheet
  have most := length_contentRows_le sheet
  have count := read.count
  cases sheet with
  | nil => simp at count
  | cons header rows =>
    rw [List.length_cons] at most count
    by_cases none : rows = []
    · obtain rfl := none
      rw [List.length_nil] at most count
      omega
    · have all := congrArg List.length (contentRows_eq (read.last none))
      rw [List.length_map, List.length_cons] at all
      omega

theorem stageRows_eq_ok (read : IsReadAs sheet records)
    (writable : ∀ record ∈ records, record.IsWritable)
    (distinct : (records.map ImportRecord.id).Nodup) {count : Nat} (rows : count ≤ records.length) :
    stageRows table (.ofTable (.ofSheet sheet)) count =
      .ok (stagingOf table (records.take count), (records.take count).map ImportRecord.id) := by
  -- Each row is staged against the table before the import, not against the rows above it.
  induction count with
  | zero => rfl
  | succ count ih =>
    have found : records[count]? = some records[count] := List.getElem?_eq_getElem rows
    have member : records[count] ∈ records := List.getElem_mem rows
    have fresh : records[count].id ∉ (records.take count).map ImportRecord.id := by
      have taken := distinct.sublist ((List.take_sublist (count + 1) records).map ImportRecord.id)
      rw [List.take_succ_eq_append_getElem rows, List.map_append, List.map_singleton,
        List.nodup_append_comm, List.singleton_append] at taken
      exact (List.nodup_cons.mp taken).1
    have before := ih (by omega)
    unfold stageRows at before ⊢
    rw [List.range_succ, List.foldlM_append]
    refine bind_eq_ok.mpr ⟨_, before, ?_⟩
    rw [List.foldlM_cons, importRecord_eq_ok (read.rows count _ found) (writable _ member).key,
      List.take_succ_eq_append_getElem rows, List.map_append, List.map_singleton]
    refine bind_eq_ok.mpr ⟨_, bind_eq_ok.mpr ⟨_, rfl, ?_⟩, rfl⟩
    refine bind_eq_ok.mpr ⟨_, mapError_eq_ok.mpr (add_stagingOf (writable _ member).fits fresh), rfl⟩

theorem importSheet_eq (keyed : table.IsKeyed .integer) (labels : table.HasLabels)
    (read : IsReadAs sheet records) (valid : ∀ record ∈ records, record.IsValid)
    (distinct : (records.map ImportRecord.id).Nodup) :
    importSheet settings table sheet = do
      (records.map ImportRecord.id).forM
        (checkPlacement settings (upsert ImportRecord.merge table records))
      return (upsert ImportRecord.merge table records, records.length) := by
  have writable : ∀ record ∈ records, record.IsWritable := fun record listed =>
    (valid record listed).isWritable
  unfold importSheet
  dsimp only
  rw [read.length_rows, stageRows_eq_ok read writable distinct (Nat.le_refl _), List.take_length]
  have written : ((stagingOf table records).write table).mapError ImportRefusal.fault =
      .ok (upsert ImportRecord.merge table records) :=
    mapError_eq_ok.mpr (write_stagingOf keyed labels valid distinct)
  dsimp only [bind, Except.bind]
  rw [written]

def Request.uploading (request : Request) (name : String) (sheet : Sheet) : Request :=
  { request with body := .file "file" name (.workbook sheet) }

theorem uploadOf_uploading {request : Request} {name : String}
    (named : name.endsWith ".xlsx" = true) :
    uploadOf (request.uploading name sheet).body = .ok (.workbook sheet) := by
  have given : name.isEmpty = false := by
    refine Bool.eq_false_iff.mpr fun none => ?_
    rw [String.isEmpty_iff.mp none] at named
    exact absurd named (by decide +kernel)
  simp only [Request.uploading, uploadOf, given, named, Bool.false_eq_true, if_false, if_true]

theorem outcome_uploading (settings : Settings) (table : Table) (sheet : Sheet) {request : Request}
    {key name : String} (asked : request.Asks .importNodes key) (named : name.endsWith ".xlsx" = true) :
    outcome settings table (request.uploading name sheet) =
      match importSheet settings table sheet with
      | .error refusal => .error (.status 400 refusal.message)
      | .ok (after, count) =>
        .ok (after, .json (.obj [("detail", .str s!"Successfully processed {count} rows.")])) := by
  have dispatched : (request.uploading name sheet).Asks .importNodes key := asked
  have imported : importContent settings table (.workbook sheet) =
      importSheet settings table sheet := rfl
  rw [outcome_of_asks rfl dispatched, perform, answerImport, uploadOf_uploading named]
  dsimp only [bind, Except.bind]
  rw [imported]
  cases importSheet settings table sheet <;> rfl

theorem respond_of_isReadAs {request : Request} {key name : String}
    (supported : settings.registry.grammarFor .sqlite = .ok .sqlite)
    (keyed : table.IsKeyed .integer) (labels : table.HasLabels)
    (asked : request.Asks .importNodes key) (named : name.endsWith ".xlsx" = true)
    (read : IsReadAs sheet records) (valid : ∀ record ∈ records, record.IsValid)
    (distinct : (records.map ImportRecord.id).Nodup)
    (count : table.length + records.length < 0x8000000000000000) :
    (Accepts (upsert ImportRecord.merge table records) (records.map ImportRecord.id) →
      respond settings table (request.uploading name sheet) =
        (upsert ImportRecord.merge table records,
          .ok (.json (.obj [("detail",
            .str s!"Successfully processed {records.length} rows.")])))) ∧
    (¬ Accepts (upsert ImportRecord.merge table records) (records.map ImportRecord.id) →
      ∃ message, respond settings table (request.uploading name sheet) =
        (table, .error (.status 400 message))) := by
  have keyedAfter := (upsert_keepsOthers keyed fun record listed => (valid record listed).hasParent).1
  have fits : ∀ id ∈ records.map ImportRecord.id, fitsInt64 id = true := by
    intro id listed
    obtain ⟨record, member, rfl⟩ := List.mem_map.mp listed
    exact (valid record member).fits
  have fitsLength : fitsInt64 (upsert ImportRecord.merge table records).length = true := by
    have most := length_upsert_le ImportRecord.merge table records
    simp only [fitsInt64_iff]
    omega
  have checked := forM_checkPlacement_eq_ok keyedAfter fits fitsLength supported
  have written := outcome_uploading settings table sheet asked named
  rw [importSheet_eq keyed labels read valid distinct] at written
  constructor
  · intro accepted
    rw [checked.mpr accepted] at written
    rw [respond, written]
    rfl
  · intro refused
    cases answered : (records.map ImportRecord.id).forM
        (checkPlacement settings (upsert ImportRecord.merge table records)) with
    | ok => exact absurd (checked.mp answered) refused
    | error refusal =>
      rw [answered] at written
      exact ⟨refusal.message, by rw [respond, written]; rfl⟩

/-- A sheet in any order of its rows is imported as a whole or not at all: as a whole if its rows may
stay where they are in the table that then results. -/
theorem respond_uploading_perm {request : Request} {key name : String} {header : List Cell}
    {rows : List (List Cell)}
    (supported : settings.registry.grammarFor .sqlite = .ok .sqlite)
    (keyed : table.IsKeyed .integer) (labels : table.HasLabels)
    (asked : request.Asks .importNodes key) (named : name.endsWith ".xlsx" = true)
    (read : IsReadAs (header :: rows) records) (valid : ∀ record ∈ records, record.IsValid)
    (distinct : (records.map ImportRecord.id).Nodup)
    (count : table.length + records.length < 0x8000000000000000) :
    ∀ others, others.Perm rows →
      (Accepts (upsert ImportRecord.merge table records) (records.map ImportRecord.id) →
        respond settings table (request.uploading name (header :: others)) =
          (upsert ImportRecord.merge table records,
            .ok (.json (.obj [("detail",
              .str s!"Successfully processed {records.length} rows.")])))) ∧
      (¬ Accepts (upsert ImportRecord.merge table records) (records.map ImportRecord.id) →
        ∃ message, respond settings table (request.uploading name (header :: others)) =
          (table, .error (.status 400 message))) := by
  intro others same
  obtain ⟨reordered, sameRecords, readOthers⟩ := isReadAs_perm read same
  have sameIds := sameRecords.map ImportRecord.id
  have validOthers : ∀ record ∈ reordered, record.IsValid := fun record listed =>
    valid record (sameRecords.mem_iff.mp listed)
  have distinctOthers := sameIds.nodup_iff.mpr distinct
  have sameTable : upsert ImportRecord.merge table reordered =
      upsert ImportRecord.merge table records :=
    upsert_perm sameRecords keyed (fun record listed => (validOthers record listed).hasParent)
      distinctOthers
  have sameTest : Accepts (upsert ImportRecord.merge table records) (reordered.map ImportRecord.id) ↔
      Accepts (upsert ImportRecord.merge table records) (records.map ImportRecord.id) :=
    forall₂_congr fun row _ => by rw [(sameIds.map Value.int).mem_iff]
  have answered := respond_of_isReadAs supported keyed labels asked named readOthers validOthers
    distinctOthers (by rwa [sameRecords.length_eq])
  rwa [sameTable, sameTest, sameRecords.length_eq] at answered

/-! ## Two sheets -/

theorem isReadAs_of_contentRows {header : List Content} {rows : List (List Content)}
    (found : contentRows sheet = header :: rows) (count : sheet.length = records.length + 1)
    (read : ∀ index (record : ImportRecord), records[index]? = some record →
      record.IsReadFrom fun name => cellAt (SheetTable.column? ⟨header, rows⟩ name) index) :
    IsReadAs sheet records where
  count := count
  rows index record listed := by
    have cells : cellsAt sheet index =
        fun name => cellAt (SheetTable.column? ⟨header, rows⟩ name) index := by
      funext name
      rw [cellsAt, SheetTable.ofSheet, found]
    rw [cells]
    exact read index record listed

def importRequest : Request where
  method := "POST"
  path := "/api/nodes/import"

theorem asks_importRequest : importRequest.Asks .importNodes "" := by
  unfold Request.Asks
  decide +kernel

def chainHeader : List Cell := [.text "id", .text "label", .text "parent_id"]

/-- A node whose parent is new as well. -/
def grandchildCells : List Cell := [.number (.ofInt 2), .text "leaf", .number (.ofInt 3)]

/-- A node below a root that is there. -/
def childCells : List Cell := [.number (.ofInt 3), .text "inner", .number (.ofInt 1)]

def chainRecords : List ImportRecord :=
  [⟨2, some (.str "leaf"), some (.int 3), none⟩, ⟨3, some (.str "inner"), some (.int 1), none⟩]

def rootOnly : Table := [⟨.int 1, .null, .text "root", none⟩]

def chainTable : Table :=
  [⟨.int 1, .null, .text "root", none⟩, ⟨.int 2, .int 3, .text "leaf", none⟩,
    ⟨.int 3, .int 1, .text "inner", none⟩]

theorem upsert_chainRecords : upsert ImportRecord.merge rootOnly chainRecords = chainTable := rfl

theorem isReadAs_chainRecords :
    IsReadAs [chainHeader, grandchildCells, childCells] chainRecords := by
  have found : contentRows [chainHeader, grandchildCells, childCells] =
      [[.text "id", .text "label", .text "parent_id"], [.int 2, .text "leaf", .int 3],
        [.int 3, .text "inner", .int 1]] := by decide +kernel
  refine isReadAs_of_contentRows found rfl fun index record listed => ?_
  cases index with
  | zero =>
    obtain rfl := Option.some.inj listed
    exact {
      key := ⟨.int 2, by cbv, .inl rfl⟩
      label := by cbv
      parent := by
        cbv
        exact .some (.integer (.inl rfl))
      payload := by
        cbv
        exact .none }
  | succ index =>
    cases index with
    | zero =>
      obtain rfl := Option.some.inj listed
      exact {
        key := ⟨.int 3, by cbv, .inl rfl⟩
        label := by cbv
        parent := by
          cbv
          exact .some (.integer (.inl rfl))
        payload := by
          cbv
          exact .none }
    | succ index => cases listed

theorem isValid_chainRecords : ∀ record ∈ chainRecords, record.IsValid := by
  intro record member
  rcases List.mem_cons.mp member with rfl | member
  · exact {
      key := by decide
      fits := by decide
      label := by simp
      parent := by simp [fitsInt64] }
  · obtain rfl := List.mem_singleton.mp member
    exact {
      key := by decide
      fits := by decide
      label := by simp
      parent := by simp [fitsInt64] }

theorem isKeyed_rootOnly : rootOnly.IsKeyed .integer where
  key := by simp [rootOnly, KeyKind.Admits]
  parent := by simp [rootOnly]
  distinct := by decide

theorem accepts_chainTable : Accepts chainTable [2, 3] := by
  intro row member _
  have acyclic : ¬ chainTable.OnCycle row := by
    let rank := fun row : Row => if row.key = .int 1 then 0 else if row.key = .int 3 then 1 else 2
    have falls : ∀ row ∈ chainTable, ∀ next ∈ chainTable, next.key = row.parent →
        rank next < rank row := by decide
    exact not_onCycle_of_falls rank (fun _ _ joined => falls _ joined.1 _ joined.2.1 joined.2.2) row
  simp only [chainTable, List.mem_cons, List.not_mem_nil, or_false] at member
  rcases member with rfl | rfl | rfl
  · exact .inl rfl
  · exact .inr ⟨by decide, acyclic⟩
  · exact .inr ⟨by decide, acyclic⟩

theorem respond_uploading_chain :
    respond {} rootOnly
        (importRequest.uploading "nodes.xlsx" [chainHeader, childCells, grandchildCells]) =
      (chainTable, .ok (.json (.obj [("detail", .str "Successfully processed 2 rows.")]))) := by
  have labels : rootOnly.HasLabels := by simp [Table.HasLabels, rootOnly]
  have supported : ({} : Settings).registry.grammarFor .sqlite = .ok .sqlite := rfl
  have named : "nodes.xlsx".endsWith ".xlsx" = true := by decide +kernel
  have answered := (respond_uploading_perm supported isKeyed_rootOnly labels asks_importRequest named
    isReadAs_chainRecords isValid_chainRecords (by decide) (by decide)
    [childCells, grandchildCells] (.swap ..)).1
  rw [upsert_chainRecords] at answered
  exact answered accepts_chainTable

/-- A row with the columns of the record, its payload written whatever it was. -/
def ImportRecord.overwrite (record : ImportRecord) (row : Row) : Row :=
  { record.merge row with payload := (record.payload.map storedPayload).or row.payload }

def numberedRoot : Table := [⟨.int 1, .null, .text "root", some (.arr [.int 1])⟩]

/-- A sheet that gives the row a payload with a truth value. -/
def truthSheet : Sheet := [[.text "id", .text "meta"], [.number (.ofInt 1), .text "[true]"]]

def truthRecord : ImportRecord := ⟨1, none, none, some (.arr [.bool true])⟩

theorem isReadAs_truthRecord : IsReadAs truthSheet [truthRecord] := by
  have found : contentRows truthSheet =
      [[.text "id", .text "meta"], [.int 1, .text "[true]"]] := by decide +kernel
  have parsed : Json.parse "[true]" = .ok (.arr [.bool true]) := rfl
  refine isReadAs_of_contentRows found rfl fun index record listed => ?_
  cases index with
  | zero =>
    obtain rfl := Option.some.inj listed
    exact {
      key := ⟨.int 1, by cbv, .inl rfl⟩
      label := by cbv
      parent := by
        cbv
        exact .none
      payload := by
        cbv
        exact .some (.text parsed) }
  | succ index => cases listed

theorem isValid_truthRecord : truthRecord.IsValid where
  key := by decide
  fits := by decide
  label := by simp [truthRecord]
  parent := by simp [truthRecord]

theorem isKeyed_numberedRoot : numberedRoot.IsKeyed .integer where
  key := by simp [numberedRoot, KeyKind.Admits]
  parent := by simp [numberedRoot]
  distinct := by decide

/-- Data that only equals the payload that is there does not take its place: one stands for true. -/
theorem respond_uploading_ne_overwrite :
    IsReadAs truthSheet [truthRecord] ∧ truthRecord.IsValid ∧
      Accepts (upsert ImportRecord.overwrite numberedRoot [truthRecord]) [1] ∧
      (respond {} numberedRoot (importRequest.uploading "nodes.xlsx" truthSheet)).1 ≠
        upsert ImportRecord.overwrite numberedRoot [truthRecord] := by
  have root : ∀ row ∈ upsert ImportRecord.overwrite numberedRoot [truthRecord],
      row.parent = .null := by decide
  have kept : upsert ImportRecord.merge numberedRoot [truthRecord] = numberedRoot := by cbv
  have written : upsert ImportRecord.overwrite numberedRoot [truthRecord] =
      [⟨.int 1, .null, .text "root", some (.arr [.bool true])⟩] := by cbv
  have supported : ({} : Settings).registry.grammarFor .sqlite = .ok .sqlite := rfl
  have named : "nodes.xlsx".endsWith ".xlsx" = true := by decide +kernel
  have labels : numberedRoot.HasLabels := by simp [Table.HasLabels, numberedRoot]
  have answered := (respond_of_isReadAs supported isKeyed_numberedRoot labels asks_importRequest named
    isReadAs_truthRecord (by simpa using isValid_truthRecord) (by decide) (by decide)).1
  rw [kept] at answered
  refine ⟨isReadAs_truthRecord, isValid_truthRecord, fun row member _ => .inl (root row member), ?_⟩
  rw [answered fun row member _ => .inl (by simp_all [numberedRoot]), written]
  simp [numberedRoot]

end AdjacencyForest.Service
