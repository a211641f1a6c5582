import AdjacencyForest.Service.Columns
import AdjacencyForest.Service.Editing

/-!
# Import

A sheet of nodes is written to the table all at once: rows whose key is there change it, the others
are added. What is there is decided by the table before the import, so a new key may come only once.
When all rows are in place, each imported node must have its parent in the table and must not lie
below itself; else nothing is written.

Main statement: the table after a successful request is the one that the import of some upload gives
(`exists_importContent_of_answerImport`).
-/
namespace AdjacencyForest.Service

/-- A row of the sheet: the key, and of the other columns those that the sheet has. -/
structure ImportRecord where
  id : Int
  label : Option Json
  parent : Option Json
  payload : Option Json

/-- Why an import is refused. -/
inductive ImportRefusal where
  | fault (cause : Fault)
  | malformedPayload (message : String)
  /-- The file is no workbook. -/
  | unreadable (message : String)
  | missingParent (id : Json)
  | belowItself (id : Int)

/-- The part of the message before which the cause of a fault stands. -/
def faultOrigin : Fault → String
  | .duplicateKey _ _ | .missingKey _ _ | .keyMismatch => "(sqlite3.IntegrityError) "
  | .patternTooComplex => "(sqlite3.OperationalError) "
  | .unbindable _ _ => "(sqlite3.ProgrammingError) "
  | _ => ""

def ImportRefusal.message : ImportRefusal → String
  | .fault cause =>
    let words := cause.message?.getD ""
    s!"Failed to process Excel file: {faultOrigin cause}{words}"
  | .malformedPayload message | .unreadable message => s!"Failed to process Excel file: {message}"
  | .missingParent id => s!"Parent with id {id.plain} not found"
  | .belowItself id => s!"Node {id} cannot be moved below itself."

/-- The columns of a sheet that are imported, each if the sheet has it. -/
structure ImportColumns where
  id : Option (List Json)
  label : Option (List Json)
  parent : Option (List Json)
  payload : Option (List Json)

def ImportColumns.ofTable (table : SheetTable) : ImportColumns :=
  ⟨table.column? "id", table.column? "label", table.column? "parent_id", table.column? "meta"⟩

def cellAt (column : Option (List Json)) (index : Nat) : Option Json :=
  column.map fun values => values.getD index .null

def importInteger (value : Json) : Except ImportRefusal Int :=
  value.toInteger.mapError ImportRefusal.fault

/-- A payload of a sheet: a text is read as data. -/
def importPayload (value : Json) : Except ImportRefusal Json :=
  match value with
  | .str text => (Json.parse text).mapError fun failure =>
    .malformedPayload (failure.message text.toList)
  | value => .ok value

/-- A parent key of a sheet; an empty cell is none. -/
def importParent (value : Json) : Except ImportRefusal Json :=
  match value with
  | .null => .ok .null
  | value => (importInteger value).map Json.int

/-- An optional value, converted if it is there. -/
def convertOption (convert : Json → Except ImportRefusal Json) :
    Option Json → Except ImportRefusal (Option Json)
  | none => .ok none
  | some value => (convert value).map some

/-- The record of a row; rows without a key are skipped. -/
def importRecord (columns : ImportColumns) (index : Nat) :
    Except ImportRefusal (Option ImportRecord) := do
  let id := (cellAt columns.id index).getD .null
  if id.isFalsy then return none
  let id ← importInteger id
  let parent ← convertOption importParent (cellAt columns.parent index)
  let payload ← convertOption importPayload (cellAt columns.payload index)
  return some ⟨id, cellAt columns.label index, parent, payload⟩

/-- The records that are to be written: changes of rows that are there, with what they held before,
and new nodes in order. -/
structure Staging where
  changes : List (Row × NodeFields) := []
  additions : List NodeFields := []

def ImportRecord.applyTo (record : ImportRecord) (node : NodeFields) : NodeFields :=
  let node := node.setValue .key (.int record.id)
  let node := match record.label with
    | some label => node.setValue .label label
    | none => node
  let node := match record.parent with
    | some parent => node.setValue .parent parent
    | none => node
  match record.payload with
  | some payload => node.setValue .payload payload
  | none => node

/-- The staged changes with one more record for a row that is there. -/
def putChange (row : Row) (record : ImportRecord) :
    List (Row × NodeFields) → List (Row × NodeFields)
  | [] => [(row, record.applyTo (.ofRow row))]
  | (other, node) :: rest =>
    if other.key = row.key then (other, record.applyTo node) :: rest
    else (other, node) :: putChange row record rest

def Staging.add (table : Table) (staging : Staging) (record : ImportRecord) :
    Except Fault Staging := do
  match ← rowOf? table record.id with
  | some row => return { staging with changes := putChange row record staging.changes }
  | none => return { staging with additions := staging.additions ++ [record.applyTo {}] }

/-- The table with all changes and then all additions written. -/
def Staging.write (table : Table) (staging : Staging) : Except Fault Table := do
  let changes := staging.changes.mergeSort fun a b => a.1.key.compareWith b.1.key != .gt
  let table ← changes.foldlM (fun table change => do
    return (← TreeModel.standard.updateNode table change.1.key (.ofRow change.1) change.2).1) table
  staging.additions.foldlM (fun table node => do
    return (← TreeModel.standard.insertNode table node).1) table

def checkPlacement (settings : Settings) (table : Table) (id : Int) :
    Except ImportRefusal Unit := do
  match table.find? (.int id) with
  | none => return
  | some row =>
    if row.parent.isNull then return
    if !table.contains row.parent then throw (.missingParent row.parent.toJson)
    let below ← (isAtOrBelow settings table row row.parent).mapError ImportRefusal.fault
    if below then throw (.belowItself id)

/-- The records of all rows, staged one after the other, and their keys. -/
def stageRows (table : Table) (columns : ImportColumns) (count : Nat) :
    Except ImportRefusal (Staging × List Int) :=
  (List.range count).foldlM (fun (state : Staging × List Int) index => do
    match ← importRecord columns index with
    | none => return state
    | some record =>
      let staging ← (state.1.add table record).mapError ImportRefusal.fault
      return (staging, state.2 ++ [record.id])) ({}, [])

/-- The table after the import of a sheet, and the count of the sheet's rows. -/
def importSheet (settings : Settings) (table : Table) (sheet : Sheet) :
    Except ImportRefusal (Table × Nat) := do
  let content := SheetTable.ofSheet sheet
  let (staging, ids) ← stageRows table (.ofTable content) content.rows.length
  let written ← (staging.write table).mapError ImportRefusal.fault
  ids.forM (checkPlacement settings written)
  return (written, content.rows.length)

/-- The words for an uploaded text in place of a workbook. -/
def unreadableText (content : String) : String :=
  if content.startsWith "PK\x03\x04" then "File is not a zip file"
  else "Excel file format cannot be determined, you must specify an engine manually."

def FileContent.sheet : FileContent → Except ImportRefusal Sheet
  | .workbook sheet => .ok sheet
  | .text content => .error (.unreadable (unreadableText content))

/-- The content of the upload in a request; only workbooks are taken. -/
def uploadOf (body : RequestBody) : Outcome FileContent :=
  let place := [Segment.name "body", .name "file"]
  match body with
  | .file "file" name content =>
    if name.isEmpty then .error (.ofIssues [⟨.valueError, place, .null⟩])
    else if name.endsWith ".xlsx" then .ok content
    else .error (.status 400 "Invalid file format. Please upload an .xlsx file.")
  | _ => .error (.ofIssues [⟨.missing, place, .null⟩])

/-- The table after an import and the count of the sheet's rows. -/
def importContent (settings : Settings) (table : Table) (content : FileContent) :
    Except ImportRefusal (Table × Nat) := do
  importSheet settings table (← content.sheet)

def answerImport (settings : Settings) (table : Table) (request : Request) : Edit := do
  let content ← uploadOf request.body
  match importContent settings table content with
  | .error refusal => throw (.status 400 refusal.message)
  | .ok (table, count) =>
    return (table, .json (.obj [("detail", .str s!"Successfully processed {count} rows.")]))

theorem exists_importContent_of_answerImport {settings : Settings} {table : Table}
    {request : Request} {result : Table × Answer}
    (imported : answerImport settings table request = .ok result) :
    ∃ content count, importContent settings table content = .ok (result.1, count) := by
  unfold answerImport at imported
  cases upload : uploadOf request.body with
  | error refusal => simp [upload, bind, Except.bind] at imported
  | ok content =>
    simp only [upload, bind, Except.bind] at imported
    split at imported
    · simp [throw, throwThe, MonadExceptOf.throw] at imported
    next written count complete =>
      simp only [pure, Except.pure, Except.ok.injEq] at imported
      subst imported
      exact ⟨content, count, complete⟩

end AdjacencyForest.Service
