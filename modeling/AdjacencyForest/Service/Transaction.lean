import AdjacencyForest.Service.Api

/-!
# Transactions

How a request works on the store. It has a transaction of its own and runs one statement after the
other; what a statement has written is there even if a later one fails, until the transaction is
rolled back or ends. Only what was committed stays. An import writes all its rows before it checks
them, and rolls back if anything fails; the other requests check first, write one row and commit.

Main statement: after a roll-back the rows are those of the last commit (`rows_rollback`).
-/
namespace AdjacencyForest.Service

/-- The rows of the last commit, and the rows as the transaction sees them. -/
structure Transaction where
  committed : Table
  rows : Table

namespace Transaction

def start (table : Table) : Transaction := ⟨table, table⟩

def commit (transaction : Transaction) : Transaction := ⟨transaction.rows, transaction.rows⟩

def rollback (transaction : Transaction) : Transaction :=
  ⟨transaction.committed, transaction.committed⟩

theorem rows_rollback (transaction : Transaction) :
    transaction.rollback.rows = transaction.committed := rfl

end Transaction

/-- Work in a transaction. It may fail; what it has done to the rows is done even then. -/
abbrev Work (ε α : Type) := ExceptT ε (StateM Transaction) α

namespace Work

variable {ε α β : Type}

/-- A question to the rows that the transaction sees. -/
def ask (question : Table → Except ε α) : Work ε α := do
  question (← get).rows

/-- A statement that writes; if it fails, it has written nothing. -/
def write (statement : Table → Except ε (Table × α)) : Work ε α := do
  let transaction ← get
  let (rows, result) ← statement transaction.rows
  set { transaction with rows := rows }
  return result

/-- Work that is committed when it is done; what is answered is read afterwards. -/
def saving (work : Work ε β) (answer : β → Table → Except ε α) : Work ε α := do
  let result ← work
  modify Transaction.commit
  ask (answer result)

/-- Work that is rolled back if it fails. -/
def orRollback (work : Work ε α) : Work ε α := do
  try work
  catch refusal =>
    modify Transaction.rollback
    throw refusal

end Work

open Work

def creatingNode (request : Request) : Work Refusal Answer := do
  let data ← request.body.data?
  let draft ← orInvalid (draftOf data)
  saving (do
    ask fun table => checkParent table draft.parent
    write fun table => orFault (TreeModel.standard.insertNode table draft.toFields))
    fun key table => answerRow table key

def updatingNode (settings : Settings) (request : Request) (key : String) :
    Work Refusal Answer := do
  let data ← request.body.data?
  let (id, draft) ← orInvalid (Check.both (pathKey key) (draftOf data))
  saving (do
    let row ← ask fun table => nodeOfKey table id
    ask fun table => checkParent table draft.parent
    ask fun table => checkMove settings table row draft.parent
    let node : NodeFields := { draft.toFields with key := row.key.toJson }
    write fun table => orFault (TreeModel.standard.updateNode table row.key (.ofRow row) node))
    fun key table => answerRow table key

/-- A node is deleted unless it has children. -/
def deletingRow (id : Int) : Work Refusal Unit := do
  let row ← ask fun table => nodeOfKey table id
  let count := (← ask fun table => orFault (childrenOf table id)).length
  if 0 < count then
    throw (.status 400 s!"Cannot delete node. It is a parent to {count} other nodes.")
  write fun table => .ok (TreeModel.deleteNode table row.key, ())

def deletingNode (key : String) : Work Refusal Answer := do
  let id ← orInvalid (pathKey key)
  saving (deletingRow id) fun _ _ =>
    .ok (.json (.obj [("detail", .str "Node deleted successfully")]))

/-- A statement for each item, one after the other. -/
def writingEach {α : Type} (items : List α) (statement : Table → α → Except Fault Table) :
    Work ImportRefusal Unit :=
  items.forM fun item => write fun rows =>
    ((statement rows item).mapError .fault).map fun after => (after, ())

/-- The statements of an import: all changes by key, then all additions. -/
def flushing (staging : Staging) : Work ImportRefusal Unit := do
  let changes := staging.changes.mergeSort fun a b => a.1.key.compareWith b.1.key != .gt
  writingEach changes fun table change => do
    return (← TreeModel.standard.updateNode table change.1.key (.ofRow change.1) change.2).1
  writingEach staging.additions fun table node => do
    return (← TreeModel.standard.insertNode table node).1

/-- The import of an upload: its rows are written before they are checked. -/
def importing (settings : Settings) (content : FileContent) : Work ImportRefusal Nat :=
  saving (do
    let table := SheetTable.ofSheet (← content.sheet)
    let (staging, ids) ← ask fun rows => stageRows rows (.ofTable table) table.rows.length
    flushing staging
    ids.forM fun id => ask fun rows => checkPlacement settings rows id
    return table.rows.length)
    fun count _ => .ok count

def importingNodes (settings : Settings) (request : Request) : Work Refusal Answer := do
  let content ← uploadOf request.body
  let count ← ExceptT.adapt (fun refusal : ImportRefusal => .status 400 refusal.message)
    (orRollback (importing settings content))
  return .json (.obj [("detail", .str s!"Successfully processed {count} rows.")])

/-- The work of a request; most requests only ask. -/
def working (settings : Settings) (request : Request) (key : String) : Action → Work Refusal Answer
  | .importNodes => importingNodes settings request
  | .createNode => creatingNode request
  | .updateNode => updatingNode settings request key
  | .deleteNode => deletingNode key
  | action => ask fun table => (perform settings table request key action).map Prod.snd

def serving (settings : Settings) (request : Request) : Work Refusal Answer :=
  if !request.body.isSendable then throw (.fault .unwritableNumber)
  else match dispatch request.method.toUpper request.path with
    | .action action key => working settings request key action
    | .wrongMethod => throw (.status 405 "Method Not Allowed")
    | .notFound => throw (.status 404 "Not Found")

/-- The committed rows after a request in a transaction of its own, and how it is answered. What was
not committed is given up when the transaction ends. -/
def serve (settings : Settings) (table : Table) (request : Request) : Table × Outcome Answer :=
  let (answer, transaction) := (serving settings request).run.run (.start table)
  (transaction.committed, answer)

end AdjacencyForest.Service
