import AdjacencyForest.Session.Entity

/-!
# Sessions

A session holds one transaction on a table: the rows as they were committed last, the rows as the
transaction sees them, the entities that it knows, and the work that is still to be written. A flush
writes changes by key, then new nodes in the order in which they were added, then deletions. If it
fails, all goes back to the last commit and the session refuses work until it is rolled back.

Main statements: `table_failed` and `table_rollback` say that the rows are then those of the last
commit.
-/
namespace AdjacencyForest

/-- The state of a session. -/
structure Session where
  setting : Setting
  /-- The rows of the last commit. -/
  committed : Table
  /-- The rows that the transaction sees. -/
  table : Table
  /-- The nodes that are known and not expired, each key once. -/
  entities : List Entity := []
  /-- New nodes, in the order in which they were added. -/
  pending : List NodeFields := []
  /-- Keys of nodes that the next flush deletes. -/
  doomed : List Value := []
  /-- Nodes that were taken out of the session. -/
  detached : List (Value × ShownNode) := []
  /-- A flush has failed and was not rolled back. -/
  broken : Bool := false
  /-- Queries kept by name. -/
  saved : List (String × TreeQuery) := []

namespace Session

def start (setting : Setting) (table : Table) : Session where
  setting := setting
  committed := table
  table := table

def model (session : Session) : TreeModel := session.setting.model

def entity? (session : Session) (key : Value) : Option Entity :=
  session.entities.find? fun entity => entity.key == key

/-- Entities with one of them replaced, or added if there is none of its key. -/
def putEntity (entity : Entity) : List Entity → List Entity
  | [] => [entity]
  | other :: rest =>
    if other.key = entity.key then entity :: rest else other :: putEntity entity rest

def withEntity (session : Session) (entity : Entity) : Session :=
  { session with entities := putEntity entity session.entities }

def expireAll (session : Session) : Session := { session with entities := [] }

def failed (session : Session) : Session :=
  { session with
    table := session.committed, entities := [], pending := [], doomed := [], broken := true }

def rollback (session : Session) : Session :=
  { session with
    table := session.committed, entities := [], pending := [], doomed := [], broken := false }

theorem table_failed (session : Session) : session.failed.table = session.committed := rfl

theorem table_rollback (session : Session) : session.rollback.table = session.committed := rfl

/-- The entities that a flush writes, by key. -/
def touchedEntities (session : Session) : List Entity :=
  (session.entities.filter fun entity =>
    entity.touched && !session.doomed.contains entity.key).mergeSort fun a b =>
      a.key.compareWith b.key != .gt

def isClean (session : Session) : Bool :=
  session.pending.isEmpty && session.doomed.isEmpty &&
    !session.entities.any Entity.touched

/-- The session with the changed columns of one entity written. -/
def writeTouched (session : Session) (entity : Entity) : Except Fault Session := do
  let (table, key) ← session.model.updateNode session.table entity.key entity.stored entity.current
  let entities := session.entities.filter fun other => other.key != entity.key
  return { session with
    table := table
    entities := putEntity (entity.written key) entities }

def writePending (session : Session) (node : NodeFields) : Except Fault Session := do
  let (table, key) ← session.model.insertNode session.table node
  let fields := match node.key with
    | .null => node.setValue .key key.toJson
    | _ => node
  return { session with
    table := table
    entities := putEntity { key := key, current := fields, stored := fields } session.entities }

def orphaned (entity : Entity) : Entity :=
  entity.setValue .parent .null

/-- The session with all children of the doomed nodes known and without a parent. -/
def orphanChildren (session : Session) : Session :=
  let children := List.filter (fun (row : Row) =>
    session.doomed.any (fun key => row.parent.equals key) && !session.doomed.contains row.key)
    session.table
  children.foldl (fun session row =>
    session.withEntity (orphaned ((session.entity? row.key).getD (.ofRow row)))) session

def writeDoomed (session : Session) : Session :=
  { session with
    table := session.doomed.foldl (fun table key => Table.erase key table) session.table
    entities := session.entities.filter fun entity => !session.doomed.contains entity.key
    doomed := [] }

/-- The session with all its work written, or the first fault. -/
def written (session : Session) : Except Fault Session := do
  let session := if session.model.navigable then session.orphanChildren else session
  let session ← session.touchedEntities.foldlM writeTouched session
  let session ← session.pending.foldlM writePending { session with pending := [] }
  return session.writeDoomed

end Session

/-- A step of a session: it may fail, and has an effect on the session even then. -/
abbrev SessionM := ExceptT Fault (StateM Session)

namespace Session

def ready : SessionM Unit := do
  if (← get).broken then throw .pendingRollback

def flush : SessionM Unit := do
  let session ← get
  if session.isClean then return
  ready
  match session.written with
  | .ok after => set after
  | .error fault =>
    set session.failed
    throw fault

/-- Writes all work, makes it permanent and lets all nodes expire. -/
def commit : SessionM Unit := do
  ready
  flush
  modify fun session => { session with committed := session.table, entities := [] }

/-- The node of a key: a known one as it is, else the row of the key. -/
def load (key : Json) : SessionM (Option Entity) := do
  let session ← get
  let value := session.model.columnValue .key key
  if value.isNull && key.isFalsy then return none
  match session.entity? value with
  | some entity => return some entity
  | none =>
    ready
    TreeQuery.checkParameters [(.column .key, key)]
    match session.table.find? value with
    | none => return none
    | some row =>
      set (session.withEntity (.ofRow row))
      return some (.ofRow row)

/-- Makes the rows of a base query known: those that are known already stay as they are. -/
def learn (rows : List TreeRow) (session : Session) : Session :=
  rows.foldl (fun session treeRow =>
    match session.entity? treeRow.row.key with
    | some _ => session
    | none => session.withEntity (.ofRow treeRow.row)) session

def firstOfEachKey (rows : List TreeRow) : List TreeRow :=
  rows.foldl (fun (kept : List TreeRow) treeRow =>
    if kept.any fun other => other.row.key == treeRow.row.key then kept else kept ++ [treeRow]) []

/-- Makes the rows of an expression known in place of what was known; of several rows with one key
the first counts. -/
def overwrite (rows : List TreeRow) (session : Session) : Session :=
  (firstOfEachKey rows).foldl (fun session treeRow => session.withEntity (.ofTreeRow treeRow))
    session

/-- The fault of asking a node without a session for its relatives. -/
def unattached (model : TreeModel) (node : NodeFields) : Fault :=
  .tree (.misuse (.str s!"{model.className} is not attached to a session") [("key", node.key)])

/-- What comes before a query is run: it must have a session, pending work is written if it reads an
expression, and the store takes its values. -/
def prepare (query : TreeQuery) : SessionM Unit := do
  if !query.bound then throw .unboundQuery
  if query.expression.isSome then flush
  ready
  TreeQuery.checkParameters query.parameters

/-- The nodes of some rows of a query, which become known. -/
def take (query : TreeQuery) (rows : List TreeRow) : SessionM (List Entity) := do
  if query.expression.isSome then modify (overwrite rows) else modify (learn rows)
  let session ← get
  return rows.filterMap fun treeRow => session.entity? treeRow.row.key

/-- The rows of a query on the table that the session sees. -/
def rows (query : TreeQuery) : SessionM (List TreeRow) := do
  prepare query
  match query.rows? (← get).table with
  | some rows => return rows
  | none => throw .endlessWalk

/-- All nodes of a query, in order. -/
def all (query : TreeQuery) : SessionM (List Entity) := do
  take query (← rows query)

def first (query : TreeQuery) : SessionM (Option Entity) := do
  return (← take query ((← rows query).take 1)).head?

def count (query : TreeQuery) : SessionM Nat := do
  prepare query
  match query.count? (← get).table with
  | some count => return count
  | none => throw .endlessWalk

def add (node : NodeFields) : SessionM Unit :=
  modify fun session => { session with pending := session.pending ++ [node] }

def change (entity : Entity) (column : Column) (value : Json) : SessionM Unit :=
  modify fun session =>
    session.withEntity (entity.setValue column value)

/-- Changes a column of a node that was taken out of the session. -/
def changeDetached (key : Value) (column : Column) (value : Json) : SessionM Unit :=
  modify fun session =>
    { session with
      detached := session.detached.map fun entry =>
        if entry.1 = key then
          (entry.1, { entry.2 with fields := entry.2.fields.setValue column value })
        else entry }

def delete (entity : Entity) : SessionM Unit :=
  modify fun session => { session with doomed := session.doomed ++ [entity.key] }

/-- Takes a node out of the session, as the store holds it; no flush deletes it then. -/
def expunge (entity : Entity) : SessionM Unit := do
  ready
  let session ← get
  match session.table.find? entity.key with
  | none => throw .rowGone
  | some row =>
    let shown : ShownNode := ⟨.ofRow row, .null, .null⟩
    set { session with
      entities := session.entities.filter fun other => other.key != entity.key
      doomed := session.doomed.filter fun key => key != entity.key
      detached := session.detached ++ [(entity.key, shown)] }

/-- The key of a node's parent, null if there is no such row. -/
def parentOf (entity : Entity) : SessionM Value := do
  if !(← get).model.navigable then throw .noSuchAttribute
  match entity.parentKey with
  | some key => return key
  | none =>
    let parent ← match entity.current.parent with
      | .null => pure none
      | key => load key
    let key := (parent.map Entity.key).getD .null
    modify fun session =>
      session.withEntity { (session.entity? entity.key).getD entity with parentKey := some key }
    return key

/-- The keys of a node's children, in order. -/
def childrenOf (entity : Entity) : SessionM (List Value) := do
  match entity.childKeys with
  | some keys => return keys
  | none =>
    ready
    let session ← get
    let rows := List.filter (fun (row : Row) => row.parent.equals entity.key) session.table
    let keys := (rows.map Row.key).mergeSort fun a b => a.compareWith b != .gt
    modify (learn (rows.map TreeRow.ofRow))
    modify fun session =>
      session.withEntity { (session.entity? entity.key).getD entity with childKeys := some keys }
    return keys

end Session
end AdjacencyForest
