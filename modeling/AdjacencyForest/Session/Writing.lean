import AdjacencyForest.Query
import AdjacencyForest.Relation

/-!
# Writing nodes to a table

A node's fields are data as callers give them; a row holds what the store makes of them. Inserting,
updating and deleting a row each may fail, and then the table is as it was.

Main statement: an inserted row is in the table under the key that is reported
(`mem_of_insertNode`).
-/
namespace AdjacencyForest

namespace NodeFields

def value (node : NodeFields) : Column → Json
  | .key => node.key
  | .parent => node.parent
  | .label => node.label
  | .payload => node.payload

def setValue (node : NodeFields) (column : Column) (given : Json) : NodeFields :=
  match column with
  | .key => { node with key := given }
  | .parent => { node with parent := given }
  | .label => { node with label := given }
  | .payload => { node with payload := given, hasPayload := true }

def ofRow (row : Row) : NodeFields where
  key := row.key.toJson
  parent := row.parent.toJson
  label := row.label.toJson
  payload := row.payload.getD .null
  hasPayload := true

end NodeFields

namespace TreeModel

/-- The stored value of a column for given data; data that the store refuses counts as null. -/
def columnValue (model : TreeModel) (column : Column) (given : Json) : Value :=
  (Reading.operand (.column column) given).stored (model.affinity column)

/-- The columns that an insert writes: a missing key is left to the store. -/
def insertedColumns (model : TreeModel) (node : NodeFields) : List Column :=
  model.columns.filter fun column =>
    match column, node.key with
    | .key, .null => false
    | _, _ => true

/-- The data that is handed to the store for columns of a node; the payload is handed over as
text. -/
def boundData (columns : List Column) (node : NodeFields) : List (Field × Json) :=
  columns.map fun column =>
    (.column column, if column = .payload then .null else node.value column)

def newKey (model : TreeModel) (table : Table) (node : NodeFields) : Except Fault Value :=
  match model.keyKind with
  | .integer => match node.key with
    | .null => .ok (.int table.nextKey)
    | given => match model.columnValue .key given with
      | .int i => .ok (.int i)
      | .null => .ok (.int table.nextKey)
      | _ => .error .keyMismatch
  | .text => match model.columnValue .key node.key with
    | .null => .error (.missingKey model.tableName model.keyName)
    | value => .ok value

def rowOf (model : TreeModel) (key : Value) (node : NodeFields) : Row where
  key := key
  parent := model.columnValue .parent node.parent
  label := model.columnValue .label node.label
  payload := if node.hasPayload then some (storedPayload node.payload) else none

/-- The table with a new row for a node, and the row's key. -/
def insertNode (model : TreeModel) (table : Table) (node : NodeFields) :
    Except Fault (Table × Value) := do
  TreeQuery.checkParameters (boundData (model.insertedColumns node) node)
  let key ← model.newKey table node
  if table.contains key then throw (.duplicateKey model.tableName model.keyName)
  return (table.insert model.keyKind (model.rowOf key node), key)

theorem mem_of_insertNode {model : TreeModel} {table result : Table} {node : NodeFields}
    {key : Value} (inserted : model.insertNode table node = .ok (result, key)) :
    model.rowOf key node ∈ result := by
  simp only [insertNode, bind, Except.bind, pure, Except.pure, throw, throwThe,
    MonadExceptOf.throw] at inserted
  split at inserted
  · contradiction
  · split at inserted
    · contradiction
    · split at inserted
      · contradiction
      · simp only [Except.ok.injEq, Prod.mk.injEq] at inserted
        obtain ⟨rfl, rfl⟩ := inserted
        exact Table.mem_insert.mpr (.inl rfl)

/-- The columns in which two versions of a node differ. -/
def changedColumns (model : TreeModel) (before after : NodeFields) : List Column :=
  model.columns.filter fun column => !(before.value column).alike (after.value column)

def writeColumn (model : TreeModel) (node : NodeFields) (row : Row) (column : Column) : Row :=
  match column with
  | .key => row
  | .parent => { row with parent := model.columnValue .parent node.parent }
  | .label => { row with label := model.columnValue .label node.label }
  | .payload => { row with payload := some (storedPayload node.payload) }

/-- The table with the changed columns of a node written to the row of its key, and the key that the
row has then. -/
def updateNode (model : TreeModel) (table : Table) (key : Value) (before after : NodeFields) :
    Except Fault (Table × Value) := do
  let changed := model.changedColumns before after
  if changed.isEmpty then return (table, key)
  TreeQuery.checkParameters (boundData changed after)
  let table := table.modify key fun row => changed.foldl (model.writeColumn after) row
  if changed.contains .key then
    let newKey ← model.newKey table after
    if newKey == key then return (table, key)
    if table.contains newKey then throw (.duplicateKey model.tableName model.keyName)
    match table.find? key with
    | some row => return ((table.erase key).insert model.keyKind { row with key := newKey }, newKey)
    | none => return (table, key)
  else return (table, key)

/-- The table without the row of a key, and with no parent for the rows below it. -/
def deleteNode (table : Table) (key : Value) : Table :=
  (table.erase key).map fun row =>
    if row.parent.equals key then { row with parent := .null } else row

end TreeModel
end AdjacencyForest
