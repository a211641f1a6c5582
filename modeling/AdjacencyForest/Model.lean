/-!
# Tree models

A model names a table that holds a forest by parent links: its class, its columns in order, and the
names under which a recursive expression shows depth and path. `TreeModel.standard` is the model of
the service.

Main statement: the columns of a model are its four roles, each once (`columns_nodup`).
-/
namespace AdjacencyForest

/-- The role of a table column. -/
inductive Column where
  | key
  | parent
  | label
  | payload
  deriving DecidableEq, Repr

/-- What a query can read by name: a table column or one of the two computed ones. -/
inductive Field where
  | column (column : Column)
  | depth
  | path
  deriving DecidableEq, Repr

/-- Kinds of keys. -/
inductive KeyKind where
  | integer
  | text
  deriving DecidableEq, Repr

/-- Names and order of the parts of a tree table. -/
structure TreeModel where
  className : String
  tableName : String
  keyName : String
  parentName : String
  keyKind : KeyKind
  /-- Whether the label stands before the parent key. -/
  labelFirst : Bool
  /-- Whether nodes lead to their parent and children. -/
  navigable : Bool
  depthName : String
  pathName : String
  separator : String
  expressionName : String
  deriving DecidableEq, Repr

namespace TreeModel

def standard : TreeModel where
  className := "Node"
  tableName := "nodes"
  keyName := "id"
  parentName := "parent_id"
  keyKind := .integer
  labelFirst := true
  navigable := true
  depthName := "depth"
  pathName := "path"
  separator := "."
  expressionName := "tree_cte"

def columns (model : TreeModel) : List Column :=
  if model.labelFirst then [.key, .label, .parent, .payload] else [.key, .parent, .label, .payload]

theorem columns_nodup (model : TreeModel) : model.columns.Nodup := by
  unfold columns
  split <;> decide

def columnName (model : TreeModel) : Column → String
  | .key => model.keyName
  | .parent => model.parentName
  | .label => "label"
  | .payload => "meta"

def column? (model : TreeModel) (name : String) : Option Column :=
  model.columns.find? fun column => model.columnName column == name

theorem columnName_of_column? {model : TreeModel} {name : String} {column : Column}
    (found : model.column? name = some column) : model.columnName column = name := by
  simpa using List.find?_some found

end TreeModel
end AdjacencyForest
