import AdjacencyForest.Session.Writing

/-!
# Entities

An entity is a node as a session knows it: what the store held when it was loaded, what has been
changed since, and the depth and path that the last expression to return it gave. A session drops
its entities when they expire, and makes new ones of what the store holds when they are asked for
next; so an entity is never stale unless the session says so.

Main statements: a fresh entity shows neither depth nor path (`depth_ofRow`, `path_ofRow`), and the
entity of an expression those of its row (`depth_ofTreeRow`, `path_ofTreeRow`).
-/
namespace AdjacencyForest

/-- A node with the depth and path that it shows. -/
structure ShownNode where
  fields : NodeFields
  depth : Json := .null
  path : Json := .null

/-- A node as a session knows it. -/
structure Entity where
  /-- The key by which the session knows it. -/
  key : Value
  /-- What it shows. -/
  current : NodeFields
  /-- What the store held when it was loaded or written last. -/
  stored : NodeFields
  /-- A column was set since then, maybe to what it was. -/
  touched : Bool := false
  depth : Json := .null
  path : Json := .null
  /-- The parent's key, null if there is none, once it has been asked for. -/
  parentKey : Option Value := none
  /-- The children's keys, once they have been asked for. -/
  childKeys : Option (List Value) := none

namespace Entity

def ofRow (row : Row) : Entity where
  key := row.key
  current := .ofRow row
  stored := .ofRow row

theorem depth_ofRow (row : Row) : (ofRow row).depth = .null := rfl

theorem path_ofRow (row : Row) : (ofRow row).path = .null := rfl

def ofTreeRow (treeRow : TreeRow) : Entity :=
  { ofRow treeRow.row with depth := treeRow.depth.toJson, path := treeRow.path.toJson }

theorem depth_ofTreeRow (treeRow : TreeRow) :
    (ofTreeRow treeRow).depth = treeRow.depth.toJson := rfl

theorem path_ofTreeRow (treeRow : TreeRow) : (ofTreeRow treeRow).path = treeRow.path.toJson := rfl

def setValue (entity : Entity) (column : Column) (value : Json) : Entity :=
  { entity with current := entity.current.setValue column value, touched := true }

/-- The entity once it is written under a key: what it shows is stored, and depth and path, which
the write may have made wrong, are gone. -/
def written (entity : Entity) (key : Value) : Entity :=
  { entity with
    key := key
    stored := entity.current
    touched := false
    depth := .null
    path := .null }

def shown (entity : Entity) : ShownNode := ⟨entity.current, entity.depth, entity.path⟩

end Entity

namespace ShownNode

/-- The path, which must be loaded. -/
def pathText (model : TreeModel) (node : ShownNode) : Except Fault String :=
  match node.path with
  | .null => .error (.tree (.pathNotLoaded (.str model.className) (.str model.pathName)))
  | path => .ok path.plain

/-- The part of a text before the first occurrence of a separator. -/
def firstPart (separator : List Char) : List Char → List Char
  | [] => []
  | c :: rest =>
    if separator.isPrefixOf (c :: rest) then [] else c :: firstPart separator rest

def holds (separator : List Char) : List Char → Bool
  | [] => separator.isEmpty
  | c :: rest => separator.isPrefixOf (c :: rest) || holds separator rest

def firstOnPath (model : TreeModel) (node : ShownNode) : Except Fault String := do
  let path ← node.pathText model
  if model.separator.isEmpty then throw .emptySeparator
  return String.ofList (firstPart model.separator.toList path.toList)

def isNested (model : TreeModel) (node : ShownNode) : Except Fault Bool := do
  let path ← node.pathText model
  return holds model.separator.toList path.toList

end ShownNode
end AdjacencyForest
