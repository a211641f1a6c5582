import AdjacencyForest.Query

/-!
# Relations of a node

The ancestors, descendants and siblings of one node, with or without the node itself. A relation
fixes the direction of the traversal, the depth of its anchor rows and their condition:

| relation             | direction | anchor                            | depth |
|----------------------|-----------|-----------------------------------|-------|
| ancestors            | up        | key is the node's parent key      | −1    |
| ancestors and self   | up        | key is the node's key             | 0     |
| descendants          | down      | parent key is the node's key      | 1     |
| descendants and self | down      | key is the node's key             | 0     |
| siblings             | down      | same parent key, another key      | 0     |
| siblings and self    | down      | same parent key                   | 0     |

A missing parent key is null, so the siblings of a root are the other roots.

Main statement: the traversal of a relation has the depth of the table above
(`initialDepth_traversal`).
-/
namespace AdjacencyForest

/-- The values of a node's columns. -/
structure NodeFields where
  key : Json := .null
  parent : Json := .null
  label : Json := .null
  payload : Json := .null
  /-- Whether a payload was given at all. -/
  hasPayload : Bool := false

def NodeFields.display (node : NodeFields) : String :=
  s!"<Node id={node.key.plain} parent_id={node.parent.plain} label={node.label.display}>"

/-- The kinds of relations. A bare relation has what all have in common, and no anchor. -/
inductive Kinship where
  | bare
  | ancestors
  | descendants
  | siblings
  deriving DecidableEq, Repr

/-- A relation of a node to others. -/
structure Relation where
  kinship : Kinship
  /-- Whether the node is among the others. -/
  andSelf : Bool
  node : NodeFields
  /-- The limit of depth; siblings have one of their own. -/
  maxDepth : Json := .null

namespace Relation

def direction (relation : Relation) : Direction :=
  match relation.kinship with
  | .ancestors => .up
  | .bare | .descendants | .siblings => .down

def initialDepth (relation : Relation) : Int :=
  match relation.kinship, relation.andSelf with
  | .ancestors, false => -1
  | .descendants, false => 1
  | _, _ => 0

/-- The limit of depth: siblings are never continued from. -/
def limit (relation : Relation) : Json :=
  match relation.kinship with
  | .siblings => .int 0
  | _ => relation.maxDepth

/-- The anchor rows: none are given for a bare relation. -/
def anchor (relation : Relation) : Anchor :=
  match relation.kinship, relation.andSelf with
  | .bare, _ => .unspecified
  | .ancestors, true | .descendants, true =>
    .criterion (.equals (.column .key) relation.node.key)
  | .ancestors, false => .criterion (.equals (.column .key) relation.node.parent)
  | .descendants, false => .criterion (.equals (.column .parent) relation.node.key)
  | .siblings, true => .criterion (.equals (.column .parent) relation.node.parent)
  | .siblings, false =>
    .criterion (.both (.equals (.column .parent) relation.node.parent)
      (.differs (.column .key) relation.node.key))

def traversal (relation : Relation) (model : TreeModel) : Traversal :=
  .ofModel model relation.direction relation.anchor (.int relation.initialDepth) relation.andSelf
    relation.limit

theorem initialDepth_traversal (relation : Relation) (model : TreeModel) :
    (relation.traversal model).initialDepth = .int relation.initialDepth := rfl

def name (relation : Relation) : String :=
  match relation.kinship with
  | .bare => "RecursiveRelation"
  | .ancestors => "Ancestors"
  | .descendants => "Descendants"
  | .siblings => "Siblings"

def display (relation : Relation) : String :=
  s!"<{relation.name} of {relation.node.display} and_self={(Json.bool relation.andSelf).display}>"

end Relation

/-- What a query is built against: the model, and the engine with the grammars that are known. -/
structure Setting where
  model : TreeModel
  registry : Registry := .standard
  engine : Engine := .sqlite

/-- Where a query starts. -/
inductive QueryStart where
  /-- All rows of the table. -/
  | table (bound : Bool)
  /-- The rows of the table that satisfy a constraint. -/
  | statement (constraint : Constraint)
  /-- All roots and what is below them. -/
  | tree (maxDepth : Json)
  /-- A traversal of the caller's own. -/
  | expression (request : TraversalRequest) (source : SourceChoice)
  | related (relation : Relation)
  /-- A node and its children. -/
  | childrenAndSelf (node : NodeFields)
  /-- A node and its parent. -/
  | parentAndSelf (node : NodeFields)

namespace Setting

def traverse (setting : Setting) (spec : Traversal) (source : SourceChoice) :
    Except Fault TreeQuery := do
  let source ← source.resolve setting.model.tableName
  let expression ← RecursiveExpression.compile setting.registry setting.engine setting.model source
    spec
  return .ofExpression expression

def related (setting : Setting) (relation : Relation) : Except Fault TreeQuery :=
  setting.traverse (relation.traversal setting.model) .table

def tree (setting : Setting) (maxDepth : Json) : Except Fault TreeQuery :=
  setting.traverse (.ofModel setting.model .down (.criterion (.isNull (.column .parent))) (.int 0)
    false maxDepth) .table

def query (setting : Setting) : QueryStart → Except Fault TreeQuery
  | .table bound => .ok (.ofModel setting.model bound)
  | .statement constraint => do
    let criterion ← constraint.onTable setting.model
    return (TreeQuery.ofModel setting.model true).filtered criterion
  | .tree maxDepth => setting.tree maxDepth
  | .expression request source => do
    let spec ← request.validate
    setting.traverse spec source
  | .related relation => setting.related relation
  | .childrenAndSelf node => do
    let query ← setting.related ⟨.descendants, true, node, .null⟩
    query.apply (.whereDepth (.str "<=") (.int 1))
  | .parentAndSelf node => do
    let query ← setting.related ⟨.ancestors, true, node, .null⟩
    query.apply (.whereDepth (.str ">=") (.int (-1)))

end Setting
end AdjacencyForest
