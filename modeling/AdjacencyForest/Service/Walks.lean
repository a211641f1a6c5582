import AdjacencyForest.Service.Listing

/-!
# Walks from a node

The answers that come from traversals: the ancestors, descendants and siblings of a node, the whole
tree, its roots and leaves, the children of a node and the path to it. A node that a walk meets
several times shows the depth and the path of the first time. Rows of one depth come by key in
breadth order.

Main statement: `key_shownRows` says that this changes no row's node.
-/
namespace AdjacencyForest.Service

/-- The orders of a walk. -/
inductive WalkOrder where
  | breadth
  | depth
  deriving DecidableEq, Repr

def walkOrder (input : Json) : Check WalkOrder :=
  match input with
  | .str "breadth" => .ok .breadth
  | .str "depth" => .ok .depth
  | _ => Check.fail .literalError input

def truth (input : Json) : Check Bool :=
  match input with
  | .str word => truthOfText word
  | _ => Check.fail .boolParsing input

def shownRows (rows : List TreeRow) : List TreeRow :=
  rows.map fun treeRow => (rows.find? fun other => other.row.key == treeRow.row.key).getD treeRow

theorem key_shownRows (rows : List TreeRow) :
    (shownRows rows).map (fun treeRow => treeRow.row.key) =
      rows.map fun treeRow => treeRow.row.key := by
  unfold shownRows
  rw [List.map_map]
  apply List.map_congr_left
  intro treeRow _
  simp only [Function.comp_apply]
  cases found : rows.find? fun other => other.row.key == treeRow.row.key with
  | none => rfl
  | some other => simpa using List.find?_some found

/-- Runs of rows of one depth, each by key; `run` holds the run that is not complete yet. -/
def settleRuns : (rows run : List TreeRow) → List TreeRow
  | [], run => run.mergeSort fun left right => left.row.key.compareWith right.row.key != .gt
  | treeRow :: rest, run =>
    if run.all fun other => other.depth == treeRow.depth then settleRuns rest (run ++ [treeRow])
    else (run.mergeSort fun left right => left.row.key.compareWith right.row.key != .gt) ++
      settleRuns rest [treeRow]

def walkRows (table : Table) (query : TreeQuery) : Except Fault (List TreeRow) := do
  let rows ← queryRows query table
  return shownRows rows

def orderedRows (table : Table) (query : TreeQuery) (order : WalkOrder) :
    Except Fault (List TreeRow) := do
  match order with
  | .depth => walkRows table (← query.apply .depthFirst)
  | .breadth =>
    let rows ← walkRows table (← query.apply .breadthFirst)
    return settleRuns rows []

def answerWalk (rows : List TreeRow) : Outcome Answer := do
  let views ← orUnanswerable (viewAll viewTreeRow 0 rows)
  return .json (.arr (views.map TreeNodeView.toJson))

/-- The row of a key; there must be one. -/
def nodeOfKey (table : Table) (id : Int) : Outcome Row := do
  match ← orFault (rowOf? table id) with
  | some row => return row
  | none => throw (.status 404 "Node not found")

/-- What a request for ancestors or descendants says. -/
structure WalkRequest where
  id : Int
  includeSelf : Bool
  order : WalkOrder
  maxDepth : Option Int

/-- The address and the parameters of a request for ancestors or descendants. -/
def WalkRequest.ofRequest (request : Request) (key : String) (order : WalkOrder) :
    Check WalkRequest :=
  (Check.both (pathKey key)
    (Check.both (request.parameter "include_self" (.ok false) truth)
      (Check.both (request.parameter "order" (.ok order) walkOrder)
        (request.parameter "max_depth" (.ok none) fun input => (integer input).map some)))).map
    fun parts => ⟨parts.1, parts.2.1, parts.2.2.1, parts.2.2.2⟩

/-- The query of a relation of a row, to a depth. -/
def relationQuery (settings : Settings) (kinship : Kinship) (walk : WalkRequest) (row : Row) :
    Except Fault TreeQuery := do
  let query ← settings.setting.related ⟨kinship, walk.includeSelf, .ofRow row, settings.limit⟩
  match walk.maxDepth, kinship with
  | none, _ => return query
  | some depth, .ancestors => query.apply (.whereDepth (.str ">=") (.int (-depth)))
  | some depth, _ => query.apply (.whereDepth (.str "<=") (.int depth))

/-- The answer to a request for ancestors or descendants. -/
def answerRelation (settings : Settings) (table : Table) (kinship : Kinship) (walk : WalkRequest) :
    Outcome Answer := do
  let row ← nodeOfKey table walk.id
  let rows ← orFault do
    let query ← relationQuery settings kinship walk row
    orderedRows table query walk.order
  answerWalk rows

def answerAncestors (settings : Settings) (table : Table) (request : Request) (key : String) :
    Outcome Answer := do
  let walk ← orInvalid (WalkRequest.ofRequest request key .breadth)
  answerRelation settings table .ancestors walk

def answerDescendants (settings : Settings) (table : Table) (request : Request) (key : String) :
    Outcome Answer := do
  let walk ← orInvalid (WalkRequest.ofRequest request key .depth)
  answerRelation settings table .descendants walk

def answerSiblings (settings : Settings) (table : Table) (request : Request) (key : String) :
    Outcome Answer := do
  let (id, includeSelf) ← orInvalid
    (Check.both (pathKey key) (request.parameter "include_self" (.ok false) truth))
  let row ← nodeOfKey table id
  let rows ← orFault do
    let query ← settings.setting.related ⟨.siblings, includeSelf, .ofRow row, .null⟩
    orderedRows table query .depth
  answerWalk rows

def treeQuery (settings : Settings) : Except Fault TreeQuery := settings.setting.tree settings.limit

def treeRows (settings : Settings) (table : Table) : Except Fault (List TreeRow) := do
  orderedRows table (← treeQuery settings) .depth

def answerTree (settings : Settings) (table : Table) : Outcome Answer := do
  answerWalk (← orFault (treeRows settings table))

/-- The answer to a request for the nodes of the table under a scope, by key. -/
def answerScope (table : Table) (scope : Scope) : Outcome Answer := do
  let rows ← orFault do
    let query ← (TreeQuery.ofModel .standard true).applyAll [scope, .orderBy "id" false]
    queryRows query table
  answerNodes (rows.map TreeRow.row)

/-- The answer to a request for the children of a node. -/
def answerChildren (table : Table) (key : String) : Outcome Answer := do
  let id ← orInvalid (pathKey key)
  answerNodes (byKey (← orFault (childrenOf table id)))

/-- The answer to a request for the keys from the root to a node. -/
def answerPath (settings : Settings) (table : Table) (key : String) : Outcome Answer := do
  let id ← orInvalid (pathKey key)
  let row ← nodeOfKey table id
  let rows ← orFault do
    let query ← relationQuery settings .ancestors ⟨id, true, .breadth, none⟩ row
    orderedRows table query .breadth
  return .json (.arr (rows.map fun treeRow => treeRow.row.key.toJson))

end AdjacencyForest.Service
