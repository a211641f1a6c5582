import AdjacencyForest.Traversal.Evaluation

/-!
# Queries

A `TreeQuery` reads the base table of a model or a recursive expression. Scopes add conditions and
orders to it; they resolve their names against what the query reads. Its rows are the source's rows
that satisfy all conditions, sorted by the orders in turn.

Main statements: `mem_matching` says which rows a query has, and `length_arranged` that
sorting loses none.
-/
namespace AdjacencyForest

/-- A call that narrows or orders a query. -/
inductive Scope where
  | isRoot
  | hasParent
  | hasChildren
  | isLeaf
  | whereDepth (operator value : Json)
  | breadthFirst
  | depthFirst
  | orderBy (name : String) (descending : Bool)
  | satisfying (constraint : Constraint)

/-- A field to sort by. -/
structure SortKey where
  field : Field
  descending : Bool

/-- A query on the table of a model or on an expression. -/
structure TreeQuery where
  model : TreeModel
  /-- Whether the query has a session to run in. -/
  bound : Bool
  expression : Option RecursiveExpression
  filters : List Criterion
  orders : List SortKey

namespace TreeQuery

def ofModel (model : TreeModel) (bound : Bool) : TreeQuery := ⟨model, bound, none, [], []⟩

def ofExpression (expression : RecursiveExpression) : TreeQuery :=
  ⟨expression.model, true, some expression, [], []⟩

def sourceName (query : TreeQuery) : String :=
  match query.expression with
  | some expression => expression.spec.expressionName
  | none => query.model.tableName

def display (query : TreeQuery) : String :=
  s!"<TreeQuery {query.model.className} from {query.sourceName}>"

def field (query : TreeQuery) (name : String) : Except Fault Field :=
  let found := match query.expression with
    | some expression => expression.field? name
    | none => (query.model.column? name).map Field.column
  match found with
  | some field => .ok field
  | none => .error (.noColumn name)

def filtered (query : TreeQuery) (criterion : Criterion) : TreeQuery :=
  { query with filters := query.filters ++ [criterion] }

def sorted (query : TreeQuery) (field : Field) (descending : Bool) : TreeQuery :=
  { query with orders := query.orders ++ [⟨field, descending⟩] }

def comparisonOf : Json → Except Fault Comparison
  | .str symbol => match Comparison.ofSymbol? symbol with
    | some comparison => .ok comparison
    | none => .error (.unknownOperator (.str symbol))
  | .arr _ | .obj _ => .error .notAnInteger
  | given => .error (.unknownOperator given)

def apply (query : TreeQuery) : Scope → Except Fault TreeQuery
  | .isRoot => .ok (query.filtered (.isNull (.column .parent)))
  | .hasParent => .ok (query.filtered (.isNotNull (.column .parent)))
  | .hasChildren => .ok (query.filtered (.isParent (.column .key)))
  | .isLeaf => .ok (query.filtered (.isNoParent (.column .key)))
  | .whereDepth operator value => do
    let comparison ← comparisonOf operator
    if query.expression.isNone then throw .depthOnBase
    let criterion ← Criterion.ofComparison .depth comparison value
    return query.filtered criterion
  | .breadthFirst =>
    if query.expression.isNone then .error .depthOnBase else .ok (query.sorted .depth false)
  | .depthFirst =>
    if query.expression.isNone then .error .pathOnBase else .ok (query.sorted .path false)
  | .orderBy name descending => do
    let field ← query.field name
    return query.sorted field descending
  | .satisfying constraint => do
    let field ← query.field constraint.column
    return query.filtered (constraint.criterion field)

def applyAll (query : TreeQuery) (scopes : List Scope) : Except Fault TreeQuery :=
  scopes.foldlM apply query

def compareBy (key : SortKey) (left right : TreeRow) : Ordering :=
  let order := (left.value key.field).compareWith (right.value key.field)
  if key.descending then order.swap else order

def compareRows (keys : List SortKey) (left right : TreeRow) : Ordering :=
  keys.foldr (fun key later => (compareBy key left right).then later) .eq

/-- The rows sorted by the keys; rows that no key tells apart keep their order. -/
def arranged (keys : List SortKey) (rows : List TreeRow) : List TreeRow :=
  if keys.isEmpty then rows
  else rows.mergeSort fun left right => compareRows keys left right != .gt

theorem length_arranged (keys : List SortKey) (rows : List TreeRow) :
    (arranged keys rows).length = rows.length := by
  unfold arranged
  split <;> simp

def sourceRows? (query : TreeQuery) (table : Table) : Option (List TreeRow) :=
  match query.expression with
  | some expression => expression.rows? table
  | none => some (List.map TreeRow.ofRow table)

def matchesRow (query : TreeQuery) (table : Table) (treeRow : TreeRow) : Bool :=
  let reading := treeRow.reading query.model table.parents
  query.filters.all reading.satisfies

def matching (query : TreeQuery) (table : Table) (source : List TreeRow) : List TreeRow :=
  source.filter (query.matchesRow table)

theorem mem_matching {query : TreeQuery} {table : Table} {source : List TreeRow}
    {treeRow : TreeRow} :
    treeRow ∈ query.matching table source ↔
      treeRow ∈ source ∧ ∀ criterion ∈ query.filters,
        (treeRow.reading query.model table.parents).satisfies criterion = true := by
  simp [matching, matchesRow]

/-- The rows of the query in order; `none` if the walk does not end. -/
def rows? (query : TreeQuery) (table : Table) : Option (List TreeRow) :=
  (query.sourceRows? table).map fun source => arranged query.orders (query.matching table source)

/-- The count of rows; orders do not matter. -/
def count? (query : TreeQuery) (table : Table) : Option Nat :=
  (query.sourceRows? table).map fun source => (query.matching table source).length

/-- The values that are handed to the store, in the order of the text. -/
def parameters (query : TreeQuery) : List (Field × Json) :=
  (match query.expression with
    | some expression => expression.parameters
    | none => []) ++ query.filters.flatMap Criterion.parameters

/-- The first of the values that the store refuses, if any. -/
def checkParameters (parameters : List (Field × Json)) : Except Fault Unit :=
  parameters.zipIdx.forM fun (parameter, index) =>
    match Value.ofParameter parameter.1 parameter.2 with
    | .ok _ => .ok ()
    | .error .tooLarge => .error .integerOverflow
    | .error (.unsupported kind) => .error (.unbindable (index + 1) kind)

end TreeQuery
end AdjacencyForest
