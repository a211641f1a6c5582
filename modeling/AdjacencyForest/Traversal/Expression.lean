import AdjacencyForest.Sql.PathGrammar
import AdjacencyForest.Traversal.Source
import AdjacencyForest.Traversal.Basic

/-!
# Recursive expressions

A traversal over a source becomes a recursive expression: an anchor query that selects the first
rows, and a recursive query that joins the source with the rows found so far. `compile` looks up all
names, so that what is left can be written as SQL (`Sql.Statement`) and evaluated
(`Traversal.Evaluation`).

Main statement: an engine without a grammar is refused before anything else is looked at
(`compile_of_unsupported`).
-/
namespace AdjacencyForest

/-- A traversal with all its names looked up. -/
structure RecursiveExpression where
  model : TreeModel
  source : Source
  spec : Traversal
  grammar : PathGrammar
  /-- The depth of the anchor rows. -/
  initialDepth : Int
  /-- The condition on the anchor rows. -/
  anchor : Criterion
  /-- The key and the parent column of the source. -/
  keyColumn : Column
  parentColumn : Column
  /-- The condition on the rows that are continued from. -/
  guard : Option Criterion

namespace RecursiveExpression

/-- The column of the rows found so far that is joined. -/
def linkFrom (expression : RecursiveExpression) : Column :=
  match expression.spec.direction with
  | .up => expression.parentColumn
  | .down => expression.keyColumn

def linkTo (expression : RecursiveExpression) : Column :=
  match expression.spec.direction with
  | .up => expression.keyColumn
  | .down => expression.parentColumn

def depthStep (expression : RecursiveExpression) : Int :=
  match expression.spec.direction with
  | .up => -1
  | .down => 1

def startFragment (expression : RecursiveExpression) : PathFragment :=
  .start expression.spec.localKey

def appendFragment (expression : RecursiveExpression) : PathFragment :=
  .append s!"{expression.spec.expressionName}.{expression.spec.pathName}" expression.spec.separator
    s!"{expression.source.name}.{expression.spec.localKey}"

/-- The condition under which a row is continued from: a limit M lets rows of depth below M, or
above −M on the way up, go on. -/
def guardOf (spec : Traversal) : Except Fault (Option Criterion) :=
  match spec.maxDepth with
  | .null => .ok none
  | limit => match spec.direction with
    | .up => do
      let bound ← limit.negated
      let criterion ← Criterion.ofComparison .depth .greater bound
      return some criterion
    | .down => do
      let criterion ← Criterion.ofComparison .depth .less limit
      return some criterion

/-- The column of a name, or the fault that there is none. -/
def columnNamed (model : TreeModel) (name : String) : Except Fault Column :=
  match model.column? name with
  | some column => .ok column
  | none => .error (.noColumn name)

/-- The expression of a traversal over a source for an engine. -/
def compile (registry : Registry) (engine : Engine) (model : TreeModel) (source : Source)
    (spec : Traversal) : Except Fault RecursiveExpression := do
  let grammar ← registry.grammarFor engine
  let initialDepth ← spec.initialDepth.toInteger
  let _ ← grammar.fragment (.ofEngine engine) (.start spec.localKey)
  let anchor ← spec.anchor.onTable model
  let _ ← columnNamed model (match spec.direction with
    | .up => spec.parentKey
    | .down => spec.localKey)
  let keyColumn ← columnNamed model spec.localKey
  let parentColumn ← columnNamed model spec.parentKey
  let guard ← guardOf spec
  return {
    model := model
    source := source
    spec := spec
    grammar := grammar
    initialDepth := initialDepth
    anchor := anchor
    keyColumn := keyColumn
    parentColumn := parentColumn
    guard := guard }

theorem compile_of_unsupported {registry : Registry} {engine : Engine} {fault : Fault}
    (unsupported : registry.grammarFor engine = .error fault) (model : TreeModel) (source : Source)
    (spec : Traversal) : compile registry engine model source spec = .error fault := by
  simp only [compile, unsupported]
  rfl

/-- The names of the expression's columns: those of the table, the depth and the path. -/
def columnNames (expression : RecursiveExpression) : List String :=
  expression.model.columns.map expression.model.columnName ++
    [expression.spec.depthName, expression.spec.pathName]

def field? (expression : RecursiveExpression) (name : String) : Option Field :=
  match expression.model.column? name with
  | some column => some (.column column)
  | none =>
    if name = expression.spec.depthName then some .depth
    else if name = expression.spec.pathName then some .path
    else none

end RecursiveExpression
end AdjacencyForest
