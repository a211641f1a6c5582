import AdjacencyForest.Store.Table
import AdjacencyForest.Traversal.Expression

/-!
# Evaluating recursive expressions

The rows of a recursive expression on a table. A queue holds the rows that are not continued from
yet, at first the anchor rows. Each turn takes its first row, which becomes a row of the result, and
puts the rows that are joined with it at the end. The result is complete when the queue is empty; a
count of turns that is enough for every finite walk bounds the evaluation.

Main statements: `drain_succ` is one turn of the queue, `drain_mono` says that more turns change
nothing once the queue is empty.
-/
namespace AdjacencyForest

/-- A row as a query shows it: depth and path are null for a row of the base table. -/
structure TreeRow where
  row : Row
  depth : Value
  path : Value
  deriving Inhabited

namespace TreeRow

def ofRow (row : Row) : TreeRow := ⟨row, .null, .null⟩

def value (treeRow : TreeRow) : Field → Value
  | .column column => treeRow.row.value column
  | .depth => treeRow.depth
  | .path => treeRow.path

def fieldAffinity (model : TreeModel) : Field → Affinity
  | .column column => model.affinity column
  | .depth | .path => .none

def reading (model : TreeModel) (parents : List Value) (treeRow : TreeRow) : Reading where
  value := treeRow.value
  affinity := fieldAffinity model
  parents := parents

end TreeRow

namespace Value

/-- An integer as the store computes it: beyond 64 bits it is a number. -/
def ofInt (i : Int) : Value := if fitsInt64 i then .int i else .real (Binary64.ofInt i)

def plus (step : Int) : Value → Value
  | .int i => if fitsInt64 (i + step) then .int (i + step)
    else .real ((Binary64.ofInt i).addInt step)
  | .real x => .real (x.addInt step)
  | _ => .null

def asText (value : Value) : Value :=
  match value.text? with
  | some written => .text written
  | none => .null

/-- A path with a separator and a key after it; null if one of them is. -/
def appendKey (separator : String) (path key : Value) : Value :=
  match path.text?, key.text? with
  | some before, some after => .text (before ++ separator ++ after)
  | _, _ => .null

end Value

namespace RecursiveExpression

def anchorRows (expression : RecursiveExpression) (table : Table) : List TreeRow :=
  let parents := table.parents
  let anchors := List.filter (fun row =>
    ((TreeRow.ofRow row).reading expression.model parents).satisfies expression.anchor) table
  anchors.map fun row =>
    ⟨row, Value.ofInt expression.initialDepth, (row.value expression.keyColumn).asText⟩

def continues (expression : RecursiveExpression) (treeRow : TreeRow) : Bool :=
  match expression.guard with
  | none => true
  | some criterion => (treeRow.reading expression.model []).satisfies criterion

/-- The row that joins a source row to a row found before. -/
def extend (expression : RecursiveExpression) (treeRow : TreeRow) (row : Row) : TreeRow :=
  ⟨row, treeRow.depth.plus expression.depthStep,
    treeRow.path.appendKey expression.spec.separator (row.value expression.keyColumn)⟩

def successors (expression : RecursiveExpression) (table : Table) (treeRow : TreeRow) :
    List TreeRow :=
  if expression.continues treeRow then
    (List.filter (fun row =>
      (treeRow.row.value expression.linkFrom).equals (row.value expression.linkTo)) table).map
      (expression.extend treeRow)
  else []

/-- The rows of the result from a queue on; `none` if the turns run out. -/
def drain (next : TreeRow → List TreeRow) : (turns : Nat) → (queue : List TreeRow) →
    Option (List TreeRow)
  | _, [] => some []
  | 0, _ :: _ => none
  | turns + 1, first :: rest => (drain next turns (rest ++ next first)).map (first :: ·)

theorem drain_nil (next : TreeRow → List TreeRow) (turns : Nat) :
    drain next turns [] = some [] := by
  cases turns <;> rfl

theorem drain_succ (next : TreeRow → List TreeRow) (turns : Nat) (first : TreeRow)
    (rest : List TreeRow) :
    drain next (turns + 1) (first :: rest) =
      (drain next turns (rest ++ next first)).map (first :: ·) := rfl

theorem drain_mono {next : TreeRow → List TreeRow} {turns : Nat} {queue rows : List TreeRow}
    (complete : drain next turns queue = some rows) : drain next (turns + 1) queue = some rows := by
  induction turns generalizing queue rows with
  | zero =>
    cases queue with
    | nil => simpa [drain_nil] using complete
    | cons first rest => simp [drain] at complete
  | succ turns ih =>
    cases queue with
    | nil => simpa [drain_nil] using complete
    | cons first rest =>
      rw [drain_succ] at complete ⊢
      obtain ⟨tail, found, same⟩ := Option.map_eq_some_iff.mp complete
      rw [ih found, Option.map_some, same]

/-- The count of levels below the anchor that a walk can have: up to the limit of depth, or as many
as there are rows. -/
def levels (expression : RecursiveExpression) (table : Table) : Nat :=
  match expression.guard with
  | some (.compare _ _ bound) =>
    match bound.toInteger with
    | .ok limit => (limit - expression.initialDepth).natAbs + 1
    | .error _ => table.length
  | _ => table.length

/-- A count of turns that is enough for every finite walk: each anchor row and, on each level, each
row of the table. -/
def turns (expression : RecursiveExpression) (table : Table) : Nat :=
  (expression.anchorRows table).length * (1 + table.length * expression.levels table)

/-- The rows of the expression on a table; `none` if the walk does not end. -/
def rows? (expression : RecursiveExpression) (table : Table) : Option (List TreeRow) :=
  drain (expression.successors table) (expression.turns table) (expression.anchorRows table)

/-- The values that are handed to the store, in the order of the text. -/
def parameters (expression : RecursiveExpression) : List (Field × Json) :=
  expression.anchor.parameters ++
    match expression.guard with
    | some criterion => criterion.parameters
    | none => []

end RecursiveExpression
end AdjacencyForest
