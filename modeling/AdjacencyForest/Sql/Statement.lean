import AdjacencyForest.Query

/-!
# SQL statements

The SQL text of criteria, recursive expressions and queries in the style of an engine, with all
values written as literals. Names that need it are quoted; the path fragments come from the
expression's grammar.

Main statement: a query without conditions has no `WHERE` (`whereClause_nil`).
-/
namespace AdjacencyForest.Sql

def commaList (texts : List String) : String := ", ".intercalate texts

def literal (style : SqlStyle) : Json → String
  | .null => "NULL"
  | .bool true => style.trueWord
  | .bool false => style.falseWord
  | .int i => writeInteger i
  | .num x => NumberLayout.message.write x
  | .str s => style.textLiteral s
  | value => style.textLiteral value.print

/-- Names under which a query reaches its columns. -/
structure Scope where
  style : SqlStyle
  model : TreeModel
  sourceName : String
  depthName : String
  pathName : String

namespace Scope

def ofTable (style : SqlStyle) (model : TreeModel) (sourceName : String) : Scope :=
  ⟨style, model, sourceName, model.depthName, model.pathName⟩

def ofExpression (style : SqlStyle) (expression : RecursiveExpression) : Scope :=
  ⟨style, expression.model, expression.spec.expressionName, expression.spec.depthName,
    expression.spec.pathName⟩

def bareName (scope : Scope) : Field → String
  | .column column => scope.style.name (scope.model.columnName column)
  | .depth => scope.style.name scope.depthName
  | .path => scope.style.name scope.pathName

def fieldName (scope : Scope) (field : Field) : String :=
  s!"{scope.style.name scope.sourceName}.{scope.bareName field}"

def labelled (scope : Scope) (field : Field) : String :=
  s!"{scope.fieldName field} AS {scope.bareName field}"

def parentKeys (scope : Scope) : String :=
  let parent := s!"children.{scope.style.name scope.model.parentName}"
  s!"SELECT {parent} \nFROM {scope.style.name scope.model.tableName} AS children \nWHERE {parent} IS NOT NULL"

def criterion (scope : Scope) : Criterion → String
  | .compare field comparison value =>
    s!"{scope.fieldName field} {comparison.symbol} {literal scope.style value}"
  | .isNull field => s!"{scope.fieldName field} IS NULL"
  | .isNotNull field => s!"{scope.fieldName field} IS NOT NULL"
  | .among field values =>
    if values.isEmpty then s!"{scope.fieldName field} IN (NULL) AND (1 != 1)"
    else s!"{scope.fieldName field} IN ({commaList (values.map (literal scope.style))})"
  | .isParent field => s!"{scope.fieldName field} IN ({scope.parentKeys})"
  | .isNoParent field => s!"({scope.fieldName field} NOT IN ({scope.parentKeys}))"
  | .both left right => s!"{scope.criterion left} AND {scope.criterion right}"

/-- The clause of all conditions; none if there are none. -/
def whereClause (scope : Scope) (criteria : List Criterion) : String :=
  if criteria.isEmpty then ""
  else
    let conditions := " AND ".intercalate (criteria.map scope.criterion)
    s!" \nWHERE {conditions}"

theorem whereClause_nil (scope : Scope) : scope.whereClause [] = "" := rfl

/-- The clause of all orders; none if there are none. -/
def orderClause (scope : Scope) (orders : List SortKey) : String :=
  if orders.isEmpty then ""
  else
    let keys := orders.map fun key =>
      scope.fieldName key.field ++ (if key.descending then " DESC" else "")
    s!" ORDER BY {commaList keys}"

def tableFields (scope : Scope) : List Field := scope.model.columns.map Field.column

end Scope

/-- The source after `FROM`. -/
def sourceText (style : SqlStyle) (source : Source) : String :=
  match source.otherName with
  | none => style.name source.tableName
  | some name => s!"{style.name source.tableName} AS {style.name name}"

/-- A path fragment inside a statement: percent signs are written twice once more. -/
def pathText (style : SqlStyle) (grammar : PathGrammar) (fragment : PathFragment) :
    Except Fault String := do
  let text ← grammar.fragment style fragment
  return String.ofList (style.percents text.toList)

namespace Expression

def sourceScope (style : SqlStyle) (expression : RecursiveExpression) : Scope :=
  ⟨style, expression.model, expression.source.name, expression.spec.depthName,
    expression.spec.pathName⟩

/-- The anchor query; `column` writes a column of the source. -/
def anchor (style : SqlStyle) (expression : RecursiveExpression) (column : Scope → Field → String) :
    Except Fault String := do
  let scope := sourceScope style expression
  let path ← pathText style expression.grammar expression.startFragment
  let columns := scope.tableFields.map (column scope) ++
    [s!"{writeInteger expression.initialDepth} AS {scope.bareName .depth}",
      s!"{path} AS {scope.bareName .path}"]
  return s!"SELECT {commaList columns} \nFROM {sourceText style expression.source}{scope.whereClause [expression.anchor]}"

def recursive (style : SqlStyle) (expression : RecursiveExpression) : Except Fault String := do
  let source := sourceScope style expression
  let scope := Scope.ofExpression style expression
  let path ← pathText style expression.grammar expression.appendFragment
  let sign := if expression.depthStep < 0 then "-" else "+"
  let columns := source.tableFields.map source.labelled ++
    [s!"{scope.fieldName .depth} {sign} 1 AS {scope.bareName .depth}",
      s!"{path} AS {scope.bareName .path}"]
  let link := s!"{scope.fieldName (.column expression.linkFrom)} = {source.fieldName (.column expression.linkTo)}"
  let guard := scope.whereClause expression.guard.toList
  return s!"SELECT {commaList columns} \nFROM {sourceText style expression.source}{style.joinWords}{style.name expression.spec.expressionName} ON {link}{guard}"

def withClause (style : SqlStyle) (expression : RecursiveExpression) : Except Fault String := do
  let anchor ← anchor style expression Scope.labelled
  let recursive ← recursive style expression
  let names := expression.columnNames.map style.name
  return s!"{style.withWords}{style.name expression.spec.expressionName}({commaList names}) AS \n({anchor} UNION ALL {recursive})\n "

def anchorStatement (style : SqlStyle) (expression : RecursiveExpression) : Except Fault String :=
  anchor style expression Scope.fieldName

/-- The statement that reads all columns of the expression. -/
def statement (style : SqlStyle) (expression : RecursiveExpression) : Except Fault String := do
  let clause ← withClause style expression
  let scope := Scope.ofExpression style expression
  let columns := (scope.tableFields ++ [Field.depth, Field.path]).map scope.fieldName
  return s!"{clause}SELECT {commaList columns} \nFROM {style.name expression.spec.expressionName}"

end Expression

/-- The ways to run a query. -/
inductive Run where
  | all
  | first
  | count
  deriving DecidableEq, Repr

namespace Query

def scope (style : SqlStyle) (query : TreeQuery) : Scope :=
  match query.expression with
  | some expression => .ofExpression style expression
  | none => .ofTable style query.model query.model.tableName

def leading (style : SqlStyle) (query : TreeQuery) : Except Fault String :=
  match query.expression with
  | some expression => Expression.withClause style expression
  | none => .ok ""

/-- The columns that a query loads: depth and path of an expression, then those of the table. -/
def loadedFields (scope : Scope) (query : TreeQuery) : List Field :=
  (if query.expression.isSome then [.depth, .path] else []) ++ scope.tableFields

def statement (style : SqlStyle) (query : TreeQuery) (run : Run) : Except Fault String := do
  let scope := scope style query
  let leading ← leading style query
  let source := style.name query.sourceName
  let conditions := scope.whereClause query.filters
  match run with
  | .count =>
    let columns := commaList (scope.tableFields.map scope.labelled)
    return s!"{leading}SELECT count(*) AS count_1 \nFROM (SELECT {columns} \nFROM {source}{conditions}) AS anon_1"
  | run =>
    let columns := commaList ((loadedFields scope query).map scope.fieldName)
    let body := s!"{columns} \nFROM {source}{conditions}{scope.orderClause query.orders}"
    if run = .all then return s!"{leading}SELECT {body}"
    else match style.rowLimit with
      | .limit => return s!"{leading}SELECT {body} \n LIMIT 1"
      | .limitOffset => return s!"{leading}SELECT {body}\n LIMIT 1 OFFSET 0"
      | .top => return s!"{leading}SELECT TOP 1 {body}"

end Query
end AdjacencyForest.Sql
