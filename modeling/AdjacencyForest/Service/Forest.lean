import AdjacencyForest.Service.Columns
import AdjacencyForest.Service.Schema
import AdjacencyForest.Session.Writing
import AdjacencyForest.Store.Like

/-!
# The forest of the service

The service keeps one table of the standard model. Here are the questions that its endpoints ask the
table (which rows, below which row, matching which text) and the settings that change the answers.
A question may fail: integers of more than 64 bits are refused by the store, and a walk needs an
engine with a grammar.

Main statement: a row is found under its own key (`key_of_rowOf?`).
-/
namespace AdjacencyForest.Service

/-- The settings of a running service. -/
structure Settings where
  /-- The limit of depth of all walks. -/
  treeMaxDepth : Option Int := none
  /-- The grammars that are known. -/
  registry : Registry := .standard

namespace Settings

def setting (settings : Settings) : Setting :=
  { model := .standard, registry := settings.registry, engine := .sqlite }

def limit (settings : Settings) : Json := Json.ofOption Json.int settings.treeMaxDepth

end Settings

/-- The rows of a query, if the store takes its values. -/
def queryRows (query : TreeQuery) (table : Table) : Except Fault (List TreeRow) := do
  TreeQuery.checkParameters query.parameters
  match query.rows? table with
  | some rows => return rows
  | none => throw .endlessWalk

def bindInteger (i : Int) : Except Fault Value :=
  if fitsInt64 i then .ok (.int i) else .error .integerOverflow

/-- The row of a key, if there is one. -/
def rowOf? (table : Table) (id : Int) : Except Fault (Option Row) := do
  let key ← bindInteger id
  return table.find? key

theorem key_of_rowOf? {table : Table} {id : Int} {row : Row}
    (found : rowOf? table id = .ok (some row)) : row.key = .int id := by
  unfold rowOf? bindInteger at found
  split at found
  · simp only [bind, Except.bind, pure, Except.pure, Except.ok.injEq] at found
    simpa using List.find?_some found
  · simp [bind, Except.bind] at found

def childrenOf (table : Table) (id : Int) : Except Fault Table := do
  let key ← bindInteger id
  return List.filter (fun row => row.parent.equals key) table

/-- The query of the node and all below it, as deep as the table has rows. -/
def subtreeQuery (settings : Settings) (table : Table) (row : Row) : Except Fault TreeQuery :=
  settings.setting.related ⟨.descendants, true, .ofRow row, .int table.length⟩

def isAtOrBelow (settings : Settings) (table : Table) (row : Row) (candidate : Value) :
    Except Fault Bool := do
  let query ← subtreeQuery settings table row
  let rows ← queryRows query table
  return rows.any fun treeRow => treeRow.row.key == candidate

/-- A text as the pattern matcher sees it: up to its first NUL. -/
def untilNul (text : List Char) : List Char := text.takeWhile (· != Char.ofNat 0)

/-- Whether a text holds a term, by the rule of patterns. -/
def textMatches (term : String) (text : String) : Bool :=
  Like.isMatch (untilNul ('%' :: (term.toList ++ ['%']))) (untilNul text.toList)

/-- Whether the label or the key of a row holds a term. -/
def rowMatches (term : String) (row : Row) : Bool :=
  (row.label.text?.map (textMatches term)).getD false ||
    (row.key.text?.map (textMatches term)).getD false

/-- The rows that hold a term; too long a term is refused as soon as there is a row. -/
def searchRows (table : Table) (term : String) : Except Fault Table :=
  if Like.patternLimit < term.utf8ByteSize + 2 && !List.isEmpty table then .error .patternTooComplex
  else .ok (List.filter (rowMatches term) table)

def rowFields (row : Row) : List (String × Json) :=
  [("id", row.key.toJson), ("label", row.label.toJson), ("parent_id", row.parent.toJson),
    ("meta", row.payload.getD .null)]

def viewRow (row : Row) : Check NodeView := NodeView.ofFields (rowFields row)

def viewTreeRow (treeRow : TreeRow) : Check TreeNodeView :=
  TreeNodeView.ofFields (rowFields treeRow.row ++
    [("depth", treeRow.depth.toJson), ("path", treeRow.path.toJson)])

/-- Views of all items of a list, each at its position. -/
def viewAll {α β : Type} (view : α → Check β) : Nat → List α → Check (List β)
  | _, [] => .ok []
  | index, item :: rest =>
    (Check.both (Check.within (.position index) (view item)) (viewAll view (index + 1) rest)).map
      fun pair => pair.1 :: pair.2

end AdjacencyForest.Service
