import AdjacencyForest.Service.Walks

/-!
# Export

The whole tree as a sheet, one row a node in depth-first order: its columns, its payload as text,
its depth and its path. Parent keys stand in one column with empty cells for the roots, so they are
numbers with a fraction.

Main statement: an exported sheet has its header and one row for each node (`length_exportValues`).
-/
namespace AdjacencyForest.Service

def sheetName : String := "Nodes"

def exportHeader : List String := ["id", "label", "parent_id", "meta", "depth", "path"]

/-- The parent keys as one column: numbers if one is missing. -/
def exportParent (anyMissing : Bool) : Value → Json
  | .int i => if anyMissing then .num (Binary64.ofInt i) else .int i
  | value => value.toJson

def exportRow (anyMissing : Bool) (treeRow : TreeRow) : List Json :=
  [treeRow.row.key.toJson, treeRow.row.label.toJson, exportParent anyMissing treeRow.row.parent,
    match treeRow.row.payload.getD .null with
    | .null => .null
    | payload => .str payload.print,
    treeRow.depth.toJson, treeRow.path.toJson]

def exportValues (rows : List TreeRow) : List (List Json) :=
  let anyMissing := rows.any fun treeRow => treeRow.row.parent.isNull
  exportHeader.map Json.str :: rows.map (exportRow anyMissing)

theorem length_exportValues (rows : List TreeRow) :
    (exportValues rows).length = rows.length + 1 := by
  simp [exportValues]

/-- The answer to a request for the sheet of all nodes. -/
def answerExport (settings : Settings) (table : Table) : Outcome Answer := do
  let rows ← orFault (treeRows settings table)
  if rows.isEmpty then throw (.status 404 "No nodes to export.")
  return .workbook (← orFault (sheetOfRows (exportValues rows)))

end AdjacencyForest.Service
