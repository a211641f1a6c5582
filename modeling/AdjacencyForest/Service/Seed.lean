import AdjacencyForest.Session.Writing

/-!
# The first nodes

An empty table is filled with a small catalog. Where keys are drawn from a sequence, the sequence is
then set behind the keys that were given.

Main statement: a table that has rows is left as it is (`seed_of_nonempty`).
-/
namespace AdjacencyForest.Service

def catalogNode (key : Int) (parent : Option Int) (label : String) : NodeFields where
  key := .int key
  parent := Json.ofOption Json.int parent
  label := .str label

def styledNode (key : Int) (parent : Option Int) (label : String) (hundredths : Nat) : NodeFields :=
  { catalogNode key parent label with
    payload := .obj [("style_factor", .num (Binary64.ofDecimal false hundredths (-2)))]
    hasPayload := true }

def catalog : List NodeFields :=
  [catalogNode 1 none "Catalog",
    catalogNode 2 (some 1) "Clothing",
    catalogNode 3 (some 1) "Footwear",
    catalogNode 4 (some 2) "Shirts",
    catalogNode 5 (some 2) "Trousers",
    catalogNode 6 (some 3) "Boots",
    styledNode 7 (some 4) "Slim fit" 95,
    styledNode 8 (some 4) "Regular fit" 105,
    catalogNode 9 (some 5) "Chinos"]

def insertNodes (table : Table) (nodes : List NodeFields) : Except Fault Table :=
  nodes.foldlM (fun table node => do
    return (← TreeModel.standard.insertNode table node).1) table

/-- The statement that sets the sequence of keys, where the engine has one. -/
def sequenceStatements (dialect : String) (table : Table) : List String :=
  if dialect = "postgresql" then
    let greatest := table.greatestKey?.getD 0
    [s!"SELECT setval('nodes_id_seq', {greatest}, true);"]
  else []

/-- The table with the catalog if it was empty, and the statements on the sequence of keys. -/
def seed (dialect : String) (table : Table) : Except Fault (Table × List String) := do
  if !List.isEmpty table then return (table, [])
  let table ← insertNodes table catalog
  return (table, sequenceStatements dialect table)

theorem seed_of_nonempty {dialect : String} {table : Table} (nonempty : table ≠ []) :
    seed dialect table = .ok (table, []) := by
  cases table with
  | nil => exact absurd rfl nonempty
  | cons row rest => rfl

end AdjacencyForest.Service
