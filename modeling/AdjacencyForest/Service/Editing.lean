import AdjacencyForest.Service.Walks

/-!
# Creating, changing and deleting nodes

Each of these requests changes one row or none. A parent must be there, except that zero stands for
none; a node must not be moved below itself; a node with children is not deleted.

Main statement: a node that is created is in the table afterwards (`mem_of_addNode`).
-/
namespace AdjacencyForest.Service

/-- The table after a request, and the answer. -/
abbrev Edit := Outcome (Table × Answer)

def NodeDraft.toFields (draft : NodeDraft) : NodeFields where
  parent := Json.ofOption Json.int draft.parent
  label := .str draft.label
  payload := draft.payload
  hasPayload := true

def draftOf (data : Option Json) : Check NodeDraft :=
  Check.within (.name "body") <|
    match data with
    | none => Check.fail .missing .null
    | some input => NodeDraft.ofBody input

/-- A parent must be there; zero and none are not looked for. -/
def checkParent (table : Table) (parent : Option Int) : Outcome Unit := do
  match parent with
  | none => return
  | some id =>
    if id = 0 then return
    match ← orFault (rowOf? table id) with
    | some _ => return
    | none => throw (.status 400 s!"Parent with id {id} not found")

def answerRow (table : Table) (key : Value) : Outcome Answer := do
  match table.find? key with
  | none => throw (.fault .rowGone)
  | some row => return .json (← orUnanswerable (viewRow row)).toJson

/-- The table with a new node, and the answer. -/
def addNode (table : Table) (draft : NodeDraft) : Edit := do
  checkParent table draft.parent
  let (table, key) ← orFault (TreeModel.standard.insertNode table draft.toFields)
  return (table, ← answerRow table key)

def answerShow (table : Table) (key : String) : Outcome Answer := do
  let id ← orInvalid (pathKey key)
  let row ← nodeOfKey table id
  return .json (← orUnanswerable (viewRow row)).toJson

theorem mem_of_addNode {table : Table} {draft : NodeDraft} {result : Table × Answer}
    (added : addNode table draft = .ok result) :
    ∃ key, TreeModel.standard.rowOf key draft.toFields ∈ result.1 := by
  unfold addNode at added
  cases parent : checkParent table draft.parent with
  | error refusal =>
    rw [parent] at added
    cases added
  | ok _ =>
    rw [parent] at added
    cases inserted : TreeModel.standard.insertNode table draft.toFields with
    | error fault =>
      rw [inserted] at added
      cases added
    | ok stored =>
      rw [inserted] at added
      change (answerRow stored.1 stored.2).bind (fun answer => .ok (stored.1, answer)) =
        .ok result at added
      cases shown : answerRow stored.1 stored.2 with
      | error refusal =>
        rw [shown] at added
        cases added
      | ok answer =>
        rw [shown] at added
        cases added
        exact ⟨stored.2, TreeModel.mem_of_insertNode inserted⟩

def answerCreate (table : Table) (request : Request) : Edit := do
  let data ← request.body.data?
  let draft ← orInvalid (draftOf data)
  addNode table draft

def checkMove (settings : Settings) (table : Table) (row : Row) (parent : Option Int) :
    Outcome Unit := do
  match parent with
  | none => return
  | some id =>
    if ← orFault (isAtOrBelow settings table row (.int id)) then
      throw (.status 400 "A node cannot be moved below itself.")

/-- The table with a node changed, and the answer. -/
def changeNode (settings : Settings) (table : Table) (id : Int) (draft : NodeDraft) : Edit := do
  let row ← nodeOfKey table id
  checkParent table draft.parent
  checkMove settings table row draft.parent
  let node : NodeFields := { draft.toFields with key := row.key.toJson }
  let (table, key) ← orFault (TreeModel.standard.updateNode table row.key (.ofRow row) node)
  return (table, ← answerRow table key)

def answerUpdate (settings : Settings) (table : Table) (request : Request) (key : String) :
    Edit := do
  let data ← request.body.data?
  let (id, draft) ← orInvalid (Check.both (pathKey key) (draftOf data))
  changeNode settings table id draft

def answerDelete (table : Table) (key : String) : Edit := do
  let id ← orInvalid (pathKey key)
  let row ← nodeOfKey table id
  let count := (← orFault (childrenOf table id)).length
  if 0 < count then
    throw (.status 400 s!"Cannot delete node. It is a parent to {count} other nodes.")
  return (TreeModel.deleteNode table row.key,
    .json (.obj [("detail", .str "Node deleted successfully")]))

end AdjacencyForest.Service
