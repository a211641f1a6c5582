import AdjacencyForest.Service.Export
import AdjacencyForest.Service.Import
import AdjacencyForest.Service.Routing

/-!
# The service

A request is dispatched by its method and its address and then performed on the table. The table
after a request that is refused is the table before it; so it is after a request that only reads.

Main statements: `table_of_refused` and `table_of_read`.
-/
namespace AdjacencyForest.Service

def reading (table : Table) (outcome : Outcome Answer) : Edit :=
  outcome.map fun answer => (table, answer)

def perform (settings : Settings) (table : Table) (request : Request) (key : String) :
    Action → Edit
  | .exportNodes => reading table (answerExport settings table)
  | .importNodes => answerImport settings table request
  | .listNodes => reading table (answerPage table request)
  | .createNode => answerCreate table request
  | .showNode => reading table (answerShow table key)
  | .updateNode => answerUpdate settings table request key
  | .deleteNode => answerDelete table key
  | .ancestors => reading table (answerAncestors settings table request key)
  | .descendants => reading table (answerDescendants settings table request key)
  | .siblings => reading table (answerSiblings settings table request key)
  | .searchParents => reading table (answerProposals table request)
  | .wholeTree => reading table (answerTree settings table)
  | .roots => reading table (answerScope table .isRoot)
  | .leaves => reading table (answerScope table .isLeaf)
  | .children => reading table (answerChildren table key)
  | .pathTo => reading table (answerPath settings table key)

def Action.writes : Action → Bool
  | .importNodes | .createNode | .updateNode | .deleteNode => true
  | _ => false

def outcome (settings : Settings) (table : Table) (request : Request) : Edit :=
  if !request.body.isSendable then .error (.fault .unwritableNumber)
  else match dispatch request.method.toUpper request.path with
    | .action action key => perform settings table request key action
    | .wrongMethod => .error (.status 405 "Method Not Allowed")
    | .notFound => .error (.status 404 "Not Found")

/-- The table after a request, and how it is answered. -/
def respond (settings : Settings) (table : Table) (request : Request) : Table × Outcome Answer :=
  match outcome settings table request with
  | .ok (after, answer) => (after, .ok answer)
  | .error refusal => (table, .error refusal)

def tableAfter (settings : Settings) (table : Table) (requests : List Request) : Table :=
  requests.foldl (fun table request => (respond settings table request).1) table

theorem table_of_refused {settings : Settings} {table : Table} {request : Request}
    {refusal : Refusal} (refused : (respond settings table request).2 = .error refusal) :
    (respond settings table request).1 = table := by
  unfold respond at refused ⊢
  split <;> simp_all

theorem table_of_read {settings : Settings} {table : Table} {request : Request} {action : Action}
    {key : String} (dispatched : dispatch request.method.toUpper request.path = .action action key)
    (reads : action.writes = false) : (respond settings table request).1 = table := by
  have same (result : Outcome Answer) (after : Table × Answer)
      (read : reading table result = .ok after) : after.1 = table := by
    cases result <;> simp [reading, Except.map] at read
    simp [← read]
  cases answered : outcome settings table request with
  | error refusal => simp [respond, answered]
  | ok after =>
    unfold outcome at answered
    split at answered
    · simp at answered
    · simp only [dispatched] at answered
      have kept : after.1 = table := by
        cases action <;> simp only [Action.writes, Bool.true_eq_false] at reads <;>
          exact same _ after answered
      simp only [respond, outcome, dispatched]
      split
      next written answer complete =>
        split at complete
        · simp at complete
        · rw [answered] at complete
          cases complete
          exact kept
      next => rfl

end AdjacencyForest.Service
