import AdjacencyForest.Service.Forest
import AdjacencyForest.Service.Request

/-!
# Lists of nodes

Nodes in the order of their keys: pages of all nodes or of those that hold a search term, and the
first few that could become a parent.

Main statement: the pages of a list are stretches of it, one after the other
(`pageOf_append`).
-/
namespace AdjacencyForest.Service

def byKey (rows : List Row) : List Row :=
  rows.mergeSort fun left right => left.key.compareWith right.key != .gt

def answerNodes (rows : List Row) : Outcome Answer := do
  let views ← orUnanswerable (viewAll viewRow 0 rows)
  return .json (.arr (views.map NodeView.toJson))

/-- The rows of a search, all rows without a term. -/
def searched (table : Table) (term : String) : Except Fault (List Row) := do
  let rows ← if term.isEmpty then pure table else searchRows table term
  return byKey rows

/-- A page of a list: pages have numbers from one on and one size. -/
def pageOf {α : Type} (page size : Nat) (items : List α) : List α :=
  (items.drop ((page - 1) * size)).take size

theorem pageOf_append {α : Type} (page size : Nat) (items : List α) :
    items.take (page * size) ++ pageOf (page + 1) size items = items.take ((page + 1) * size) := by
  rw [pageOf, Nat.add_sub_cancel, Nat.succ_mul, List.take_add]

def proposalLimit : Nat := 10

/-- What a request for a page says. -/
structure PageRequest where
  term : String
  page : Int
  size : Int

namespace PageRequest

def ofRequest (request : Request) : Check PageRequest :=
  (Check.both (request.parameter "search" (.ok "") text)
    (Check.both (request.parameter "page" (.ok 1) positive)
      (request.parameter "page_size" (.ok 25) positive))).map
    fun parts => ⟨parts.1, parts.2.1, parts.2.2⟩

/-- The page and the count of all nodes that hold the term. -/
def rows (request : PageRequest) (table : Table) : Except Fault (List Row × Nat) := do
  let found ← searched table request.term
  let _ ← bindInteger request.size
  let _ ← bindInteger ((request.page - 1) * request.size)
  return (pageOf request.page.toNat request.size.toNat found, found.length)

end PageRequest

def answerPage (table : Table) (request : Request) : Outcome Answer := do
  let page ← orInvalid (PageRequest.ofRequest request)
  let (rows, total) ← orFault (page.rows table)
  let views ← orUnanswerable (Check.within (.name "nodes") (viewAll viewRow 0 rows))
  return .json (PageView.toJson ⟨total, views⟩)

def answerProposals (table : Table) (request : Request) : Outcome Answer := do
  let term ← orInvalid (request.parameter "q" (Check.fail .missing .null) text)
  let rows ← orFault (searchRows table term)
  answerNodes ((byKey rows).take proposalLimit)

end AdjacencyForest.Service
