import AdjacencyForest.Proofs.Requests

/-!
# Cycles of a run

No request but one that creates a node can close a cycle, in any table: a change of a node's parent
is refused when the parent is at the node or below it, and an import when one of its nodes is on a
cycle. A new cycle would go through a row that has changed, and there the request has looked.

Main statements: `Step.isCycle`, the cycles after a step were there before it;
`respond_of_move_below`, the answer to a move that would close a cycle; `cycles_of_run`, both for
runs.
-/

open Relation

namespace AdjacencyForest

namespace Table

/-- The table with the row of a key under another parent. -/
def reparented (table : Table) (key parent : Value) : Table :=
  table.modify key fun row => { row with parent := parent }

/-- The keys and the count of rows are integers of the store. -/
structure IsStored (table : Table) : Prop where
  keys : ∀ row ∈ table, ∀ i, row.key = .int i → fitsInt64 i = true
  count : fitsInt64 table.length = true

variable {table : Table} {row : Row} {key parent : Value} {change : Row → Row} {kind : KeyKind}

theorem parent_of_link_modify (keyed : table.IsKeyed kind) (member : row ∈ table)
    (link : (table.modify row.key change).Link row.key parent) : parent = (change row).parent := by
  obtain ⟨other, found, same, rfl⟩ := link
  rcases mem_modify.mp found with ⟨-, different⟩ | ⟨old, oldMember, oldKey, rfl⟩
  · exact absurd same different
  · rw [keyed.eq_of_key oldMember member oldKey]

theorem IsCycle.ne_null {cycle : List Value} (keyed : table.IsKeyed kind)
    (cyclic : table.IsCycle cycle) (member : key ∈ cycle) : key ≠ .null := by
  obtain ⟨row, found, rfl⟩ := cyclic.mem_of_link member
  exact KeyKind.not_null_of_admits (keyed.key row found)

end Table

namespace Service

variable {settings : Settings} {table after : Table} {request : Request} {row : Row}
  {cycle : List Value} {key : String} {id parent : Int} {draft : NodeDraft}

theorem IsPlaced.not_onCycle (keyed : table.IsKeyed .integer) (member : row ∈ table)
    (placed : IsPlaced table row) : ¬ table.OnCycle row := by
  rcases placed with root | ⟨-, free⟩
  · intro around
    obtain ⟨other, same, reached⟩ := (Table.onCycle_iff_below member).mp around
    have admitted := keyed.key other (Table.mem_of_reachable reached member)
    exact KeyKind.not_null_of_admits admitted (same.trans root)
  · exact free

theorem Step.isCycle (keyed : table.IsKeyed .integer) (step : Step settings table request after)
    (creates : ∀ key, ¬ request.Asks .createNode key) (cyclic : after.IsCycle cycle) :
    table.IsCycle cycle := by
  have keyedAfter := step.isKeyed keyed
  cases step with
  | kept => exact cyclic
  | created asked => exact absurd asked (creates _)
  | changed _ _ _ changed =>
    obtain ⟨row, member, change, -, rfl, given, -, allowed⟩ :=
      exists_modify_of_changeNode keyed changed
    have agrees := Table.agreesOutside_modify row.key change table
    -- A cycle through the changed row has the new parent at or below that row, which the request
    -- may not ask for.
    by_cases inside : row.key ∈ cycle
    · obtain ⟨parent, link, below⟩ := cyclic.below agrees member inside
      rw [Table.parent_of_link_modify keyed member link, given] at below
      exact absurd below allowed
    · refine cyclic.of_agreesOutside agrees fun key changed => ?_
      rwa [List.mem_singleton.mp changed]
  | deleted _ deleted =>
    obtain ⟨row, -, -, rfl⟩ := eq_deleteNode_of_answerDelete deleted
    refine cyclic.of_links fun child _ parent parentMember link => ?_
    obtain ⟨other, found, rfl, rfl⟩ := link
    obtain ⟨old, member, -, rfl⟩ := TreeModel.mem_deleteNode.mp found
    split at parentMember
    · exact absurd rfl (cyclic.ne_null keyedAfter parentMember)
    next stays =>
      rw [if_neg stays]
      exact ⟨old, member, rfl, rfl⟩
  | imported _ imported =>
    obtain ⟨ids, ⟨keyed, agrees⟩, placed⟩ := importSheet_keeps keyed imported
    refine cyclic.of_agreesOutside agrees fun key listed inside => ?_
    obtain ⟨row, member, rfl⟩ := cyclic.mem_of_link inside
    exact (placed row member listed).not_onCycle keyed member (cyclic.onCycle keyed member inside)

theorem isCycle_of_tableAfter {requests : List Request} (keyed : table.IsKeyed .integer)
    (creates : ∀ request ∈ requests, ∀ key, ¬ request.Asks .createNode key)
    (cyclic : (tableAfter settings table requests).IsCycle cycle) : table.IsCycle cycle := by
  have kept : (tableAfter settings table requests).IsKeyed .integer ∧
      ∀ cycle, (tableAfter settings table requests).IsCycle cycle → table.IsCycle cycle := by
    refine tableAfter_keeps (fun now =>
      now.IsKeyed .integer ∧ ∀ cycle, now.IsCycle cycle → table.IsCycle cycle)
      ⟨keyed, fun _ cyclic => cyclic⟩ fun request member now after kept step => ?_
    exact ⟨step.isKeyed kept.1, fun cycle cyclic =>
      kept.2 cycle (step.isCycle kept.1 (creates request member) cyclic)⟩
  exact kept.2 cycle cyclic

/-! ## Moves below the node itself -/

theorem below_of_onCycle_reparented (keyed : table.IsKeyed .integer) (member : row ∈ table)
    {parent : Value} (around : (table.reparented row.key parent).OnCycle { row with parent := parent }) :
    ∃ other, other.key = parent ∧ ReflTransGen (table.Joined .down) row other := by
  obtain ⟨cycle, cyclic, inside⟩ := Table.exists_isCycle around
  have agrees : Table.AgreesOutside [row.key] table (table.reparented row.key parent) :=
    Table.agreesOutside_modify row.key _ table
  obtain ⟨given, link, below⟩ := cyclic.below agrees member inside
  rwa [Table.parent_of_link_modify keyed member link] at below

theorem changeNode_of_move_below (keyed : table.IsKeyed .integer) (stored : table.IsStored)
    (supported : settings.registry.grammarFor .sqlite = .ok .sqlite) (member : row ∈ table)
    (rowKey : row.key = .int id) (asked : draft.parent = some parent)
    (around : (table.reparented row.key (.int parent)).OnCycle { row with parent := .int parent }) :
    changeNode settings table id draft =
      .error (.status 400 "A node cannot be moved below itself.") := by
  obtain ⟨other, otherKey, reached⟩ := below_of_onCycle_reparented keyed member around
  have otherMember := Table.mem_of_reachable reached member
  have found : nodeOfKey table id = .ok row :=
    nodeOfKey_eq_ok.mpr ⟨stored.keys row member id rowKey,
      (Table.find?_iff keyed).mpr ⟨member, rowKey⟩⟩
  have checked : checkParent table draft.parent = .ok () := by
    refine checkParent_eq_ok.mpr fun given same => .inr ?_
    obtain rfl : parent = given := Option.some.inj (asked.symm.trans same)
    exact ⟨stored.keys other otherMember parent otherKey,
      Table.contains_iff.mpr ⟨other, otherMember, otherKey⟩⟩
  obtain ⟨below, answered⟩ := exists_isAtOrBelow keyed rowKey (stored.keys row member id rowKey)
    stored.count supported (.int parent)
  have isBelow : below = true :=
    (isAtOrBelow_iff keyed member answered).mpr ⟨other, otherKey, reached⟩
  have refused : checkMove settings table row draft.parent =
      .error (.status 400 "A node cannot be moved below itself.") := by
    rw [asked]
    simp only [checkMove, answered, isBelow]
    rfl
  unfold changeNode
  rw [found]
  simp only [bind, Except.bind, checked, refused]

theorem respond_of_move_below (keyed : table.IsKeyed .integer) (stored : table.IsStored)
    (supported : settings.registry.grammarFor .sqlite = .ok .sqlite)
    (moves : request.Asks .updateNode key) (sendable : request.body.isSendable = true)
    (address : pathKey key = .ok id) (given : request.Gives draft)
    (member : row ∈ table) (rowKey : row.key = .int id) (asked : draft.parent = some parent)
    (around : (table.reparented row.key (.int parent)).OnCycle { row with parent := .int parent }) :
    respond settings table request =
      (table, .error (.status 400 "A node cannot be moved below itself.")) := by
  have refused := changeNode_of_move_below keyed stored supported member rowKey asked around
  obtain ⟨data, body, valid⟩ := given
  have done : outcome settings table request =
      .error (.status 400 "A node cannot be moved below itself.") := by
    rw [outcome_of_asks sendable moves]
    have update : perform settings table request key .updateNode =
        answerUpdate settings table request key := rfl
    rw [update, answerUpdate, body]
    simp only [bind, Except.bind, address, valid, Check.both, orInvalid, Except.mapError, refused]
  rw [respond, done]

/-- In a run that creates no node every cycle is one of the table before it; and a change that would
put a node on a cycle is refused, at whatever depth its new parent stands. -/
theorem cycles_of_run (settings : Settings) (keyed : table.IsKeyed .integer) :
    (∀ requests : List Request,
      (∀ request ∈ requests, ∀ key, ¬ request.Asks .createNode key) →
        (∀ cycle, (tableAfter settings table requests).IsCycle cycle → table.IsCycle cycle) ∧
          ((∀ row, ¬ table.OnCycle row) →
            ∀ row, ¬ (tableAfter settings table requests).OnCycle row)) ∧
    (settings.registry.grammarFor .sqlite = .ok .sqlite → table.IsStored →
      ∀ (request : Request) (key : String) (id : Int) (draft : NodeDraft) (parent : Int) (row : Row),
        request.Asks .updateNode key → request.body.isSendable = true → pathKey key = .ok id →
        request.Gives draft → draft.parent = some parent → row ∈ table → row.key = .int id →
        (table.reparented row.key (.int parent)).OnCycle { row with parent := .int parent } →
        respond settings table request =
          (table, .error (.status 400 "A node cannot be moved below itself."))) := by
  constructor
  · intro requests creates
    have before : ∀ cycle, (tableAfter settings table requests).IsCycle cycle →
        table.IsCycle cycle := fun _ => isCycle_of_tableAfter keyed creates
    exact ⟨before, fun acyclic => Table.not_onCycle_of_isCycle keyed acyclic before⟩
  · intro supported stored request key id draft parent row moves sendable address given asked member
      rowKey around
    exact respond_of_move_below keyed stored supported moves sendable address given member rowKey
      asked around

def rootWithChild : Table :=
  [⟨.int 1, .null, .text "root", none⟩, ⟨.int 2, .int 1, .text "child", none⟩]

def moveBelowChild : Request where
  method := "PUT"
  path := "/api/nodes/1"
  body := .json (.obj [("label", .str "root"), ("parent_id", .int 2)])

theorem isKeyed_rootWithChild : rootWithChild.IsKeyed .integer where
  key := by simp [rootWithChild, KeyKind.Admits]
  parent := by simp [rootWithChild, KeyKind.Admits]
  distinct := by decide

theorem isStored_rootWithChild : rootWithChild.IsStored where
  keys := by
    intro row member i key
    rcases List.mem_cons.mp member with rfl | member
    · obtain rfl := Value.int.inj key
      decide
    · rcases List.mem_cons.mp member with rfl | member
      · obtain rfl := Value.int.inj key
        decide
      · exact absurd member List.not_mem_nil
  count := by decide

theorem asks_moveBelowChild : moveBelowChild.Asks .updateNode "1" := by
  unfold Request.Asks
  decide +kernel

theorem pathKey_one : pathKey "1" = .ok 1 := by cbv

theorem gives_moveBelowChild : moveBelowChild.Gives ⟨"root", some 2, .obj []⟩ :=
  ⟨_, rfl, rfl⟩

theorem onCycle_moveBelowChild :
    (rootWithChild.reparented (.int 1) (.int 2)).OnCycle ⟨.int 1, .int 2, .text "root", none⟩ := by
  have down : (rootWithChild.reparented (.int 1) (.int 2)).Joined .up
      ⟨.int 1, .int 2, .text "root", none⟩ ⟨.int 2, .int 1, .text "child", none⟩ := by
    simp [Table.Joined, Direction.Joins, rootWithChild, Table.reparented, Table.modify]
  have up : (rootWithChild.reparented (.int 1) (.int 2)).Joined .up
      ⟨.int 2, .int 1, .text "child", none⟩ ⟨.int 1, .int 2, .text "root", none⟩ := by
    simp [Table.Joined, Direction.Joins, rootWithChild, Table.reparented, Table.modify]
  exact .tail (.single down) up

theorem cycles_of_moveBelowChild :
    (∀ cycle, (tableAfter {} rootWithChild [moveBelowChild]).IsCycle cycle →
      rootWithChild.IsCycle cycle) ∧
    respond {} rootWithChild moveBelowChild =
      (rootWithChild, .error (.status 400 "A node cannot be moved below itself.")) := by
  obtain ⟨runs, moves⟩ := cycles_of_run {} isKeyed_rootWithChild
  refine ⟨(runs [moveBelowChild] fun request member key asked => ?_).1, ?_⟩
  · rw [List.mem_singleton.mp member, Request.Asks, asks_moveBelowChild] at asked
    cases asked
  · exact moves rfl isStored_rootWithChild moveBelowChild "1" 1 ⟨"root", some 2, .obj []⟩ 2
      ⟨.int 1, .null, .text "root", none⟩ asks_moveBelowChild rfl pathKey_one gives_moveBelowChild
      rfl List.mem_cons_self rfl onCycle_moveBelowChild

end Service
end AdjacencyForest
