import AdjacencyForest.Proofs.Overflows

/-!
# Requests that end in a fault of the server

On a forest whose rows can be shown every valid request is answered, or refused by the client's fault,
as long as what it hands on is taken: the integers by the store, the texts by the store or a workbook.
Otherwise it ends in a fault of the server.

Main statements: `answeredIff_perform`, what decides for each action; `exists_fault_of_texts`, texts
that are not taken; `respond_settlesAs`, how a valid request is settled by what it demands.
-/

namespace AdjacencyForest.Service

variable {settings : Settings} {table : Table} {request : Request} {key : String} {action : Action}
  {demand : Demand} {asked : NodeDemand} {draft : NodeDraft} {id parent : Int}

theorem isAnswered_answerImport {content : FileContent} (upload : uploadOf request.body = .ok content) :
    IsAnswered (answerImport settings table request) := by
  rw [answerImport, bind_of_ok upload]
  cases importContent settings table content with
  | error refusal => exact .status (by decide) _
  | ok result => exact .of_ok rfl

section Stored

variable (forest : table.IsForest) (stored : table.IsStored)
  (presentable : ∀ row ∈ table, IsPresentable row)
  (supported : settings.registry.grammarFor .sqlite = .ok .sqlite)
include forest stored presentable supported

theorem answeredIff_perform (demanded : IsDemanded request key action demand)
    (texts : demand.TextsFit settings table) :
    AnsweredIff (∀ i ∈ demand.integers settings table, fitsInt64 i = true)
      (perform settings table request key action) := by
  have keyed := forest.keyed
  cases demanded with
  | sheet => exact (answeredIff_answerExport forest stored presentable supported texts).map
  | upload read => exact .of_nothing (isAnswered_answerImport read)
  | page read => exact (answeredIff_answerPage presentable keyed texts read).map
  | creation body valid => exact answeredIff_answerCreate body valid
  | view address => exact (answeredIff_answerShow keyed presentable address).map
  | change body valid => exact answeredIff_answerUpdate keyed stored supported body valid
  | removal address => exact answeredIff_answerDelete keyed address
  | ancestors read =>
    rw [perform, answerAncestors, bind_of_ok (orInvalid_eq_ok.mpr read)]
    exact (answeredIff_answerRelation forest stored presentable supported .up _).map
  | descendants read =>
    rw [perform, answerDescendants, bind_of_ok (orInvalid_eq_ok.mpr read)]
    exact (answeredIff_answerRelation forest stored presentable supported .down _).map
  | siblings valid =>
    exact (answeredIff_answerSiblings forest stored presentable supported valid).map
  | proposals read =>
    exact (AnsweredIff.of_nothing (isAnswered_answerProposals presentable texts read)).map
  | tree => exact (answeredIff_answerTree forest stored presentable supported).map
  | roots =>
    obtain ⟨answer, answered, -⟩ := answerRoots_lists presentable
    exact (AnsweredIff.of_nothing (.of_ok answered)).map
  | leaves =>
    obtain ⟨answer, answered, -⟩ := answerLeaves_lists keyed presentable
    exact (AnsweredIff.of_nothing (.of_ok answered)).map
  | children address => exact (answeredIff_answerChildren presentable keyed address).map
  | path address => exact (answeredIff_answerPath forest stored supported address).map

end Stored

/-! ## Texts that cannot be handed on -/

theorem unwritable_sheet {shown : List TreeRow} {treeRow : TreeRow} (member : treeRow ∈ shown)
    (unfit : ¬ LabelFits treeRow.row) :
    ∃ cut, sheetOfRows (exportValues shown) = .error (.unwritableCell cut) := by
  cases done : sheetOfRows (exportValues shown) with
  | error cause =>
    obtain ⟨line, -, failed⟩ := exists_of_mapM_error done
    obtain ⟨value, -, failed⟩ := exists_of_mapM_error failed
    obtain ⟨cut, rfl⟩ := ofJson_error failed
    exact ⟨cut, rfl⟩
  | ok sheet =>
    obtain ⟨line, written⟩ :=
      exists_of_mapM_ok done _ (List.mem_cons_of_mem _ (List.mem_map_of_mem member))
    obtain ⟨cell, labelWritten⟩ :=
      exists_of_mapM_ok written treeRow.row.label.toJson (by simp [exportRow_eq])
    refine absurd (fun text label => ?_) unfit
    rw [label] at labelWritten
    exact cut_of_ofText labelWritten

theorem exists_fault_of_texts (demanded : IsDemanded request key action demand)
    (unfit : ¬ demand.TextsFit settings table) :
    ∃ cause, perform settings table request key action = .error (.fault cause) := by
  cases demanded with
  | sheet =>
    simp only [Demand.TextsFit, not_forall] at unfit
    obtain ⟨shown, made, treeRow, member, unfit⟩ := unfit
    obtain ⟨cut, unwritable⟩ := unwritable_sheet member unfit
    have refused : answerExport settings table = .error (.fault (.unwritableCell cut)) := by
      rw [answerExport, bind_of_ok (orFault_eq_ok.mpr made),
        if_neg (by simpa using List.ne_nil_of_mem member), unwritable]
      rfl
    exact ⟨_, reading_of_error refused⟩
  | page read => exact ⟨_, reading_of_error (answerPage_of_long read unfit)⟩
  | proposals read => exact ⟨_, reading_of_error (answerProposals_of_long read unfit)⟩
  | _ => exact absurd trivial unfit

/-! ## Nodes that are not there -/

theorem perform_node_of_missing (demanded : IsDemanded request key action (.node id asked))
    (fits : fitsInt64 id = true) (absent : table.contains (.int id) = false) :
    perform settings table request key action = .error (.status 404 "Node not found") := by
  have missing : nodeOfKey table id = .error (.status 404 "Node not found") :=
    nodeOfKey_of_missing fits (Table.find?_eq_none_iff_contains.mpr absent)
  cases demanded with
  | view valid | ancestors valid | descendants valid | siblings valid | path valid =>
    exact reading_of_error
      ((bind_of_ok (orInvalid_eq_ok.mpr valid)).trans (bind_of_error missing _))
  | removal address =>
    exact (bind_of_ok (orInvalid_eq_ok.mpr address)).trans (bind_of_error missing _)
  | change body valid =>
    rw [perform, answerUpdate, bind_of_ok body, bind_of_ok (orInvalid_eq_ok.mpr valid)]
    exact bind_of_error missing _

theorem perform_of_missing_parent (stored : table.IsStored) (keyed : table.IsKeyed .integer)
    (demanded : IsDemanded request key action demand)
    (written : demand.draft? table = some draft) (given : draft.parent = some parent)
    (other : parent ≠ 0) (fits : fitsInt64 parent = true)
    (absent : table.contains (.int parent) = false) :
    perform settings table request key action =
      .error (.status 400 s!"Parent with id {parent} not found") := by
  have missing : checkParent table draft.parent =
      .error (.status 400 s!"Parent with id {parent} not found") := by
    rw [given]
    exact checkParent_of_missing other fits (Table.find?_eq_none_iff_contains.mpr absent)
  cases demanded with
  | creation body valid =>
    cases written
    rw [perform, answerCreate, bind_of_ok body, bind_of_ok (orInvalid_eq_ok.mpr valid)]
    exact bind_of_error missing _
  | change body valid =>
    obtain ⟨present, same⟩ := Option.ite_none_right_eq_some.mp written
    cases same
    obtain ⟨row, member, rowKey⟩ := Table.contains_iff.mp present
    have found := nodeOfKey_eq_ok.mpr
      ⟨stored.keys row member _ rowKey, (Table.find?_iff keyed).mpr ⟨member, rowKey⟩⟩
    rw [perform, answerUpdate, bind_of_ok body, bind_of_ok (orInvalid_eq_ok.mpr valid)]
    exact (bind_of_ok found).trans (bind_of_error missing _)
  | _ => cases written

theorem childRows_of_missing (forest : table.IsForest) (absent : table.contains (.int id) = false) :
    table.childRows (.int id) = [] := by
  refine List.eq_nil_iff_forall_not_mem.mpr fun row child => ?_
  obtain ⟨member, parent⟩ := Table.mem_childRows.mp child
  have present := forest.parents row member (parent ▸ Value.noConfusion)
  exact Bool.false_ne_true (absent.symm.trans (parent ▸ present))

/-! ## How a request is settled -/

/-- How a request is settled by what it demands: it is answered unless it hands on an integer or a text
that is not taken, and what is not there is refused with a status of its own. -/
structure SettlesAs (settings : Settings) (table : Table) (request : Request) (demand : Demand) :
    Prop where
  answered : IsAnswered (respond settings table request).2 ↔
    (∀ i ∈ demand.integers settings table, fitsInt64 i = true) ∧ demand.TextsFit settings table
  overflow : demand.TextsFit settings table →
    (∃ i ∈ demand.integers settings table, fitsInt64 i = false) →
    respond settings table request = (table, .error (.fault .integerOverflow))
  missingNode : ∀ id asked, demand = .node id asked → fitsInt64 id = true →
    table.contains (.int id) = false →
    respond settings table request = (table, .error (.status 404 "Node not found"))
  missingParent : ∀ draft parent, demand.draft? table = some draft → draft.parent = some parent →
    parent ≠ 0 → fitsInt64 parent = true → table.contains (.int parent) = false →
    respond settings table request =
      (table, .error (.status 400 s!"Parent with id {parent} not found"))
  /-- The children of a node that is not there are none. -/
  childless : ∀ id, demand = .children id → fitsInt64 id = true → table.contains (.int id) = false →
    ∃ answer, respond settings table request = (table, .ok answer) ∧ answer.ids = []

theorem isAnswered_respond_iff (asks : request.Asks action key)
    (sendable : request.body.isSendable = true) :
    IsAnswered (respond settings table request).2 ↔
      IsAnswered (perform settings table request key action) := by
  rw [respond, outcome_of_asks sendable asks]
  cases perform settings table request key action with
  | ok result => exact ⟨fun _ => .of_ok rfl, fun _ => .of_ok rfl⟩
  | error refusal => exact ⟨fun answered _ same => answered _ (Except.error.inj same ▸ rfl),
      fun answered _ same => answered _ (Except.error.inj same ▸ rfl)⟩

def viewing (key : String) : Request where
  method := "GET"
  path := "/api/nodes/" ++ key

/-- A page whose first place has more than 64 bits, although its number and its size have not. -/
def farPage : Request where
  method := "GET"
  path := "/api/nodes"
  parameters := [("page", ["4611686018427387905"]), ("page_size", ["2"])]

theorem demand_viewing (asks : (viewing key).Asks .showNode key) (address : pathKey key = .ok id) :
    (viewing key).demand = .ok (.node id .view) := by
  rw [demand_of_asks asks rfl, demandOf, address]
  rfl

theorem demand_farPage : farPage.demand = .ok (.page ⟨"", 0x4000000000000001, 2⟩) := by
  have asks : farPage.Asks .listNodes "" := by
    unfold Request.Asks
    decide +kernel
  have page : farPage.parameter "page" (.ok 1) positive = .ok 0x4000000000000001 :=
    eq_ok_of_toOption (by decide +kernel)
  have size : farPage.parameter "page_size" (.ok 25) positive = .ok 2 :=
    eq_ok_of_toOption (by decide +kernel)
  have asked : farPage.AsksPage none 0x4000000000000001 2 := ⟨⟨"", asks⟩, rfl, rfl, page, size⟩
  rw [demand_of_asks asks rfl, demandOf, asked.ofRequest_eq_ok]
  rfl

end AdjacencyForest.Service
