import AdjacencyForest.Proofs.AncestorLines
import AdjacencyForest.Proofs.Paging

/-!
# What a request demands

The address, the parameters and the body of a request are checked before the table is asked. What is
refused then is refused whatever the table holds; what is left of a valid request is what it demands,
and with it the integers that it has handed to the store.

Main statements: `respond_of_invalid`, a request that is not valid; `exists_isDemanded`, how the demand
of a valid one was read.
-/

namespace AdjacencyForest.Service

/-- What is demanded of the node of a key. -/
inductive NodeDemand where
  | view
  | removal
  | change (draft : NodeDraft)
  /-- What can be reached from the node in a direction. -/
  | line (direction : Direction) (includeSelf : Bool) (order : WalkOrder) (limit : Option Int)
  | siblings (includeSelf : Bool)
  | path

/-- What a valid request demands. -/
inductive Demand where
  | sheet
  | upload (content : FileContent)
  | page (asked : PageRequest)
  | creation (draft : NodeDraft)
  /-- The nodes that could become a parent, by a search term. -/
  | proposals (term : String)
  | tree
  | roots
  | leaves
  | children (id : Int)
  | node (id : Int) (asked : NodeDemand)

def Demand.ofWalk (direction : Direction) (walk : WalkRequest) : Demand :=
  .node walk.id (.line direction walk.includeSelf walk.order walk.maxDepth)

def demandOf (request : Request) (key : String) : Action → Outcome Demand
  | .exportNodes => .ok .sheet
  | .importNodes => (uploadOf request.body).map .upload
  | .listNodes => (orInvalid (PageRequest.ofRequest request)).map .page
  | .createNode => do
    let data ← request.body.data?
    (orInvalid (draftOf data)).map .creation
  | .showNode => (orInvalid (pathKey key)).map fun id => .node id .view
  | .updateNode => do
    let data ← request.body.data?
    (orInvalid (Check.both (pathKey key) (draftOf data))).map fun given =>
      .node given.1 (.change given.2)
  | .deleteNode => (orInvalid (pathKey key)).map fun id => .node id .removal
  | .ancestors => (orInvalid (WalkRequest.ofRequest request key .breadth)).map (.ofWalk .up)
  | .descendants => (orInvalid (WalkRequest.ofRequest request key .depth)).map (.ofWalk .down)
  | .siblings =>
    (orInvalid (Check.both (pathKey key) (request.parameter "include_self" (.ok false) truth))).map
      fun given => .node given.1 (.siblings given.2)
  | .searchParents =>
    (orInvalid (request.parameter "q" (Check.fail .missing .null) text)).map .proposals
  | .wholeTree => .ok .tree
  | .roots => .ok .roots
  | .leaves => .ok .leaves
  | .children => (orInvalid (pathKey key)).map .children
  | .pathTo => (orInvalid (pathKey key)).map fun id => .node id .path

/-- What a request demands if it is valid, and else how it is refused. -/
def Request.demand (request : Request) : Outcome Demand :=
  if !request.body.isSendable then .error (.fault .unwritableNumber)
  else match dispatch request.method.toUpper request.path with
    | .action action key => demandOf request key action
    | .wrongMethod => .error (.status 405 "Method Not Allowed")
    | .notFound => .error (.status 404 "Not Found")

variable {settings : Settings} {table : Table} {request : Request} {key : String} {action : Action}
  {demand : Demand} {asked : NodeDemand} {draft : NodeDraft} {refusal : Refusal} {id : Int}

/-! ## Requests that are not valid -/

theorem bind_of_error {ε α β : Type} {step : Except ε α} {e : ε} (failed : step = .error e)
    (next : α → Except ε β) : step >>= next = .error e := by
  rw [failed]
  rfl

theorem map_eq_error {ε α β : Type} {step : Except ε α} {convert : α → β} {e : ε} :
    step.map convert = .error e ↔ step = .error e := by
  cases step <;> simp [Except.map]

theorem reading_of_error {outcome : Outcome Answer} (failed : outcome = .error refusal) :
    reading table outcome = .error refusal := by
  rw [failed]
  rfl

theorem perform_of_invalid (invalid : demandOf request key action = .error refusal) :
    perform settings table request key action = .error refusal := by
  cases action with
  | exportNodes | wholeTree | roots | leaves => cases invalid
  | importNodes => exact bind_of_error (map_eq_error.mp invalid) _
  | deleteNode => exact bind_of_error (map_eq_error.mp invalid) _
  | listNodes | showNode | ancestors | descendants | siblings | searchParents | children | pathTo =>
    exact reading_of_error (bind_of_error (map_eq_error.mp invalid) _)
  | createNode | updateNode =>
    cases given : request.body.data? with
    | error other =>
      obtain rfl := Except.error.inj ((bind_of_error given _).symm.trans invalid)
      exact bind_of_error given _
    | ok data =>
      have invalid := map_eq_error.mp ((bind_of_ok given).symm.trans invalid)
      exact (bind_of_ok given).trans (bind_of_error invalid _)

/-- A request that is not valid is refused whatever the table holds. -/
theorem respond_of_invalid (settings : Settings) (table : Table)
    (invalid : request.demand = .error refusal) :
    respond settings table request = (table, .error refusal) := by
  have refused : outcome settings table request = .error refusal := by
    unfold Request.demand at invalid
    unfold outcome
    split at invalid
    next unsendable => rw [if_pos unsendable, Except.error.inj invalid]
    next sendable =>
      rw [if_neg sendable]
      cases asked : dispatch request.method.toUpper request.path with
      | action action key =>
        rw [asked] at invalid
        exact perform_of_invalid invalid
      | wrongMethod | notFound =>
        rw [asked] at invalid
        exact congrArg Except.error (Except.error.inj invalid)
  rw [respond, refused]

/-! ## Requests that are valid -/

theorem demand_of_asks (asks : request.Asks action key) (sendable : request.body.isSendable = true) :
    request.demand = demandOf request key action := by
  unfold Request.demand
  rw [asks]
  simp [sendable]

/-- What is demanded by an action, and how it was read. -/
inductive IsDemanded (request : Request) (key : String) : Action → Demand → Prop
  | sheet : IsDemanded request key .exportNodes .sheet
  | upload {content : FileContent} (read : uploadOf request.body = .ok content) :
      IsDemanded request key .importNodes (.upload content)
  | page {asked : PageRequest} (read : PageRequest.ofRequest request = .ok asked) :
      IsDemanded request key .listNodes (.page asked)
  | creation {data : Option Json} {draft : NodeDraft} (body : request.body.data? = .ok data)
      (valid : draftOf data = .ok draft) : IsDemanded request key .createNode (.creation draft)
  | view {id : Int} (address : pathKey key = .ok id) :
      IsDemanded request key .showNode (.node id .view)
  | change {data : Option Json} {id : Int} {draft : NodeDraft} (body : request.body.data? = .ok data)
      (valid : Check.both (pathKey key) (draftOf data) = .ok (id, draft)) :
      IsDemanded request key .updateNode (.node id (.change draft))
  | removal {id : Int} (address : pathKey key = .ok id) :
      IsDemanded request key .deleteNode (.node id .removal)
  | ancestors {id : Int} {includeSelf : Bool} {order : WalkOrder} {limit : Option Int}
      (read : WalkRequest.ofRequest request key .breadth = .ok ⟨id, includeSelf, order, limit⟩) :
      IsDemanded request key .ancestors (.node id (.line .up includeSelf order limit))
  | descendants {id : Int} {includeSelf : Bool} {order : WalkOrder} {limit : Option Int}
      (read : WalkRequest.ofRequest request key .depth = .ok ⟨id, includeSelf, order, limit⟩) :
      IsDemanded request key .descendants (.node id (.line .down includeSelf order limit))
  | siblings {id : Int} {includeSelf : Bool}
      (valid : Check.both (pathKey key) (request.parameter "include_self" (.ok false) truth) =
        .ok (id, includeSelf)) : IsDemanded request key .siblings (.node id (.siblings includeSelf))
  | proposals {term : String}
      (read : request.parameter "q" (Check.fail .missing .null) text = .ok term) :
      IsDemanded request key .searchParents (.proposals term)
  | tree : IsDemanded request key .wholeTree .tree
  | roots : IsDemanded request key .roots .roots
  | leaves : IsDemanded request key .leaves .leaves
  | children {id : Int} (address : pathKey key = .ok id) :
      IsDemanded request key .children (.children id)
  | path {id : Int} (address : pathKey key = .ok id) :
      IsDemanded request key .pathTo (.node id .path)

theorem exists_valid_of_map {α β : Type} {check : Check α} {convert : α → β} {b : β}
    (made : (orInvalid check).map convert = .ok b) : ∃ a, check = .ok a ∧ convert a = b := by
  obtain ⟨a, valid, same⟩ := map_eq_ok.mp made
  exact ⟨a, orInvalid_eq_ok.mp valid, same⟩

theorem isDemanded_of_demandOf (demanded : demandOf request key action = .ok demand) :
    IsDemanded request key action demand := by
  cases action with
  | exportNodes =>
    obtain rfl := Except.ok.inj demanded
    exact .sheet
  | wholeTree =>
    obtain rfl := Except.ok.inj demanded
    exact .tree
  | roots =>
    obtain rfl := Except.ok.inj demanded
    exact .roots
  | leaves =>
    obtain rfl := Except.ok.inj demanded
    exact .leaves
  | importNodes =>
    obtain ⟨content, read, rfl⟩ := map_eq_ok.mp demanded
    exact .upload read
  | listNodes =>
    obtain ⟨asked, read, rfl⟩ := exists_valid_of_map demanded
    exact .page read
  | createNode =>
    obtain ⟨data, body, demanded⟩ := bind_eq_ok.mp demanded
    obtain ⟨draft, valid, rfl⟩ := exists_valid_of_map demanded
    exact .creation body valid
  | updateNode =>
    obtain ⟨data, body, demanded⟩ := bind_eq_ok.mp demanded
    obtain ⟨given, valid, rfl⟩ := exists_valid_of_map demanded
    exact .change body valid
  | showNode =>
    obtain ⟨id, address, rfl⟩ := exists_valid_of_map demanded
    exact .view address
  | deleteNode =>
    obtain ⟨id, address, rfl⟩ := exists_valid_of_map demanded
    exact .removal address
  | ancestors =>
    obtain ⟨walk, read, rfl⟩ := exists_valid_of_map demanded
    exact .ancestors read
  | descendants =>
    obtain ⟨walk, read, rfl⟩ := exists_valid_of_map demanded
    exact .descendants read
  | siblings =>
    obtain ⟨given, valid, rfl⟩ := exists_valid_of_map demanded
    exact .siblings valid
  | searchParents =>
    obtain ⟨term, read, rfl⟩ := exists_valid_of_map demanded
    exact .proposals read
  | children =>
    obtain ⟨id, address, rfl⟩ := exists_valid_of_map demanded
    exact .children address
  | pathTo =>
    obtain ⟨id, address, rfl⟩ := exists_valid_of_map demanded
    exact .path address

theorem exists_isDemanded (demanded : request.demand = .ok demand) :
    ∃ action key, request.Asks action key ∧ request.body.isSendable = true ∧
      IsDemanded request key action demand := by
  unfold Request.demand at demanded
  split at demanded
  · cases demanded
  next sendable =>
    split at demanded
    next action key asks =>
      exact ⟨action, key, asks, by simpa using sendable, isDemanded_of_demandOf demanded⟩
    · cases demanded
    · cases demanded

/-! ## Integers and texts for the store -/

/-- The parent that is looked for: zero is not. -/
def NodeDraft.lookedUp (draft : NodeDraft) : List Int := draft.parent.toList.filter (· ≠ 0)

/-- The integers that are handed to the store for a node that is there. -/
def NodeDemand.integers (settings : Settings) : NodeDemand → List Int
  | .view | .removal | .siblings _ => []
  | .change draft => draft.lookedUp
  | .line direction _ _ limit =>
    (settings.treeMaxDepth.toList ++ limit.toList).map (direction.sign * ·)
  | .path => settings.treeMaxDepth.toList.map (Direction.up.sign * ·)

/-- The integers that are handed to the store, in the form in which it gets them. -/
def Demand.integers (settings : Settings) (table : Table) : Demand → List Int
  | .upload _ | .roots | .leaves | .proposals _ => []
  | .sheet | .tree => settings.treeMaxDepth.toList
  | .page asked => [asked.size, (asked.page - 1) * asked.size]
  | .creation draft => draft.lookedUp
  | .children id => [id]
  | .node id asked => id :: if table.contains (.int id) then asked.integers settings else []

/-- The data that are to be written, for a change if its node is there. -/
def Demand.draft? (table : Table) : Demand → Option NodeDraft
  | .creation draft => some draft
  | .node id (.change draft) => if table.contains (.int id) then some draft else none
  | _ => none

/-- The label can be written to a cell, as far as a cell holds it. -/
def LabelFits (row : Row) : Prop :=
  ∀ text, row.label = .text text → (text.toList.take Cell.textLimit).all Cell.isWritable = true

/-- The texts can be handed on: a search term to the store, or labels to a workbook. -/
def Demand.TextsFit (settings : Settings) (table : Table) : Demand → Prop
  | .page asked => SearchTakes table asked.term
  | .proposals term => SearchTakes table term
  | .sheet => ∀ rows, treeRows settings table = .ok rows → ∀ treeRow ∈ rows, LabelFits treeRow.row
  | _ => True

end AdjacencyForest.Service
