import AdjacencyForest.Proofs.Staging
import AdjacencyForest.Service.Api

/-!
# What a request can do

A request leaves the table as it is, or creates, changes, deletes or imports nodes. All that a run of
requests keeps follows from what each of these steps keeps.

Main statements: `step_respond`, every request is such a step; `isKeyed_tableAfter`, the table of a
run has keys; `tableAfter_keeps` for whatever else the steps keep.
-/

namespace AdjacencyForest.Service

def Request.Gives (request : Request) (draft : NodeDraft) : Prop :=
  ∃ data, request.body.data? = .ok data ∧ draftOf data = .ok draft

def Request.Asks (request : Request) (action : Action) (key : String) : Prop :=
  dispatch request.method.toUpper request.path = .action action key

/-- What a request makes of a table. -/
inductive Step (settings : Settings) (table : Table) (request : Request) : Table → Prop where
  | kept : Step settings table request table
  | created {key : String} {draft : NodeDraft} {after : Table} {answer : Answer}
      (asked : request.Asks .createNode key) (given : request.Gives draft)
      (added : addNode table draft = .ok (after, answer)) : Step settings table request after
  | changed {key : String} {id : Int} {draft : NodeDraft} {after : Table} {answer : Answer}
      (asked : request.Asks .updateNode key) (address : pathKey key = .ok id)
      (given : request.Gives draft)
      (changed : changeNode settings table id draft = .ok (after, answer)) :
      Step settings table request after
  | deleted {key : String} {after : Table} {answer : Answer} (asked : request.Asks .deleteNode key)
      (deleted : answerDelete table key = .ok (after, answer)) : Step settings table request after
  | imported {key : String} {sheet : Sheet} {count : Nat} {after : Table}
      (asked : request.Asks .importNodes key)
      (imported : importSheet settings table sheet = .ok (after, count)) :
      Step settings table request after

variable {settings : Settings} {table after : Table} {request : Request} {answer : Answer}
  {key : String}

theorem gives_of_answerCreate (created : answerCreate table request = .ok (after, answer)) :
    ∃ draft, request.Gives draft ∧ addNode table draft = .ok (after, answer) := by
  unfold answerCreate at created
  obtain ⟨data, body, created⟩ := bind_eq_ok.mp created
  obtain ⟨draft, valid, created⟩ := bind_eq_ok.mp created
  exact ⟨draft, ⟨data, body, orInvalid_eq_ok.mp valid⟩, created⟩

theorem gives_of_answerUpdate
    (updated : answerUpdate settings table request key = .ok (after, answer)) :
    ∃ id draft, pathKey key = .ok id ∧ request.Gives draft ∧
      changeNode settings table id draft = .ok (after, answer) := by
  unfold answerUpdate at updated
  obtain ⟨data, body, updated⟩ := bind_eq_ok.mp updated
  obtain ⟨⟨id, draft⟩, valid, updated⟩ := bind_eq_ok.mp updated
  obtain ⟨address, valid⟩ := Check.both_eq_ok.mp (orInvalid_eq_ok.mp valid)
  exact ⟨id, draft, address, ⟨data, body, valid⟩, updated⟩

theorem exists_sheet_of_answerImport
    (imported : answerImport settings table request = .ok (after, answer)) :
    ∃ sheet count, uploadOf request.body = .ok (.workbook sheet) ∧
      importSheet settings table sheet = .ok (after, count) := by
  obtain ⟨content, upload, imported⟩ := bind_eq_ok.mp imported
  split at imported
  · exact absurd imported throw_ne_ok
  next written count complete =>
    obtain ⟨rfl, -⟩ := Prod.mk.inj (pure_eq_ok.mp imported)
    obtain ⟨sheet, held, done⟩ := bind_eq_ok.mp complete
    cases content with
    | workbook other =>
      obtain rfl := Except.ok.inj held
      exact ⟨other, count, upload, done⟩
    | text content => cases held

theorem Request.Gives.unique {draft other : NodeDraft} (given : request.Gives draft)
    (otherGiven : request.Gives other) : draft = other := by
  obtain ⟨data, body, valid⟩ := given
  obtain ⟨otherData, otherBody, otherValid⟩ := otherGiven
  obtain rfl := Except.ok.inj (body.symm.trans otherBody)
  exact Except.ok.inj (valid.symm.trans otherValid)

theorem outcome_of_asks {action : Action} (sendable : request.body.isSendable = true)
    (asked : request.Asks action key) :
    outcome settings table request = perform settings table request key action := by
  unfold outcome
  rw [asked]
  simp [sendable]

theorem asks_of_outcome (done : outcome settings table request = .ok (after, answer)) :
    ∃ action key, request.Asks action key ∧
      perform settings table request key action = .ok (after, answer) := by
  unfold outcome at done
  split at done
  · cases done
  · split at done
    next action key asked => exact ⟨action, key, asked, done⟩
    · cases done
    · cases done

theorem perform_of_outcome {action : Action}
    (done : outcome settings table request = .ok (after, answer)) (asked : request.Asks action key) :
    perform settings table request key action = .ok (after, answer) := by
  obtain ⟨other, otherKey, otherAsked, performed⟩ := asks_of_outcome done
  obtain ⟨rfl, rfl⟩ := Dispatch.action.inj (asked.symm.trans otherAsked)
  exact performed

theorem respond_fst_of_ok (done : outcome settings table request = .ok (after, answer)) :
    (respond settings table request).1 = after := by
  simp [respond, done]

theorem respond_fst_of_error {refusal : Refusal}
    (refused : outcome settings table request = .error refusal) :
    (respond settings table request).1 = table := by
  simp [respond, refused]

theorem step_of_outcome (done : outcome settings table request = .ok (after, answer)) :
    Step settings table request after := by
  obtain ⟨action, key, asked, performed⟩ := asks_of_outcome done
  by_cases writes : action.writes = true
  · cases action
    case importNodes =>
      obtain ⟨sheet, count, -, imported⟩ := exists_sheet_of_answerImport performed
      exact .imported asked imported
    case createNode =>
      obtain ⟨draft, given, added⟩ := gives_of_answerCreate performed
      exact .created asked given added
    case updateNode =>
      obtain ⟨id, draft, address, given, changed⟩ := gives_of_answerUpdate performed
      exact .changed asked address given changed
    case deleteNode => exact .deleted asked performed
    all_goals exact absurd writes (by decide)
  · have same : (respond settings table request).1 = table :=
      table_of_read asked (by simpa using writes)
    rw [respond_fst_of_ok done] at same
    rw [same]
    exact .kept

theorem step_respond (settings : Settings) (table : Table) (request : Request) :
    Step settings table request (respond settings table request).1 := by
  cases done : outcome settings table request with
  | error refusal =>
    rw [respond_fst_of_error done]
    exact .kept
  | ok result =>
    rw [respond_fst_of_ok done]
    exact step_of_outcome done

theorem NodeDraft.admits_parentValue (draft : NodeDraft) :
    draft.parentValue = .null ∨ KeyKind.integer.Admits draft.parentValue := by
  unfold parentValue
  cases draft.parent with
  | none => exact .inl rfl
  | some id => exact .inr trivial

theorem isKeyed_modify {row : Row} {change : Row → Row} {draft : NodeDraft}
    (keyed : table.IsKeyed .integer) (member : row ∈ table)
    (parent : (change row).parent = draft.parentValue) :
    (table.modify row.key change).IsKeyed .integer := by
  refine keyed.modify fun other found same => ?_
  rw [keyed.eq_of_key found member same, parent]
  exact draft.admits_parentValue

theorem Step.isKeyed (keyed : table.IsKeyed .integer) (step : Step settings table request after) :
    after.IsKeyed .integer := by
  cases step with
  | kept => exact keyed
  | created _ _ added =>
    obtain ⟨row, admitted, parent, fresh, rfl, -⟩ := exists_insert_of_addNode added
    exact keyed.insert admitted (parent ▸ NodeDraft.admits_parentValue _) fresh
  | changed _ _ _ changed =>
    obtain ⟨row, member, change, -, rfl, parent, -⟩ := exists_modify_of_changeNode keyed changed
    exact isKeyed_modify keyed member parent
  | deleted _ deleted =>
    obtain ⟨row, -, -, rfl⟩ := eq_deleteNode_of_answerDelete deleted
    exact TreeModel.isKeyed_deleteNode keyed
  | imported _ imported =>
    obtain ⟨ids, kept, -⟩ := importSheet_keeps keyed imported
    exact kept.1

theorem tableAfter_cons (requests : List Request) :
    tableAfter settings table (request :: requests) =
      tableAfter settings (respond settings table request).1 requests := rfl

theorem tableAfter_keeps (kept : Table → Prop) {requests : List Request} (start : kept table)
    (keeps : ∀ request ∈ requests, ∀ table after, kept table → Step settings table request after →
      kept after) : kept (tableAfter settings table requests) := by
  induction requests generalizing table with
  | nil => exact start
  | cons request rest ih =>
    rw [tableAfter_cons]
    refine ih ?_ ?_
    · exact keeps request List.mem_cons_self table _ start (step_respond settings table request)
    · exact fun other member => keeps other (List.mem_cons_of_mem _ member)

theorem isKeyed_tableAfter (keyed : table.IsKeyed .integer) (requests : List Request) :
    (tableAfter settings table requests).IsKeyed .integer :=
  tableAfter_keeps (·.IsKeyed .integer) keyed fun _ _ _ _ keyed step => step.isKeyed keyed

end AdjacencyForest.Service
