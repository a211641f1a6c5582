import AdjacencyForest.Proofs.Acceptance
import AdjacencyForest.Proofs.Requests
import AdjacencyForest.Proofs.Transactions

/-!
# Requests in transactions

The transaction of a request ends as the request is said to: with the table after it if it succeeds,
and with the table before it if it is refused, however far its statements came. The row that a
request has committed can be shown if the table has keys, so nothing fails after a commit there.

Main statements: `performs_serving`, request by request; `serve_eq_respond`, on a table with keys a
request commits what it is said to; `committed_of_refused`, a request that is refused changes
nothing.
-/

namespace AdjacencyForest.Service

open Work

variable {settings : Settings} {table after : Table} {request : Request} {row : Row}
  {key : Value} {draft : NodeDraft} {data : Option Json} {refusal : Refusal}

/-! ## Answers after a commit -/

def IsObjectOrNull (value : Json) : Prop := value = .null ∨ ∃ fields, value = .obj fields

/-- A row that can be shown as it is stored. -/
structure IsPresentable (row : Row) : Prop where
  key : KeyKind.integer.Admits row.key
  parent : row.parent = .null ∨ KeyKind.integer.Admits row.parent
  label : ∃ s, row.label = .text s
  payload : IsObjectOrNull (row.payload.getD .null)

theorem IsPresentable.exists_viewRow (presentable : IsPresentable row) :
    ∃ view, viewRow row = .ok view := by
  obtain ⟨i, key⟩ := KeyKind.admits_integer_iff.mp presentable.key
  obtain ⟨s, label⟩ := presentable.label
  have parent := presentable.parent.imp_right KeyKind.admits_integer_iff.mp
  unfold viewRow rowFields
  rw [key, label]
  rcases parent with parent | ⟨j, parent⟩ <;>
    rcases presentable.payload with payload | ⟨fields, payload⟩ <;>
    rw [parent, payload] <;>
    exact ⟨_, rfl⟩

theorem answerRow_eq_ok {view : NodeView} (found : table.find? key = some row)
    (shown : viewRow row = .ok view) : answerRow table key = .ok (.json view.toJson) := by
  unfold answerRow
  rw [found]
  dsimp only
  rw [shown]
  rfl

theorem exists_answerRow (found : table.find? key = some row) (presentable : IsPresentable row) :
    ∃ answer, answerRow table key = .ok answer := by
  obtain ⟨view, shown⟩ := presentable.exists_viewRow
  exact ⟨_, answerRow_eq_ok found shown⟩

theorem objectOrNull_eq_ok {input payload : Json} (valid : objectOrNull input = .ok payload) :
    IsObjectOrNull payload := by
  unfold objectOrNull at valid
  split at valid
  · cases valid
    exact .inl rfl
  · cases valid
    exact .inr ⟨_, rfl⟩
  · cases valid

theorem optional_eq_ok {α : Type} {check : Json → Check α} {fallback a : α} {name : String}
    {fields : List (String × Json)} : optional check fallback name fields = .ok a ↔
      (Json.lookup? name fields = none ∧ a = fallback) ∨
        ∃ given, Json.lookup? name fields = some given ∧ check given = .ok a := by
  unfold optional
  cases Json.lookup? name fields with
  | none => simp [eq_comm]
  | some given => simp [Check.within, mapError_eq_ok]

theorem NodeDraft.payload_of_ofFields {fields : List (String × Json)}
    (valid : NodeDraft.ofFields fields = .ok draft) : IsObjectOrNull draft.payload := by
  unfold NodeDraft.ofFields at valid
  obtain ⟨parts, joint, rfl⟩ := map_eq_ok.mp valid
  obtain ⟨-, rest⟩ := Check.both_eq_ok.mp joint
  obtain ⟨-, payload⟩ := Check.both_eq_ok.mp rest
  rcases optional_eq_ok.mp payload with ⟨-, omitted⟩ | ⟨given, -, checked⟩
  · exact .inr ⟨[], omitted⟩
  · exact objectOrNull_eq_ok checked

theorem NodeDraft.payload_of_draftOf (valid : draftOf data = .ok draft) :
    IsObjectOrNull draft.payload := by
  unfold draftOf at valid
  have valid := mapError_eq_ok.mp valid
  split at valid
  · cases valid
  · unfold NodeDraft.ofBody at valid
    split at valid
    · exact payload_of_ofFields valid
    · cases valid

theorem IsObjectOrNull.storedPayload_eq {value : Json} (shaped : IsObjectOrNull value) :
    storedPayload value = value := by
  rcases shaped with rfl | ⟨fields, rfl⟩ <;> rfl

theorem isObjectOrNull_congr {value other : Json} (alike : value.alike other = true) :
    IsObjectOrNull value ↔ IsObjectOrNull other := by
  constructor
  · rintro (rfl | ⟨fields, rfl⟩) <;> cases other <;>
      simp_all [IsObjectOrNull, Json.alike, Json.alikeScalar, Json.integral?]
  · rintro (rfl | ⟨fields, rfl⟩) <;> cases value <;>
      simp_all [IsObjectOrNull, Json.alike, Json.alikeScalar, Json.integral?]

theorem eq_text_of_alike {value : Value} {s : String}
    (alike : value.toJson.alike (.str s) = true) : value = .text s := by
  cases value <;> simp_all [Value.toJson, Json.alike, Json.alikeScalar, Json.integral?]

theorem isPresentable_rowOf (shaped : IsObjectOrNull draft.payload)
    (admitted : KeyKind.integer.Admits key) :
    IsPresentable (TreeModel.standard.rowOf key draft.toFields) where
  key := admitted
  parent := TreeModel.admits_columnValue_parent (draft.hasParent .null)
  label := ⟨draft.label, TreeModel.columnValue_label draft.label⟩
  payload := by
    have same : (TreeModel.standard.rowOf key draft.toFields).payload =
        some (storedPayload draft.payload) := rfl
    rw [same, shaped.storedPayload_eq]
    exact shaped

theorem isPresentable_rewritten (shaped : IsObjectOrNull draft.payload)
    (admitted : KeyKind.integer.Admits row.key)
    (parent : row.parent = .null ∨ KeyKind.integer.Admits row.parent)
    (sameKey : (NodeFields.ofRow row).key.alike row.key.toJson = true) :
    IsPresentable { TreeModel.rewritten (.ofRow row)
      { draft.toFields with key := row.key.toJson } row with key := row.key } := by
  rw [TreeModel.rewritten_eq sameKey]
  refine ⟨admitted, ?_, ?_, ?_⟩ <;> dsimp only
  · split
    · exact parent
    · exact TreeModel.admits_columnValue_parent (draft.hasParent .null)
  · split
    next alike => exact ⟨_, eq_text_of_alike alike⟩
    next => exact ⟨draft.label, TreeModel.columnValue_label draft.label⟩
  · split
    next alike => exact (isObjectOrNull_congr alike).mpr shaped
    next =>
      rw [Option.getD_some]
      exact shaped.storedPayload_eq.symm ▸ shaped

/-- What a request is refused with when its answer cannot be given. -/
def Refusal.IsUnanswerable : Refusal → Prop
  | .invalidAnswer _ | .fault _ => True
  | .status _ _ | .invalidRequest _ => False

theorem isUnanswerable_of_answerRow (failed : answerRow table key = .error refusal) :
    refusal.IsUnanswerable := by
  unfold answerRow at failed
  split at failed
  · cases failed
    trivial
  next row _ =>
    unfold orUnanswerable at failed
    cases shown : Check.within (.name "response") (viewRow row) with
    | ok view =>
      rw [shown] at failed
      cases failed
    | error issues =>
      rw [shown] at failed
      cases failed
      trivial

/-- A refusal that comes after the commit; on a table with keys there is none. -/
def TooLate (table : Table) (refusal : Refusal) : Prop :=
  ¬ table.IsKeyed .integer ∧ refusal.IsUnanswerable

theorem tooLate_answerRow (failed : answerRow after key = .error refusal)
    (presentable : table.IsKeyed .integer → ∃ row, after.find? key = some row ∧ IsPresentable row) :
    TooLate table refusal := by
  refine ⟨fun keyed => ?_, isUnanswerable_of_answerRow failed⟩
  obtain ⟨row, found, presentable⟩ := presentable keyed
  obtain ⟨answer, answered⟩ := exists_answerRow found presentable
  rw [answered] at failed
  cases failed

/-! ## Each request -/

theorem performs_creatingNode :
    Performs (TooLate table) (creatingNode request) table (answerCreate table request) := by
  unfold creatingNode answerCreate
  refine performs_lift_bind fun data _ => performs_lift_bind fun draft valid => ?_
  refine performs_saving (drafts_ask_bind fun _ => drafts_write _)
    (fun after key done refusal failed => tooLate_answerRow failed fun _ => ?_) ?_
  · obtain ⟨_, -, done⟩ := bind_eq_ok.mp done
    obtain ⟨-, made, fresh, rfl⟩ := TreeModel.insertNode_eq_ok.mp (orFault_eq_ok.mp done)
    exact ⟨_, Table.find?_insert_self fresh, isPresentable_rowOf
      (NodeDraft.payload_of_draftOf (orInvalid_eq_ok.mp valid)) (TreeModel.admits_newKey made)⟩
  · unfold addNode
    simp only [bind_assoc]
    rfl

theorem performs_updatingNode {key : String} :
    Performs (TooLate table) (updatingNode settings request key) table
      (answerUpdate settings table request key) := by
  unfold updatingNode answerUpdate
  refine performs_lift_bind fun data _ => performs_lift_bind fun given valid => ?_
  obtain ⟨id, draft⟩ := given
  obtain ⟨-, valid⟩ := Check.both_eq_ok.mp (orInvalid_eq_ok.mp valid)
  refine performs_saving (drafts_ask_bind fun row => drafts_ask_bind fun _ =>
    drafts_ask_bind fun _ => drafts_write _)
    (fun after key done refusal failed => tooLate_answerRow failed fun keyed => ?_) ?_
  · obtain ⟨row, found, done⟩ := bind_eq_ok.mp done
    obtain ⟨_, -, done⟩ := bind_eq_ok.mp done
    obtain ⟨_, -, done⟩ := bind_eq_ok.mp done
    obtain ⟨member, -⟩ := (Table.find?_iff keyed).mp (nodeOfKey_eq_ok.mp found).2
    have sameKey := sameKey_ofRow keyed member draft
    obtain ⟨-, rfl, rfl⟩ := (TreeModel.updateNode_eq_ok sameKey).mp (orFault_eq_ok.mp done)
    exact ⟨_, Table.find?_modify_self ((Table.find?_iff keyed).mpr ⟨member, rfl⟩),
      isPresentable_rewritten (NodeDraft.payload_of_draftOf valid) (keyed.key row member)
        (keyed.parent row member) sameKey⟩
  · unfold changeNode
    simp only [bind_assoc]
    rfl

theorem drafts_deletingRow (id : Int) :
    Drafts (deletingRow id) fun rows => do
      let row ← nodeOfKey rows id
      let count := (← orFault (childrenOf rows id)).length
      if 0 < count then
        throw (.status 400 s!"Cannot delete node. It is a parent to {count} other nodes.")
      return (TreeModel.deleteNode rows row.key, ()) := by
  refine drafts_ask_bind fun row => drafts_ask_bind fun children => ?_
  dsimp only
  split
  · exact drafts_lift (.error _)
  · exact drafts_write _

theorem performs_deletingNode {key : String} :
    Performs (TooLate table) (deletingNode key) table (answerDelete table key) := by
  unfold deletingNode answerDelete
  refine performs_lift_bind fun id _ => ?_
  refine performs_saving (drafts_deletingRow id) (fun _ _ _ _ failed => nomatch failed) ?_
  simp only [bind_assoc]
  cases nodeOfKey table id with
  | error refusal => rfl
  | ok row =>
    cases orFault (childrenOf table id) with
    | error refusal => rfl
    | ok children =>
      change (if 0 < children.length then _ else _) = (if 0 < children.length then _ else _) >>= _
      split <;> rfl

theorem drafts_flushing (staging : Staging) :
    Drafts (flushing staging) fun rows =>
      ((staging.write rows).mapError .fault).map fun after => (after, ()) := by
  refine ((drafts_writingEach _ _).bind fun _ => drafts_writingEach _ _).congr fun rows => ?_
  unfold Staging.write
  dsimp only
  cases (staging.changes.mergeSort fun a b => a.1.key.compareWith b.1.key != .gt).foldlM
    (fun table (change : Row × NodeFields) => do
      return (← TreeModel.standard.updateNode table change.1.key (.ofRow change.1) change.2).1)
    rows <;> rfl

theorem performs_importing (late : ImportRefusal → Prop) (content : FileContent) :
    Performs late (importing settings content) table (importContent settings table content) := by
  unfold importing
  refine performs_saving (drafts_lift_bind fun sheet => drafts_ask_bind fun staged =>
    (drafts_flushing staged.1).bind fun _ =>
      (drafts_askEach staged.2 (checkPlacement settings)).bind fun _ => drafts_pure _)
    (fun _ _ _ _ failed => nomatch failed) ?_
  unfold importContent importSheet
  cases content.sheet with
  | error refusal => rfl
  | ok sheet =>
    dsimp only [bind, Except.bind]
    generalize stageRows table (.ofTable (.ofSheet sheet)) _ = staged
    cases staged with
    | error refusal => rfl
    | ok staged =>
      dsimp only
      cases staged.1.write table with
      | error cause => rfl
      | ok written =>
        dsimp only [Except.mapError, Except.map]
        cases staged.2.forM (checkPlacement settings written) <;> rfl

theorem performs_importingNodes (late : Refusal → Prop) :
    Performs late (importingNodes settings request) table
      (answerImport settings table request) := by
  unfold importingNodes answerImport
  refine performs_lift_bind fun content _ => ?_
  have imported : Performs late (ExceptT.adapt
      (fun refusal : ImportRefusal => Refusal.status 400 refusal.message)
      (orRollback (importing settings content))) table
      ((importContent settings table content).mapError
        fun refusal => .status 400 refusal.message) :=
    performs_adapt (fun _ never => never.elim)
      (performs_orRollback (performs_importing (fun _ => False) content))
  generalize importContent settings table content = edit at imported ⊢
  cases edit with
  | error refusal => exact performs_return imported
  | ok after => exact performs_return imported

theorem performs_reading {key : String} {action : Action} {answered : Outcome Answer}
    (late : Refusal → Prop)
    (reads : perform settings table request key action = reading table answered) :
    Performs late (ask fun rows => (perform settings rows request key action).map Prod.snd) table
      (perform settings table request key action) := by
  have asked : Performs late
      (ask fun rows => (perform settings rows request key action).map Prod.snd) table
      (((perform settings table request key action).map Prod.snd).map fun told => (table, told)) :=
    performs_ask _
  rw [reads] at asked ⊢
  cases answered <;> exact asked

theorem performs_working {key : String} (action : Action) :
    Performs (TooLate table) (working settings request key action) table
      (perform settings table request key action) := by
  cases action with
  | importNodes => exact performs_importingNodes _
  | createNode => exact performs_creatingNode
  | updateNode => exact performs_updatingNode
  | deleteNode => exact performs_deletingNode
  | exportNodes | listNodes | showNode | ancestors | descendants | siblings | searchParents
  | wholeTree | roots | leaves | children | pathTo => exact performs_reading _ rfl

theorem performs_serving (settings : Settings) (table : Table) (request : Request) :
    Performs (TooLate table) (serving settings request) table (outcome settings table request) := by
  unfold serving outcome
  split
  · exact performs_throw _
  · cases dispatch request.method.toUpper request.path with
    | action action key => exact performs_working action
    | wrongMethod => exact performs_throw _
    | notFound => exact performs_throw _

/-! ## What is committed -/

/-- A request is served as it is performed, unless its answer cannot be given after the commit. -/
theorem serve_cases (settings : Settings) (table : Table) (request : Request) :
    serve settings table request = respond settings table request ∨
      ∃ after refusal, TooLate table refusal ∧
        respond settings table request = (table, .error refusal) ∧
        serve settings table request = (after, .error refusal) := by
  have performs := performs_serving settings table request
  unfold Performs at performs
  unfold serve respond
  generalize (serving settings request).run.run (.start table) = ending at performs ⊢
  generalize outcome settings table request = edit at performs ⊢
  cases performs with
  | ok after answer => exact .inl rfl
  | error rows refusal => exact .inl rfl
  | late after refusal tooLate => exact .inr ⟨after, refusal, tooLate, rfl, rfl⟩

theorem serve_snd (settings : Settings) (table : Table) (request : Request) :
    (serve settings table request).2 = (respond settings table request).2 := by
  rcases serve_cases settings table request with same | ⟨after, refusal, -, performed, served⟩
  · rw [same]
  · rw [performed, served]

/-- On a table with keys a request commits what it is said to make of the table. -/
theorem serve_eq_respond (keyed : table.IsKeyed .integer) :
    serve settings table request = respond settings table request := by
  rcases serve_cases settings table request with same | ⟨_, _, tooLate, -⟩
  · exact same
  · exact absurd keyed tooLate.1

/-- The tables that a run of requests commits. -/
theorem foldl_serve (keyed : table.IsKeyed .integer) (requests : List Request) :
    requests.foldl (fun table request => (serve settings table request).1) table =
      tableAfter settings table requests := by
  induction requests generalizing table with
  | nil => rfl
  | cons request requests ih =>
    rw [List.foldl_cons, tableAfter_cons, serve_eq_respond keyed]
    exact ih ((step_respond settings table request).isKeyed keyed)

/-- The status of the answer; a refusal without one of its own is a server error. -/
def Refusal.code : Refusal → Nat
  | .status code _ => code
  | .invalidRequest _ => 422
  | .invalidAnswer _ | .fault _ => 500

def Refusal.IsClientError (refusal : Refusal) : Prop := 400 ≤ refusal.code ∧ refusal.code < 500

def Refusal.IsUnsupported (refusal : Refusal) : Prop :=
  ∃ dialect, refusal = .ofFault (.tree (.unsupportedDatabase dialect))

theorem Refusal.IsUnanswerable.not_declined (unanswerable : refusal.IsUnanswerable) :
    ¬ (refusal.IsClientError ∨ refusal.IsUnsupported) := by
  cases refusal with
  | status | invalidRequest => exact unanswerable.elim
  | invalidAnswer issues =>
    rintro (client | ⟨dialect, same⟩)
    · exact absurd client.2 (lt_irrefl 500)
    · cases same
  | fault cause =>
    rintro (client | ⟨dialect, same⟩)
    · exact absurd client.2 (lt_irrefl 500)
    · cases same

/-- However far its statements came, a request that is refused by its own fault, or because the
engine has no grammar, has committed nothing, whatever the table holds. -/
theorem committed_of_refused (settings : Settings) (table : Table) (request : Request)
    {refusal : Refusal} (refused : (serve settings table request).2 = .error refusal)
    (declined : refusal.IsClientError ∨ refusal.IsUnsupported) :
    (serve settings table request).1 = table := by
  rcases serve_cases settings table request with same | ⟨after, late, tooLate, -, served⟩
  · rw [same] at refused ⊢
    exact table_of_refused refused
  · rw [served] at refused
    obtain rfl := Except.error.inj refused
    exact absurd declined tooLate.2.not_declined

def withoutGrammar : Settings := { registry := Registry.standard.unregister "sqlite" }

def moveToRoot : Request where
  method := "PUT"
  path := "/api/nodes/2"
  body := .json (.obj [("label", .str "leaf"), ("parent_id", .int 1)])

theorem respond_withoutGrammar_upload :
    ∃ message, (respond withoutGrammar rootOnly (importRequest.uploading "nodes.xlsx"
      [chainHeader, grandchildCells, childCells])).2 = .error (.status 400 message) := by
  have labels : rootOnly.HasLabels := by simp [Table.HasLabels, rootOnly]
  have named : "nodes.xlsx".endsWith ".xlsx" = true := by decide +kernel
  have imported : importSheet withoutGrammar rootOnly
      [chainHeader, grandchildCells, childCells] = _ :=
    importSheet_eq isKeyed_rootOnly labels isReadAs_chainRecords isValid_chainRecords (by decide)
  rw [upsert_chainRecords] at imported
  have refused :
      (chainRecords.map ImportRecord.id).forM (checkPlacement withoutGrammar chainTable) =
        .error (.fault (.tree (.unsupportedDatabase (.str "sqlite")))) := rfl
  rw [refused] at imported
  unfold respond
  rw [outcome_uploading _ _ _ asks_importRequest named, imported]
  exact ⟨_, rfl⟩

theorem respond_withoutGrammar_move :
    (respond withoutGrammar chainTable moveToRoot).2 =
      .error (.ofFault (.tree (.unsupportedDatabase (.str "sqlite")))) := by
  have asked : moveToRoot.Asks .updateNode "2" := by
    unfold Request.Asks
    decide +kernel
  have address : pathKey "2" = .ok 2 := by cbv
  have refused : answerUpdate withoutGrammar chainTable moveToRoot "2" =
      .error (.ofFault (.tree (.unsupportedDatabase (.str "sqlite")))) := by
    unfold answerUpdate
    rw [address]
    rfl
  unfold respond
  rw [outcome_of_asks rfl asked, perform, refused]

/-- An import whose rows are all written, and a move, both refused when the walk is attempted. -/
theorem committed_withoutGrammar :
    (serve withoutGrammar rootOnly (importRequest.uploading "nodes.xlsx"
        [chainHeader, grandchildCells, childCells])).1 = rootOnly ∧
      (serve withoutGrammar chainTable moveToRoot).1 = chainTable := by
  constructor
  · obtain ⟨message, refused⟩ := respond_withoutGrammar_upload
    rw [← serve_snd] at refused
    exact committed_of_refused _ _ _ refused (.inl (by decide : 400 ≤ 400 ∧ 400 < 500))
  · have refused := respond_withoutGrammar_move
    rw [← serve_snd] at refused
    exact committed_of_refused _ _ _ refused (.inr ⟨_, rfl⟩)

end AdjacencyForest.Service
