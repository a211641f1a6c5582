import AdjacencyForest.Proofs.Descriptions
import AdjacencyForest.Proofs.Forest

/-!
# Rows that stay presentable

A request keeps all rows of a table such that they can be shown, unless it imports a sheet that
describes a node which cannot: only the import writes what no schema has seen.

Main statements: `isPresentable_respond_iff`, for one request.
-/

namespace AdjacencyForest.Service

open Table TreeModel

variable {settings : Settings} {table after : Table} {request : Request} {row : Row}
  {draft : NodeDraft} {answer : Answer} {id : Int} {key : String} {sheet : Sheet}

/-- The request is accepted, and imports a sheet that describes a node which cannot be shown. -/
def Spoils (settings : Settings) (table : Table) (request : Request) : Prop :=
  ∃ key sheet, request.Asks .importNodes key ∧ uploadOf request.body = .ok (.workbook sheet) ∧
    (∃ result, outcome settings table request = .ok result) ∧
    ∃ record ∈ recordsOf sheet, ¬ (described table (recordsOf sheet) record.id).IsPresentable

theorem Request.Gives.payload (given : request.Gives draft) : IsObjectOrNull draft.payload := by
  obtain ⟨data, -, valid⟩ := given
  exact NodeDraft.payload_of_draftOf valid

theorem isPresentable_insertNode {key : Value} (presentable : ∀ row ∈ table, IsPresentable row)
    (shaped : IsObjectOrNull draft.payload)
    (inserted : standard.insertNode table draft.toFields = .ok (after, key)) :
    ∀ row ∈ after, IsPresentable row := by
  obtain ⟨-, made, -, rfl⟩ := insertNode_eq_ok.mp inserted
  intro row member
  rcases mem_insert.mp member with rfl | old
  · exact isPresentable_rowOf shaped (admits_newKey made)
  · exact presentable row old

theorem isPresentable_updateNode {key : Value} (keyed : table.IsKeyed .integer)
    (presentable : ∀ row ∈ table, IsPresentable row) (shaped : IsObjectOrNull draft.payload)
    (found : nodeOfKey table id = .ok row)
    (updated : standard.updateNode table row.key (.ofRow row)
      { draft.toFields with key := row.key.toJson } = .ok (after, key)) :
    ∀ row ∈ after, IsPresentable row := by
  obtain ⟨member, -⟩ := (find?_iff keyed).mp (nodeOfKey_eq_ok.mp found).2
  have sameKey := sameKey_ofRow keyed member draft
  obtain ⟨-, -, rfl⟩ := (updateNode_eq_ok sameKey).mp updated
  intro other inside
  rcases mem_modify.mp inside with ⟨old, -⟩ | ⟨old, oldMember, same, rfl⟩
  · exact presentable other old
  · obtain rfl := keyed.eq_of_key oldMember member same
    have shown := presentable old member
    exact isPresentable_rewritten shaped shown.key shown.parent sameKey

theorem isPresentable_deleteNode {key : Value} (presentable : ∀ row ∈ table, IsPresentable row) :
    ∀ row ∈ TreeModel.deleteNode table key, IsPresentable row := by
  intro row member
  obtain ⟨old, found, -, rfl⟩ := mem_deleteNode.mp member
  have shown := presentable old found
  split
  · exact ⟨shown.key, .inl rfl, shown.label, shown.payload⟩
  · exact shown

theorem Step.isPresentable (keyed : table.IsKeyed .integer)
    (presentable : ∀ row ∈ table, IsPresentable row) (step : Step settings table request after)
    (imports : ∀ key, ¬ request.Asks .importNodes key) : ∀ row ∈ after, IsPresentable row := by
  cases step with
  | kept => exact presentable
  | created _ given added =>
    obtain ⟨-, key, inserted⟩ := exists_insertNode_of_addNode added
    exact isPresentable_insertNode presentable given.payload inserted
  | changed _ _ given changed =>
    obtain ⟨row, key, found, -, -, updated⟩ := exists_updateNode_of_changeNode changed
    exact isPresentable_updateNode keyed presentable given.payload found updated
  | deleted _ deleted =>
    obtain ⟨row, -, -, rfl⟩ := eq_deleteNode_of_answerDelete deleted
    exact isPresentable_deleteNode presentable
  | imported asked _ => exact absurd asked (imports _)

theorem isPresentable_respond_iff (keyed : table.IsKeyed .integer)
    (presentable : ∀ row ∈ table, IsPresentable row) :
    (∀ row ∈ (respond settings table request).1, IsPresentable row) ↔
      ¬ Spoils settings table request := by
  cases done : outcome settings table request with
  | error refusal =>
    rw [respond_fst_of_error done]
    refine iff_of_true presentable fun ⟨_, _, _, _, ⟨result, accepted⟩, _⟩ => ?_
    exact absurd (done.symm.trans accepted) (by simp)
  | ok result =>
    obtain ⟨after, answer⟩ := result
    rw [respond_fst_of_ok done]
    -- Only an import can store a row that cannot be shown.
    by_cases imports : ∃ key, request.Asks .importNodes key
    · obtain ⟨key, asked⟩ := imports
      obtain ⟨sheet, count, upload, imported⟩ :=
        exists_sheet_of_answerImport (perform_of_outcome done asked)
      rw [isPresentable_import_iff keyed presentable imported]
      constructor
      · rintro shown ⟨_, other, -, otherUpload, -, record, member, hidden⟩
        obtain rfl := FileContent.workbook.inj (Except.ok.inj (upload.symm.trans otherUpload))
        exact hidden (shown record member)
      · intro sound record member
        by_contra hidden
        exact sound ⟨key, sheet, asked, upload, ⟨_, done⟩, record, member, hidden⟩
    · refine iff_of_true ((step_of_outcome done).isPresentable keyed presentable
        fun key asked => imports ⟨key, asked⟩) fun ⟨key, _, asked, _⟩ => imports ⟨key, asked⟩

end AdjacencyForest.Service
