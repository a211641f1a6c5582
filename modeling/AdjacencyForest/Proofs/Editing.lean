import AdjacencyForest.Proofs.Subtree
import AdjacencyForest.Proofs.Writing
import AdjacencyForest.Service.Editing

/-!
# Edits

What creating, changing and deleting a node do to the table when they succeed.

Main statements: `addNode_eq_ok` and `changeNode_eq_ok`, when they succeed;
`exists_insert_of_addNode`, `exists_modify_of_changeNode` and `exists_node_of_answerDelete`, what they
do then.
-/

open Relation

namespace AdjacencyForest.Service

theorem orFault_eq_ok {α : Type} {step : Except Fault α} {a : α} :
    orFault step = .ok a ↔ step = .ok a := mapError_eq_ok

theorem orInvalid_eq_ok {α : Type} {check : Check α} {a : α} :
    orInvalid check = .ok a ↔ check = .ok a := mapError_eq_ok

variable {settings : Settings} {table after : Table} {draft : NodeDraft} {answer : Answer}
  {row : Row} {id : Int}

theorem bindInteger_eq_ok {value : Value} :
    bindInteger id = .ok value ↔ fitsInt64 id = true ∧ value = .int id := by
  unfold bindInteger
  by_cases fits : fitsInt64 id = true
  · rw [if_pos fits, Except.ok.injEq]
    exact ⟨fun same => ⟨fits, same.symm⟩, fun both => both.2.symm⟩
  · rw [if_neg fits]
    simp [fits]

theorem rowOf?_eq_ok {found : Option Row} :
    rowOf? table id = .ok found ↔ fitsInt64 id = true ∧ table.find? (.int id) = found := by
  unfold rowOf?
  rw [bind_eq_ok]
  simp [bindInteger_eq_ok, pure_eq_ok]

theorem nodeOfKey_eq_ok :
    nodeOfKey table id = .ok row ↔ fitsInt64 id = true ∧ table.find? (.int id) = some row := by
  unfold nodeOfKey
  rw [bind_eq_ok]
  simp only [orFault_eq_ok, rowOf?_eq_ok]
  constructor
  · rintro ⟨found, ⟨fits, rfl⟩, done⟩
    split at done
    next row found => exact ⟨fits, found.trans (congrArg some (pure_eq_ok.mp done))⟩
    next => exact absurd done throw_ne_ok
  · rintro ⟨fits, found⟩
    exact ⟨some row, ⟨fits, found⟩, rfl⟩

theorem nodeOfKey_of_missing (fits : fitsInt64 id = true) (missing : table.find? (.int id) = none) :
    nodeOfKey table id = .error (.status 404 "Node not found") := by
  have looked : rowOf? table id = .ok none := rowOf?_eq_ok.mpr ⟨fits, missing⟩
  unfold nodeOfKey
  rw [looked]
  rfl

/-- The parent that a draft gives, as the store holds it. -/
def NodeDraft.parentValue (draft : NodeDraft) : Value :=
  match draft.parent with
  | none => .null
  | some id => .int id

theorem NodeDraft.hasParent (draft : NodeDraft) (key : Json) :
    NodeFields.HasParent { draft.toFields with key := key } := by
  unfold NodeFields.HasParent toFields
  cases draft.parent with
  | none => exact .inl rfl
  | some id => exact .inr ⟨id, rfl⟩

theorem NodeDraft.eq_parentValue {parent : Value} (given : parent.toJson = draft.toFields.parent) :
    parent = draft.parentValue := by
  unfold parentValue
  unfold toFields at given
  cases asked : draft.parent <;> cases parent <;> simp_all [Value.toJson, Json.ofOption]

/-- A parent is there, unless it is zero. -/
def HasParentFor (table : Table) (draft : NodeDraft) : Prop :=
  ∀ id, draft.parent = some id → id = 0 ∨ table.contains (.int id) = true

theorem checkParent_eq_ok {parent : Option Int} : checkParent table parent = .ok () ↔
    ∀ id, parent = some id → id = 0 ∨ (fitsInt64 id = true ∧ table.contains (.int id) = true) := by
  cases parent with
  | none => simp [checkParent, pure_eq_ok]
  | some id =>
    simp only [checkParent, Option.some.injEq, forall_eq']
    by_cases zero : id = 0
    · simp [zero, pure_eq_ok]
    · rw [if_neg zero, bind_eq_ok]
      simp only [orFault_eq_ok, rowOf?_eq_ok, zero, false_or]
      constructor
      · rintro ⟨found, ⟨fits, rfl⟩, done⟩
        split at done
        next row found => exact ⟨fits, Table.contains_of_find? found⟩
        next => exact absurd done throw_ne_ok
      · rintro ⟨fits, present⟩
        obtain ⟨row, member, key⟩ := Table.contains_iff.mp present
        cases found : table.find? (.int id) with
        | none => exact absurd key (Table.find?_eq_none_iff.mp found row member)
        | some row => exact ⟨some row, ⟨fits, rfl⟩, rfl⟩

theorem hasParentFor_of_checkParent (checked : checkParent table draft.parent = .ok ()) :
    HasParentFor table draft :=
  fun id asked => (checkParent_eq_ok.mp checked id asked).imp_right And.right

theorem checkMove_eq_ok {parent : Option Int} : checkMove settings table row parent = .ok () ↔
    ∀ id, parent = some id → isAtOrBelow settings table row (.int id) = .ok false := by
  cases parent with
  | none => simp [checkMove, pure_eq_ok]
  | some id =>
    simp only [checkMove, Option.some.injEq, forall_eq']
    rw [bind_eq_ok]
    simp only [orFault_eq_ok]
    constructor
    · rintro ⟨below, answered, done⟩
      cases below with
      | false => exact answered
      | true => exact absurd done throw_ne_ok
    · exact fun answered => ⟨false, answered, rfl⟩

theorem addNode_eq_ok : addNode table draft = .ok (after, answer) ↔
    checkParent table draft.parent = .ok () ∧
      ∃ key, TreeModel.standard.insertNode table draft.toFields = .ok (after, key) ∧
        answerRow after key = .ok answer := by
  unfold addNode
  constructor
  · intro added
    obtain ⟨⟨⟩, checked, added⟩ := bind_eq_ok.mp added
    obtain ⟨⟨written, key⟩, inserted, added⟩ := bind_eq_ok.mp added
    obtain ⟨told, shown, added⟩ := bind_eq_ok.mp added
    obtain ⟨rfl, rfl⟩ := Prod.mk.inj (pure_eq_ok.mp added)
    exact ⟨checked, key, orFault_eq_ok.mp inserted, shown⟩
  · rintro ⟨checked, key, inserted, shown⟩
    refine bind_eq_ok.mpr ⟨(), checked, bind_eq_ok.mpr ⟨_, orFault_eq_ok.mpr inserted, ?_⟩⟩
    exact bind_eq_ok.mpr ⟨answer, shown, rfl⟩

theorem exists_insertNode_of_addNode (added : addNode table draft = .ok (after, answer)) :
    checkParent table draft.parent = .ok () ∧
      ∃ key, TreeModel.standard.insertNode table draft.toFields = .ok (after, key) := by
  obtain ⟨checked, key, inserted, -⟩ := addNode_eq_ok.mp added
  exact ⟨checked, key, inserted⟩

theorem exists_insert_of_addNode (added : addNode table draft = .ok (after, answer)) :
    ∃ row, KeyKind.integer.Admits row.key ∧ row.parent = draft.parentValue ∧
      table.contains row.key = false ∧ after = table.insert .integer row ∧
      HasParentFor table draft := by
  obtain ⟨checked, key, inserted⟩ := exists_insertNode_of_addNode added
  obtain ⟨accepted, made, fresh, rfl⟩ := TreeModel.insertNode_eq_ok.mp inserted
  refine ⟨TreeModel.standard.rowOf key draft.toFields, TreeModel.admits_newKey made, ?_, fresh, rfl,
    hasParentFor_of_checkParent checked⟩
  exact NodeDraft.eq_parentValue (TreeModel.toJson_parent_rowOf (draft.hasParent .null) accepted)

theorem changeNode_eq_ok : changeNode settings table id draft = .ok (after, answer) ↔
    ∃ row key, nodeOfKey table id = .ok row ∧ checkParent table draft.parent = .ok () ∧
      checkMove settings table row draft.parent = .ok () ∧
      TreeModel.standard.updateNode table row.key (.ofRow row)
        { draft.toFields with key := row.key.toJson } = .ok (after, key) ∧
      answerRow after key = .ok answer := by
  unfold changeNode
  constructor
  · intro changed
    obtain ⟨row, found, changed⟩ := bind_eq_ok.mp changed
    obtain ⟨⟨⟩, checked, changed⟩ := bind_eq_ok.mp changed
    obtain ⟨⟨⟩, movable, changed⟩ := bind_eq_ok.mp changed
    obtain ⟨⟨written, key⟩, updated, changed⟩ := bind_eq_ok.mp changed
    obtain ⟨told, shown, changed⟩ := bind_eq_ok.mp changed
    obtain ⟨rfl, rfl⟩ := Prod.mk.inj (pure_eq_ok.mp changed)
    exact ⟨row, key, found, checked, movable, orFault_eq_ok.mp updated, shown⟩
  · rintro ⟨row, key, found, checked, movable, updated, shown⟩
    refine bind_eq_ok.mpr ⟨row, found, bind_eq_ok.mpr ⟨(), checked, bind_eq_ok.mpr ⟨(), movable, ?_⟩⟩⟩
    exact bind_eq_ok.mpr ⟨_, orFault_eq_ok.mpr updated, bind_eq_ok.mpr ⟨answer, shown, rfl⟩⟩

theorem exists_updateNode_of_changeNode
    (changed : changeNode settings table id draft = .ok (after, answer)) :
    ∃ row key, nodeOfKey table id = .ok row ∧ checkParent table draft.parent = .ok () ∧
      checkMove settings table row draft.parent = .ok () ∧
      TreeModel.standard.updateNode table row.key (.ofRow row)
        { draft.toFields with key := row.key.toJson } = .ok (after, key) := by
  obtain ⟨row, key, found, checked, movable, updated, -⟩ := changeNode_eq_ok.mp changed
  exact ⟨row, key, found, checked, movable, updated⟩

theorem sameKey_ofRow (keyed : table.IsKeyed .integer) (member : row ∈ table) (draft : NodeDraft) :
    (NodeFields.ofRow row).key.alike
      ({ draft.toFields with key := row.key.toJson } : NodeFields).key = true := by
  obtain ⟨i, rowKey⟩ := KeyKind.admits_integer_iff.mp (keyed.key row member)
  simp [NodeFields.ofRow, rowKey, Value.toJson, TreeModel.alike_int]

theorem exists_modify_of_changeNode (keyed : table.IsKeyed .integer)
    (changed : changeNode settings table id draft = .ok (after, answer)) :
    ∃ row ∈ table, ∃ change : Row → Row, row.key = .int id ∧
      after = table.modify row.key change ∧ (change row).parent = draft.parentValue ∧
      HasParentFor table draft ∧
      ¬ ∃ other, other.key = draft.parentValue ∧ ReflTransGen (table.Joined .down) row other := by
  obtain ⟨row, key, found, checked, movable, updated⟩ := exists_updateNode_of_changeNode changed
  obtain ⟨member, rowKey⟩ := (Table.find?_iff keyed).mp (nodeOfKey_eq_ok.mp found).2
  have sameKey := sameKey_ofRow keyed member draft
  obtain ⟨accepted, -, rfl⟩ := (TreeModel.updateNode_eq_ok sameKey).mp updated
  refine ⟨row, member, _, rowKey, rfl, ?_,
    hasParentFor_of_checkParent checked, ?_⟩
  · exact NodeDraft.eq_parentValue (TreeModel.toJson_parent_rewritten sameKey
      (draft.hasParent row.key.toJson) (keyed.parent row member) accepted)
  · rintro ⟨other, key, reached⟩
    have otherMember := Table.mem_of_reachable reached member
    have admitted := keyed.key other otherMember
    unfold NodeDraft.parentValue at key
    cases asked : draft.parent with
    | none =>
      simp only [asked] at key
      exact KeyKind.not_null_of_admits admitted key
    | some parent =>
      simp only [asked] at key
      have answered := checkMove_eq_ok.mp movable parent asked
      have below := (isAtOrBelow_iff keyed member answered).mpr ⟨other, key, reached⟩
      exact Bool.false_ne_true below

theorem exists_node_of_answerDelete {key : String}
    (deleted : answerDelete table key = .ok (after, answer)) :
    ∃ id row, pathKey key = .ok id ∧ nodeOfKey table id = .ok row ∧
      (∀ other ∈ table, other.parent ≠ row.key) ∧ after = TreeModel.deleteNode table row.key := by
  unfold answerDelete at deleted
  obtain ⟨id, address, deleted⟩ := bind_eq_ok.mp deleted
  obtain ⟨row, node, deleted⟩ := bind_eq_ok.mp deleted
  obtain ⟨children, listed, deleted⟩ := bind_eq_ok.mp deleted
  obtain ⟨-, found⟩ := nodeOfKey_eq_ok.mp node
  obtain ⟨-, rowKey⟩ := Table.mem_of_find? found
  have childless : ¬ 0 < children.length := by
    intro positive
    rw [if_pos positive] at deleted
    obtain ⟨_, refused, -⟩ := bind_eq_ok.mp deleted
    exact absurd refused throw_ne_ok
  refine ⟨id, row, orInvalid_eq_ok.mp address, node, ?_, ?_⟩
  · unfold childrenOf at listed
    obtain ⟨value, bound, listed⟩ := bind_eq_ok.mp (orFault_eq_ok.mp listed)
    obtain ⟨-, rfl⟩ := bindInteger_eq_ok.mp bound
    obtain rfl := pure_eq_ok.mp listed
    refine fun other member parent => childless (List.length_pos_of_mem
      (List.mem_filter.mpr ⟨member, ?_⟩ : other ∈ _))
    rw [parent, rowKey, Value.equals_int]
  · rw [if_neg childless] at deleted
    exact (Prod.mk.inj (pure_eq_ok.mp deleted)).1.symm

theorem eq_deleteNode_of_answerDelete {key : String}
    (deleted : answerDelete table key = .ok (after, answer)) :
    ∃ row ∈ table, (∀ other ∈ table, other.parent ≠ row.key) ∧
      after = TreeModel.deleteNode table row.key := by
  obtain ⟨id, row, -, node, childless, rfl⟩ := exists_node_of_answerDelete deleted
  exact ⟨row, (Table.mem_of_find? (nodeOfKey_eq_ok.mp node).2).1, childless, rfl⟩

end AdjacencyForest.Service
