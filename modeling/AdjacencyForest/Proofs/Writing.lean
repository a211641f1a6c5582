import AdjacencyForest.Proofs.Links
import AdjacencyForest.Proofs.Steps
import AdjacencyForest.Session.Writing

/-!
# Writing rows

What inserting, changing and deleting a row make of a table with keys. The rows of other keys stay;
the parent of the row that is written is the one that the node's data gives.

Main statements: `updateNode_eq_ok` and `insertNode_eq_ok`, the tables after a write that succeeds;
`IsKeyed.modify`, `IsKeyed.insert` and `isKeyed_deleteNode`, they have keys again.
-/

namespace AdjacencyForest

namespace Table

variable {kind : KeyKind} {table : Table} {row : Row} {key : Value} {change : Row → Row}

theorem insertByKey_perm (row : Row) (table : Table) :
    (insertByKey row table).Perm (row :: table) := by
  induction table with
  | nil => exact .refl _
  | cons first rest ih =>
    unfold insertByKey
    split
    · exact .refl _
    · exact (ih.cons first).trans (.swap row first rest)

theorem insert_perm (kind : KeyKind) (row : Row) (table : Table) :
    (insert kind row table).Perm (row :: table) := by
  cases kind with
  | integer => exact insertByKey_perm row table
  | text => exact List.perm_append_singleton row table

theorem IsKeyed.insert (keyed : table.IsKeyed kind) (admitted : kind.Admits row.key)
    (parent : row.parent = .null ∨ kind.Admits row.parent) (fresh : table.contains row.key = false) :
    (table.insert kind row).IsKeyed kind where
  key other member := by
    rcases mem_insert.mp member with rfl | member
    · exact admitted
    · exact keyed.key other member
  parent other member := by
    rcases mem_insert.mp member with rfl | member
    · exact parent
    · exact keyed.parent other member
  distinct := by
    refine ((insert_perm kind row table).map Row.key).nodup_iff.mpr ?_
    rw [List.map_cons]
    refine List.nodup_cons.mpr ⟨fun inside => ?_, keyed.distinct⟩
    obtain ⟨other, member, same⟩ := List.mem_map.mp inside
    exact contains_eq_false_iff.mp fresh other member same

theorem agreesOutside_insert (kind : KeyKind) (row : Row) (table : Table) :
    AgreesOutside [row.key] table (table.insert kind row) where
  rows other outside := by
    rw [mem_insert]
    refine or_iff_right fun same => outside ?_
    simp [same]
  keeps other member := ⟨other, mem_insert.mpr (.inr member), rfl⟩

theorem find?_insert_self (fresh : table.contains row.key = false) :
    (table.insert kind row).find? row.key = some row := by
  cases found : (table.insert kind row).find? row.key with
  | none => exact absurd rfl (find?_eq_none_iff.mp found row (mem_insert.mpr (.inl rfl)))
  | some other =>
    obtain ⟨member, same⟩ := mem_of_find? found
    rcases mem_insert.mp member with rfl | old
    · rfl
    · exact absurd same (contains_eq_false_iff.mp fresh other old)

theorem mem_modify : row ∈ table.modify key change ↔
    (row ∈ table ∧ row.key ≠ key) ∨
      ∃ old ∈ table, old.key = key ∧ row = { change old with key := old.key } := by
  simp only [modify, List.mem_map]
  constructor
  · rintro ⟨old, member, same⟩
    by_cases changed : old.key = key
    · refine .inr ⟨old, member, changed, ?_⟩
      simpa [changed] using same.symm
    · have kept : old = row := by simpa [changed] using same
      exact .inl (kept ▸ ⟨member, changed⟩)
  · rintro (⟨member, different⟩ | ⟨old, member, changed, rfl⟩)
    · exact ⟨row, member, by simp [different]⟩
    · exact ⟨old, member, by simp [changed]⟩

theorem map_key_modify : List.map Row.key (table.modify key change) = List.map Row.key table := by
  rw [modify, List.map_map]
  refine List.map_congr_left fun row _ => ?_
  simp only [Function.comp_apply]
  split <;> rfl

theorem find?_modify_self (found : table.find? row.key = some row) :
    (table.modify row.key change).find? row.key = some { change row with key := row.key } := by
  have same : ((fun other : Row => other.key == row.key) ∘ fun other : Row =>
      if other.key == row.key then { change other with key := other.key } else other) =
      fun other => other.key == row.key := by
    funext other
    simp only [Function.comp_apply]
    split <;> rfl
  rw [find?, modify, List.find?_map, same]
  rw [find?] at found
  rw [found]
  simp

theorem IsKeyed.modify (keyed : table.IsKeyed kind)
    (parent : ∀ row ∈ table, row.key = key →
      (change row).parent = .null ∨ kind.Admits (change row).parent) :
    (table.modify key change).IsKeyed kind where
  key row member := by
    rcases mem_modify.mp member with ⟨found, -⟩ | ⟨old, found, -, rfl⟩
    · exact keyed.key row found
    · exact keyed.key old found
  parent row member := by
    rcases mem_modify.mp member with ⟨found, -⟩ | ⟨old, found, changed, rfl⟩
    · exact keyed.parent row found
    · exact parent old found changed
  distinct := by
    rw [map_key_modify]
    exact keyed.distinct

theorem agreesOutside_modify (key : Value) (change : Row → Row) (table : Table) :
    AgreesOutside [key] table (table.modify key change) where
  rows row outside := by
    have different : row.key ≠ key := by simpa using outside
    rw [mem_modify]
    constructor
    · rintro (⟨member, -⟩ | ⟨old, -, changed, rfl⟩)
      · exact member
      · exact absurd changed different
    · exact fun member => .inl ⟨member, different⟩
  keeps row member := by
    have inside : row.key ∈ List.map Row.key (table.modify key change) := by
      rw [map_key_modify]
      exact List.mem_map_of_mem member
    obtain ⟨other, found, same⟩ := List.mem_map.mp inside
    exact ⟨other, found, same⟩

theorem modify_id : table.modify key id = table := by
  refine (List.map_congr_left fun row _ => ?_).trans (List.map_id table)
  simp

end Table

/-- The parent of the node is one that the store can hold, as far as its kind goes. -/
def NodeFields.HasParent (node : NodeFields) : Prop := node.parent = .null ∨ ∃ i, node.parent = .int i

namespace TreeModel

variable {table result : Table} {key newKey : Value} {before after node : NodeFields} {row : Row}

theorem ofParameter_of_accepted {columns : List Column} {column : Column}
    (accepted : TreeQuery.checkParameters (boundData columns node) = .ok ())
    (written : column ∈ columns) (plain : column ≠ .payload) :
    ∃ value, Value.ofParameter (.column column) (node.value column) = .ok value := by
  have member : (Field.column column, node.value column) ∈ boundData columns node :=
    List.mem_map.mpr ⟨column, written, by simp [plain]⟩
  exact TreeQuery.checkParameters_eq_ok.mp accepted _ member

theorem fits_of_ofParameter {column : Column} {i : Int}
    (accepted : ∃ value, Value.ofParameter (.column column) (.int i) = .ok value) :
    fitsInt64 i = true := by
  obtain ⟨value, accepted⟩ := accepted
  by_contra large
  simp [Value.ofParameter, Value.ofJson, large] at accepted

theorem columnValue_null (column : Column) : standard.columnValue column .null = .null := by
  cases column <;> rfl

theorem columnValue_key {i : Int} (fits : fitsInt64 i = true) :
    standard.columnValue .key (.int i) = .int i := by
  simp [columnValue, Reading.operand, Value.ofParameter, Value.ofJson, fits, affinity, standard,
    Value.stored]

theorem columnValue_parent {i : Int} (fits : fitsInt64 i = true) :
    standard.columnValue .parent (.int i) = .int i := by
  simp [columnValue, Reading.operand, Value.ofParameter, Value.ofJson, fits, affinity, standard,
    Value.stored]

theorem columnValue_label (s : String) : standard.columnValue .label (.str s) = .text s := by
  simp [columnValue, Reading.operand, Value.ofParameter, Value.ofJson, affinity, Value.stored]

theorem admits_columnValue_parent (typed : node.HasParent) :
    standard.columnValue .parent node.parent = .null ∨
      KeyKind.integer.Admits (standard.columnValue .parent node.parent) := by
  rcases typed with same | ⟨i, same⟩
  · exact .inl (by rw [same, columnValue_null])
  · rw [same]
    by_cases fits : fitsInt64 i = true
    · rw [columnValue_parent fits]
      exact .inr trivial
    · refine .inl ?_
      simp [columnValue, Reading.operand, Value.ofParameter, Value.ofJson, fits, affinity, standard,
        Value.stored]

theorem toJson_columnValue_parent (typed : node.HasParent)
    (accepted : ∃ value, Value.ofParameter (.column .parent) node.parent = .ok value) :
    (standard.columnValue .parent node.parent).toJson = node.parent := by
  rcases typed with same | ⟨i, same⟩
  · rw [same, columnValue_null]
    rfl
  · rw [same] at accepted ⊢
    rw [columnValue_parent (fits_of_ofParameter accepted)]
    rfl

/-! ## Changing a row -/

variable {model : TreeModel}

/-- The row with the columns written in which two versions of a node differ. -/
def revised (model : TreeModel) (before after : NodeFields) (row : Row) : Row :=
  (model.changedColumns before after).foldl (model.writeColumn after) row

theorem revised_eq (sameKey : before.key.alike after.key = true) :
    model.revised before after row = {
      key := row.key
      parent := if before.parent.alike after.parent then row.parent
        else model.columnValue .parent after.parent
      label := if before.label.alike after.label then row.label
        else model.columnValue .label after.label
      payload := if before.payload.alike after.payload then row.payload
        else some (storedPayload after.payload) } := by
  unfold revised changedColumns columns
  cases model.labelFirst <;>
    by_cases label : before.label.alike after.label = true <;>
    by_cases parent : before.parent.alike after.parent = true <;>
    by_cases payload : before.payload.alike after.payload = true <;>
    simp [NodeFields.value, writeColumn, sameKey, label, parent, payload]

theorem updateNode_eq_revised (sameKey : before.key.alike after.key = true) :
    model.updateNode table key before after = .ok (result, newKey) ↔
      TreeQuery.checkParameters (boundData (model.changedColumns before after) after) = .ok () ∧
        newKey = key ∧ result = table.modify key (model.revised before after) := by
  have unchanged : (model.changedColumns before after).contains .key = false := by
    simp [changedColumns, NodeFields.value, sameKey]
  unfold updateNode
  simp only [unchanged]
  split
  next none =>
    have same : model.revised before after = id := by
      funext row
      rw [revised, List.isEmpty_iff.mp none]
      rfl
    have accepted : TreeQuery.checkParameters
        (boundData (model.changedColumns before after) after) = .ok () := by
      rw [List.isEmpty_iff.mp none]
      rfl
    rw [pure_eq_ok, same, Table.modify_id]
    simp [accepted, Prod.ext_iff, eq_comm, and_comm]
  next =>
    rw [bind_eq_ok]
    constructor
    · rintro ⟨⟨⟩, accepted, done⟩
      obtain ⟨rfl, rfl⟩ := Prod.mk.inj (pure_eq_ok.mp done)
      exact ⟨accepted, rfl, rfl⟩
    · rintro ⟨accepted, rfl, rfl⟩
      exact ⟨(), accepted, rfl⟩

def rewritten (before after : NodeFields) (row : Row) : Row :=
  (standard.changedColumns before after).foldl (standard.writeColumn after) row

theorem rewritten_eq (sameKey : before.key.alike after.key = true) :
    rewritten before after row = {
      key := row.key
      parent := if before.parent.alike after.parent then row.parent
        else standard.columnValue .parent after.parent
      label := if before.label.alike after.label then row.label
        else standard.columnValue .label after.label
      payload := if before.payload.alike after.payload then row.payload
        else some (storedPayload after.payload) } :=
  revised_eq sameKey

theorem updateNode_eq_ok (sameKey : before.key.alike after.key = true) :
    standard.updateNode table key before after = .ok (result, newKey) ↔
      TreeQuery.checkParameters (boundData (standard.changedColumns before after) after) = .ok () ∧
        newKey = key ∧ result = table.modify key (rewritten before after) :=
  updateNode_eq_revised sameKey

theorem admits_rewritten (sameKey : before.key.alike after.key = true) (typed : after.HasParent)
    (old : row.parent = .null ∨ KeyKind.integer.Admits row.parent) :
    (rewritten before after row).parent = .null ∨
      KeyKind.integer.Admits (rewritten before after row).parent := by
  rw [rewritten_eq sameKey]
  dsimp only
  split
  · exact old
  · exact admits_columnValue_parent typed

theorem alike_int {i j : Int} : (Json.int i).alike (.int j) = true ↔ i = j := by
  simp [Json.alike, Json.alikeScalar, Json.integral?]

theorem eq_of_alike_parent {parent : Value} (old : parent = .null ∨ KeyKind.integer.Admits parent)
    (typed : after.HasParent) (alike : parent.toJson.alike after.parent = true) :
    parent.toJson = after.parent := by
  rcases old with rfl | old
  · rcases typed with same | ⟨i, same⟩
    · exact same.symm
    · simp [same, Value.toJson, Json.alike, Json.alikeScalar, Json.integral?] at alike
  · obtain ⟨j, rfl⟩ := KeyKind.admits_integer_iff.mp old
    rcases typed with same | ⟨i, same⟩
    · simp [same, Value.toJson, Json.alike, Json.alikeScalar, Json.integral?] at alike
    · rw [same] at alike ⊢
      exact congrArg Json.int (alike_int.mp alike)

theorem toJson_parent_rewritten (sameKey : (NodeFields.ofRow row).key.alike after.key = true)
    (typed : after.HasParent) (old : row.parent = .null ∨ KeyKind.integer.Admits row.parent)
    (accepted : TreeQuery.checkParameters
      (boundData (standard.changedColumns (.ofRow row) after) after) = .ok ()) :
    (rewritten (.ofRow row) after row).parent.toJson = after.parent := by
  rw [rewritten_eq sameKey]
  dsimp only
  split
  next alike => exact eq_of_alike_parent old typed alike
  next different =>
    have written : Column.parent ∈ standard.changedColumns (.ofRow row) after := by
      refine List.mem_filter.mpr ⟨by decide, ?_⟩
      simpa [NodeFields.value] using different
    exact toJson_columnValue_parent typed (ofParameter_of_accepted accepted written (by decide))

/-! ## Adding a row -/

theorem newKey_of_int {i : Int} (given : node.key = .int i) (fits : fitsInt64 i = true) :
    standard.newKey table node = .ok (.int i) := by
  have kind : standard.keyKind = .integer := rfl
  unfold newKey
  simp only [kind, given, columnValue_key fits]

theorem admits_newKey (made : standard.newKey table node = .ok key) :
    KeyKind.integer.Admits key := by
  have kind : standard.keyKind = .integer := rfl
  unfold newKey at made
  simp only [kind] at made
  split at made
  · cases made
    trivial
  · split at made <;> cases made <;> trivial

theorem insertNode_eq_ok : model.insertNode table node = .ok (result, key) ↔
    TreeQuery.checkParameters (boundData (model.insertedColumns node) node) = .ok () ∧
      model.newKey table node = .ok key ∧ table.contains key = false ∧
      result = table.insert model.keyKind (model.rowOf key node) := by
  unfold insertNode
  rw [bind_eq_ok]
  constructor
  · rintro ⟨⟨⟩, accepted, done⟩
    obtain ⟨newKey, made, done⟩ := bind_eq_ok.mp done
    by_cases taken : table.contains newKey = true
    · rw [if_pos taken] at done
      obtain ⟨_, refused, -⟩ := bind_eq_ok.mp done
      exact absurd refused throw_ne_ok
    · rw [if_neg taken] at done
      obtain ⟨rfl, rfl⟩ := Prod.mk.inj (pure_eq_ok.mp done)
      exact ⟨accepted, made, by simpa using taken, rfl⟩
  · rintro ⟨accepted, made, fresh, rfl⟩
    refine ⟨(), accepted, bind_eq_ok.mpr ⟨key, made, ?_⟩⟩
    simp only [fresh]
    rfl

theorem isKeyed_insertNode (keyed : table.IsKeyed .integer) (typed : node.HasParent)
    (inserted : standard.insertNode table node = .ok (result, key)) : result.IsKeyed .integer := by
  obtain ⟨-, made, fresh, rfl⟩ := insertNode_eq_ok.mp inserted
  exact keyed.insert (admits_newKey made) (admits_columnValue_parent typed) fresh

theorem agreesOutside_insertNode (inserted : standard.insertNode table node = .ok (result, key)) :
    Table.AgreesOutside [key] table result := by
  obtain ⟨-, -, -, rfl⟩ := insertNode_eq_ok.mp inserted
  exact Table.agreesOutside_insert .integer (standard.rowOf key node) table

theorem toJson_parent_rowOf (typed : node.HasParent)
    (accepted : TreeQuery.checkParameters (boundData (standard.insertedColumns node) node) = .ok ()) :
    (standard.rowOf key node).parent.toJson = node.parent := by
  have written : Column.parent ∈ standard.insertedColumns node :=
    List.mem_filter.mpr ⟨by decide, rfl⟩
  exact toJson_columnValue_parent typed (ofParameter_of_accepted accepted written (by decide))

/-! ## Deleting a row -/

theorem mem_deleteNode : row ∈ deleteNode table key ↔ ∃ old ∈ table, old.key ≠ key ∧
    row = if old.parent.equals key then { old with parent := .null } else old := by
  simp only [deleteNode, List.mem_map, Table.mem_erase, and_assoc, eq_comm]

theorem isKeyed_deleteNode (keyed : table.IsKeyed .integer) :
    (deleteNode table key).IsKeyed .integer where
  key row member := by
    obtain ⟨old, found, -, rfl⟩ := mem_deleteNode.mp member
    split
    · exact keyed.key old found
    · exact keyed.key old found
  parent row member := by
    obtain ⟨old, found, -, rfl⟩ := mem_deleteNode.mp member
    split
    · exact .inl rfl
    · exact keyed.parent old found
  distinct := by
    have same : List.map Row.key (deleteNode table key) = List.map Row.key (table.erase key) := by
      rw [deleteNode, List.map_map]
      refine List.map_congr_left fun row _ => ?_
      simp only [Function.comp_apply]
      split <;> rfl
    rw [same]
    exact keyed.distinct.sublist (List.filter_sublist.map Row.key)

end TreeModel
end AdjacencyForest
