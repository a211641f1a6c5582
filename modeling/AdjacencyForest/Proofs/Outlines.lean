import AdjacencyForest.Proofs.Acceptance
import AdjacencyForest.Proofs.Forest

/-!
# Outlines

The outline of a row is its key, its parent and its payload; a row without a payload counts as one
whose payload is null. Records that describe rows, each with the key, the parent and the payload of
its row, bring an import to the outlines of these rows, whatever their labels are.

Main statements: `isForest_of_outlines`, tables with the same outlines are forests together;
`importSheet_present`, records of the rows that are there leave all outlines as they are;
`importSheet_absent`, in an empty table they make the outlines anew.
-/

namespace AdjacencyForest

theorem exists_of_forall₂ {α β : Type} {related : α → β → Prop} {items : List α} {others : List β}
    (all : List.Forall₂ related items others) {item : α} (member : item ∈ items) :
    ∃ other ∈ others, related item other := by
  induction all with
  | nil => cases member
  | cons first _ ih =>
    rcases List.mem_cons.mp member with rfl | later
    · exact ⟨_, List.mem_cons_self, first⟩
    · obtain ⟨other, found, same⟩ := ih later
      exact ⟨other, List.mem_cons_of_mem _ found, same⟩

/-- The key, the parent and the payload of a row. -/
def Row.outline (row : Row) : Value × Value × Json := (row.key, row.parent, row.payload.getD .null)

/-- The payload of a row is null or an object, which are stored as they are. -/
def Row.HasObject (row : Row) : Prop :=
  row.payload.getD .null = .null ∨ ∃ fields, row.payload = some (.obj fields)

namespace Table

variable {kind : KeyKind} {table after : Table} {row : Row} {child parent : Value}

theorem key_perm_of_outlines (same : (List.map Row.outline after).Perm (List.map Row.outline table)) :
    (List.map Row.key after).Perm (List.map Row.key table) := by
  have keys : Row.key = Prod.fst ∘ Row.outline := rfl
  rw [keys, ← List.map_map, ← List.map_map]
  exact same.map Prod.fst

theorem exists_of_outlines (same : (List.map Row.outline after).Perm (List.map Row.outline table))
    (member : row ∈ after) : ∃ other ∈ table, other.outline = row.outline :=
  List.mem_map.mp (same.subset (List.mem_map_of_mem member))

theorem link_of_outlines (same : (List.map Row.outline after).Perm (List.map Row.outline table))
    (link : after.Link child parent) : table.Link child parent := by
  obtain ⟨row, member, rfl, rfl⟩ := link
  obtain ⟨other, found, outline⟩ := exists_of_outlines same member
  obtain ⟨key, rest⟩ := Prod.mk.inj outline
  exact ⟨other, found, key, (Prod.mk.inj rest).1⟩

theorem isKeyed_of_outlines (same : (List.map Row.outline after).Perm (List.map Row.outline table))
    (keyed : table.IsKeyed kind) : after.IsKeyed kind where
  key row member := by
    obtain ⟨other, found, key, -⟩ := link_of_outlines same ⟨row, member, rfl, rfl⟩
    exact key ▸ keyed.key other found
  parent row member := by
    obtain ⟨other, found, -, parent⟩ := link_of_outlines same ⟨row, member, rfl, rfl⟩
    exact parent ▸ keyed.parent other found
  distinct := (key_perm_of_outlines same).nodup_iff.mpr keyed.distinct

theorem isForest_of_outlines (same : (List.map Row.outline after).Perm (List.map Row.outline table))
    (forest : table.IsForest) : after.IsForest where
  keyed := isKeyed_of_outlines same forest.keyed
  parents row member given := by
    obtain ⟨other, found, -, parent⟩ := link_of_outlines same ⟨row, member, rfl, rfl⟩
    obtain ⟨above, aboveFound, aboveKey⟩ :=
      contains_iff.mp (forest.parents other found (parent ▸ given))
    obtain ⟨kept, keptFound, keptKey, -⟩ := link_of_outlines same.symm ⟨above, aboveFound, rfl, rfl⟩
    exact contains_iff.mpr ⟨kept, keptFound, keptKey.trans (aboveKey.trans parent)⟩
  acyclic := not_onCycle_of_isCycle forest.keyed forest.acyclic fun _ cyclic =>
    cyclic.of_links fun _ _ _ _ link => link_of_outlines same link

end Table

namespace Service

open Table TreeModel

variable {settings : Settings} {table before after : Table} {row other : Row} {rows : List Row}
  {record : ImportRecord} {records : List ImportRecord} {sheet : Sheet}

/-- The record says of a row all but its label, and of the label what the store takes. -/
structure ImportRecord.Describes (record : ImportRecord) (row : Row) : Prop where
  key : row.key = .int record.id
  parent : record.parent = some row.parent.toJson
  payload : record.payload = some (row.payload.getD .null)
  writable : record.IsWritable

theorem storedPayload_of_hasObject (object : row.HasObject) :
    storedPayload (row.payload.getD .null) = row.payload.getD .null := by
  rcases object with null | ⟨fields, given⟩
  · rw [null]
    rfl
  · rw [given]
    rfl

theorem columnValue_toJson_parent (keyed : table.IsKeyed .integer) (member : row ∈ table)
    (describes : record.Describes row) : standard.columnValue .parent row.parent.toJson = row.parent := by
  rcases keyed.parent row member with null | admitted
  · rw [null]
    exact columnValue_null .parent
  · obtain ⟨i, parent⟩ := KeyKind.admits_integer_iff.mp admitted
    have given := describes.writable.parent _ describes.parent
    rw [parent] at given ⊢
    rcases given with null | ⟨j, same, fits⟩
    · cases null
    · obtain rfl := Json.int.inj same
      exact columnValue_parent fits

/-! ## Rows that are there -/

/-- A record that describes a row is written over it without a change of the outline. -/
theorem outline_rewritten (keyed : table.IsKeyed .integer) (member : row ∈ table)
    (object : row.HasObject) (describes : record.Describes row)
    (same : other.outline = row.outline) :
    Row.outline { rewritten (.ofRow row) (record.applyTo (.ofRow row)) other with key := other.key } =
      other.outline := by
  obtain ⟨key, rest⟩ := Prod.mk.inj same
  obtain ⟨parent, payload⟩ := Prod.mk.inj rest
  rw [rewritten_eq (sameKey_applyTo describes.key), record.parent_applyTo, record.payload_applyTo,
    describes.parent, describes.payload]
  unfold Row.outline
  dsimp only [Option.getD_some]
  refine congrArg (Prod.mk other.key) (Prod.ext ?_ ?_)
  · dsimp only
    split
    · rfl
    · rw [columnValue_toJson_parent keyed member describes, parent]
  · dsimp only
    split
    · rfl
    · rw [storedPayload_of_hasObject object, Option.getD_some, payload]

theorem outlines_applyChange (keyed : table.IsKeyed .integer) (member : row ∈ table)
    (object : row.HasObject) (describes : record.Describes row)
    (kept : List.map Row.outline before = List.map Row.outline table) :
    List.map Row.outline (applyChange before (row, record.applyTo (.ofRow row))) =
      List.map Row.outline table := by
  unfold applyChange Table.modify
  rw [← kept, List.map_map]
  refine List.map_congr_left fun old found => ?_
  rw [Function.comp_apply]
  split
  next same =>
    -- The row of the key is still as the table has it, but maybe for its label.
    obtain ⟨first, firstFound, outline⟩ := exists_of_outlines (.of_eq kept) found
    have firstKey : first.key = old.key := congrArg Prod.fst outline
    obtain rfl := keyed.eq_of_key firstFound member (firstKey.trans (beq_iff_eq.mp same))
    exact outline_rewritten keyed member object describes outline.symm
  next => rfl

/-- All changes that records of the table's rows stage leave the outlines as they are. -/
theorem outlines_foldl_applyChange (keyed : table.IsKeyed .integer)
    (objects : ∀ row ∈ table, row.HasObject)
    (described : ∀ record ∈ records, ∃ row ∈ table, record.Describes row)
    {changes : List (Row × NodeFields)} (staged : changes.Perm (stagingOf table records).changes) :
    List.map Row.outline (changes.foldl applyChange table) = List.map Row.outline table := by
  refine List.foldlRecOn (motive := fun after =>
    List.map Row.outline after = List.map Row.outline table) changes applyChange rfl
    fun before kept change member => ?_
  obtain ⟨record, listed, inside, rowKey, changed⟩ := mem_changes_stagingOf (staged.subset member)
  obtain ⟨row, found, describes⟩ := described record listed
  obtain rfl := keyed.eq_of_key inside found (rowKey.trans describes.key.symm)
  have same : change = (change.1, record.applyTo (.ofRow change.1)) := Prod.ext rfl changed
  rw [same]
  exact outlines_applyChange keyed inside (objects _ inside) describes kept

theorem additions_stagingOf_of_present (present : ∀ record ∈ records, table.contains (.int record.id) = true) :
    (stagingOf table records).additions = [] := by
  refine List.map_eq_nil_iff.mpr (List.filter_eq_nil_iff.mpr fun record listed => ?_)
  simp [present record listed]

theorem exists_write_present (keyed : table.IsKeyed .integer) (labels : table.HasLabels)
    (objects : ∀ row ∈ table, row.HasObject)
    (described : ∀ record ∈ records, ∃ row ∈ table, record.Describes row) :
    ∃ after, (stagingOf table records).write table = .ok after ∧
      List.map Row.outline after = List.map Row.outline table := by
  have sorted := List.mergeSort_perm (stagingOf table records).changes
    fun a b => a.1.key.compareWith b.1.key != .gt
  have writable : ∀ record ∈ records, record.IsWritable := fun record listed => by
    obtain ⟨_, _, describes⟩ := described record listed
    exact describes.writable
  have present : ∀ record ∈ records, table.contains (.int record.id) = true := fun record listed => by
    obtain ⟨row, found, describes⟩ := described record listed
    exact contains_iff.mpr ⟨row, found, describes.key⟩
  refine ⟨_, bind_eq_ok.mpr ⟨_, foldlM_changes keyed labels writable sorted, ?_⟩,
    outlines_foldl_applyChange keyed objects described sorted⟩
  rw [additions_stagingOf_of_present present]
  rfl

/-! ## Rows that are not there -/

theorem outline_rowOf (keyed : table.IsKeyed .integer) (member : row ∈ table)
    (object : row.HasObject) (describes : record.Describes row) :
    (standard.rowOf (.int record.id) (record.applyTo {})).outline = row.outline := by
  rw [rowOf, record.parent_applyTo, record.payload_applyTo, record.hasPayload_applyTo,
    describes.parent, describes.payload, Option.getD_some,
    columnValue_toJson_parent keyed member describes]
  unfold Row.outline
  simp [storedPayload_of_hasObject object, describes.key]

/-- The described rows come to a table that has none of their keys, one after the other. -/
theorem exists_foldlM_additions (keyed : table.IsKeyed .integer) (inside : ∀ row ∈ rows, row ∈ table)
    (objects : ∀ row ∈ rows, row.HasObject)
    (described : List.Forall₂ ImportRecord.Describes records rows)
    (distinct : (List.map Row.key before ++ rows.map Row.key).Nodup) :
    ∃ after, (records.map fun record => record.applyTo {}).foldlM applyAddition before = .ok after ∧
      (List.map Row.outline after).Perm (List.map Row.outline before ++ rows.map Row.outline) := by
  induction described generalizing before with
  | nil => exact ⟨before, rfl, .of_eq (List.append_nil _).symm⟩
  | @cons record row records rows describes _ ih =>
    have member := inside row List.mem_cons_self
    have outline := outline_rowOf keyed member (objects row List.mem_cons_self) describes
    have fresh : before.contains (.int record.id) = false := by
      refine contains_eq_false_iff.mpr fun old found same => ?_
      refine (List.nodup_append.mp distinct).2.2 _ (List.mem_map_of_mem found) row.key (by simp) ?_
      rw [same, describes.key]
    have inserted := insert_perm .integer (standard.rowOf (.int record.id) (record.applyTo {})) before
    have keys := (inserted.map Row.key).append_right (rows.map Row.key)
    -- The row that is put in has the key of the row described, so all keys stay distinct.
    have later : (List.map Row.key (before.insert .integer
        (standard.rowOf (.int record.id) (record.applyTo {}))) ++ rows.map Row.key).Nodup := by
      rw [keys.nodup_iff, List.map_cons, rowOf, ← describes.key]
      exact (List.perm_middle.symm.nodup_iff).mpr distinct
    obtain ⟨after, written, outlines⟩ := ih
      (fun row found => inside row (List.mem_cons_of_mem _ found))
      (fun row found => objects row (List.mem_cons_of_mem _ found)) later
    refine ⟨after, ?_, outlines.trans ?_⟩
    · rw [List.map_cons, List.foldlM_cons, applyAddition_eq_ok describes.writable fresh]
      exact written
    · refine ((inserted.map Row.outline).append_right _).trans ?_
      rw [List.map_cons, List.map_cons, outline]
      exact List.perm_middle.symm

theorem stagingOf_nil (records : List ImportRecord) :
    stagingOf [] records = ⟨[], records.map fun record => record.applyTo {}⟩ := by
  have absent (key : Value) : Table.find? [] key = none := rfl
  have missing (key : Value) : Table.contains [] key = false := rfl
  simp [stagingOf, absent, missing]

theorem exists_write_absent (keyed : table.IsKeyed .integer) (objects : ∀ row ∈ table, row.HasObject)
    (described : List.Forall₂ ImportRecord.Describes records rows) (same : rows.Perm table) :
    ∃ after, (stagingOf [] records).write [] = .ok after ∧
      (List.map Row.outline after).Perm (List.map Row.outline table) := by
  obtain ⟨after, written, outlines⟩ := @exists_foldlM_additions table [] rows records keyed
    (fun row found => same.subset found) (fun row found => objects row (same.subset found)) described
    ((same.map Row.key).nodup_iff.mpr keyed.distinct)
  refine ⟨after, ?_, outlines.trans (same.map Row.outline)⟩
  rw [stagingOf_nil, Staging.write]
  dsimp only
  rw [List.mergeSort_nil]
  exact written

/-! ## The whole import -/

theorem accepts_of_isForest (forest : after.IsForest) (ids : List Int) : Accepts after ids := by
  intro row member _
  by_cases root : row.parent = .null
  · exact .inl root
  · exact .inr ⟨forest.parents row member root, forest.acyclic row⟩

theorem importSheet_eq_ok (supported : settings.registry.grammarFor .sqlite = .ok .sqlite)
    (read : IsReadAs sheet records) (writable : ∀ record ∈ records, record.IsWritable)
    (distinct : (records.map ImportRecord.id).Nodup)
    (written : (stagingOf table records).write table = .ok after) (forest : after.IsForest)
    (fitsLength : fitsInt64 after.length = true) :
    importSheet settings table sheet = .ok (after, records.length) := by
  have fits : ∀ id ∈ records.map ImportRecord.id, fitsInt64 id = true := by
    intro id listed
    obtain ⟨record, member, rfl⟩ := List.mem_map.mp listed
    exact (writable record member).fits
  have checked := (forM_checkPlacement_eq_ok forest.keyed fits fitsLength supported).mpr
    (accepts_of_isForest forest _)
  have staged : stageRows table _ _ = .ok _ :=
    stageRows_eq_ok read writable distinct (Nat.le_refl _)
  rw [List.take_length, ← read.length_rows] at staged
  exact importSheet_eq_ok_iff.mpr ⟨_, _, staged, written, checked, read.length_rows⟩

theorem key_of_described (described : List.Forall₂ ImportRecord.Describes records rows) :
    rows.map Row.key = (records.map ImportRecord.id).map Value.int := by
  induction described with
  | nil => rfl
  | cons describes _ ih =>
    rw [List.map_cons, List.map_cons, List.map_cons, ih, describes.key]

variable (supported : settings.registry.grammarFor .sqlite = .ok .sqlite) (forest : table.IsForest)
  (fitsLength : fitsInt64 table.length = true) (read : IsReadAs sheet records)
  (described : List.Forall₂ ImportRecord.Describes records rows) (same : rows.Perm table)
include supported forest fitsLength read described same

/-- What is written for the records keeps to the outlines of the rows, so the import is accepted. -/
theorem importSheet_described
    (written : (stagingOf before records).write before = .ok after)
    (outlines : (List.map Row.outline after).Perm (List.map Row.outline table)) :
    importSheet settings before sheet = .ok (after, table.length) := by
  have length : after.length = table.length := by simpa using outlines.length_eq
  have count : records.length = table.length := described.length_eq.trans same.length_eq
  have distinct : (records.map ImportRecord.id).Nodup := by
    refine List.Nodup.of_map Value.int ?_
    rw [← key_of_described described]
    exact (same.map Row.key).nodup_iff.mpr forest.keyed.distinct
  have writable : ∀ record ∈ records, record.IsWritable := fun record listed => by
    obtain ⟨row, -, describes⟩ := exists_of_forall₂ described listed
    exact describes.writable
  rw [← count]
  exact importSheet_eq_ok supported read writable distinct written
    (isForest_of_outlines outlines forest) (length ▸ fitsLength)

variable (objects : ∀ row ∈ table, row.HasObject)
include objects

theorem importSheet_present (labels : table.HasLabels) :
    ∃ after, importSheet settings table sheet = .ok (after, table.length) ∧
      List.map Row.outline after = List.map Row.outline table := by
  obtain ⟨after, written, outlines⟩ := exists_write_present forest.keyed labels objects
    fun record listed => by
      obtain ⟨row, found, describes⟩ := exists_of_forall₂ described listed
      exact ⟨row, same.subset found, describes⟩
  exact ⟨after, importSheet_described supported forest fitsLength read described same written
    (.of_eq outlines), outlines⟩

theorem importSheet_absent :
    ∃ after, importSheet settings [] sheet = .ok (after, table.length) ∧
      (List.map Row.outline after).Perm (List.map Row.outline table) := by
  obtain ⟨after, written, outlines⟩ := exists_write_absent forest.keyed objects described same
  exact ⟨after, importSheet_described supported forest fitsLength read described same written
    outlines, outlines⟩

end Service
end AdjacencyForest
