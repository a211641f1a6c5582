import AdjacencyForest.Proofs.Upsert

/-!
# Writing a batch

The records of a sheet are staged against the table that is there and written together: first the
changes by key, then the new rows in order. When no key comes twice, the table is then the one with
each record written by itself.

Main statements: `add_stagingOf`, what is staged; `write_stagingOf`, what is written.
-/

namespace AdjacencyForest

theorem Binary64.compare?_self {x : Binary64} (number : x ≠ .nan) : x.compare? x = some .eq := by
  cases x with
  | finite negative mantissa exponent => simp [compare?]
  | infinite negative => simp [compare?]
  | nan => exact absurd rfl number

/-- The labels of a table are texts, or there is none. -/
def Table.HasLabels (table : Table) : Prop :=
  ∀ row ∈ table, row.label = .null ∨ ∃ s, row.label = .text s

namespace Service

open Table TreeModel

variable {table after : Table} {row : Row} {record : ImportRecord} {records : List ImportRecord}
  {given : Json} {node : NodeFields} {key : Value}

/-! ## The columns of a row -/

theorem storedPayload_nan : storedPayload (.num .nan) = .num .nan := by
  have kept : (Value.text (Json.num .nan).print).stored .numeric = .text "NaN" := by
    decide +kernel
  unfold storedPayload
  dsimp only
  rw [kept]

/-- Data that does not equal itself is written again as it is. -/
theorem mergedPayload_self (payload : Option Json) :
    mergedPayload payload (payload.getD .null) = payload := by
  unfold mergedPayload
  split
  · rfl
  next different =>
    cases payload with
    | none => simp [Json.alike, Json.alikeScalar] at different
    | some data =>
      cases data with
      | arr items => rfl
      | obj fields => rfl
      | num x =>
        by_cases number : x = .nan
        · rw [number]
          exact congrArg some storedPayload_nan
        · simp [Json.alike, Json.alikeScalar, Binary64.compare?_self number] at different
      | null | bool | int | str | illFormed =>
        simp [Json.alike, Json.alikeScalar, Json.integral?] at different

theorem parent_written (old : row.parent = .null ∨ KeyKind.integer.Admits row.parent)
    (typed : given = .null ∨ ∃ i, given = .int i ∧ fitsInt64 i = true) :
    (if row.parent.toJson.alike given then row.parent else standard.columnValue .parent given) =
      given.scalar := by
  split
  next alike =>
    have parent : NodeFields.HasParent { parent := given } :=
      typed.imp_right fun ⟨i, same, _⟩ => ⟨i, same⟩
    have same : row.parent.toJson = given := eq_of_alike_parent old parent alike
    rw [← same]
    rcases old with null | admitted
    · rw [null]
      rfl
    · obtain ⟨j, parentKey⟩ := KeyKind.admits_integer_iff.mp admitted
      rw [parentKey]
      rfl
  next =>
    rcases typed with rfl | ⟨i, rfl, fits⟩
    · exact columnValue_null .parent
    · exact columnValue_parent fits

theorem label_written (old : row.label = .null ∨ ∃ s, row.label = .text s)
    (typed : given = .null ∨ ∃ s, given = .str s) :
    (if row.label.toJson.alike given then row.label else standard.columnValue .label given) =
      given.scalar := by
  split
  next alike =>
    rcases old with null | ⟨s, text⟩ <;> rcases typed with rfl | ⟨t, rfl⟩
    · exact null
    · simp [null, Value.toJson, Json.alike, Json.alikeScalar, Json.integral?] at alike
    · simp [text, Value.toJson, Json.alike, Json.alikeScalar, Json.integral?] at alike
    · have same : s = t := by simpa [text, Value.toJson, Json.alike, Json.alikeScalar] using alike
      rw [text, same]
      rfl
  next =>
    rcases typed with rfl | ⟨t, rfl⟩
    · exact columnValue_null .label
    · exact columnValue_label t

theorem parent_alike_self (old : row.parent = .null ∨ KeyKind.integer.Admits row.parent) :
    row.parent.toJson.alike row.parent.toJson = true := by
  rcases old with null | admitted
  · rw [null]
    rfl
  · obtain ⟨i, parent⟩ := KeyKind.admits_integer_iff.mp admitted
    rw [parent]
    exact alike_int.mpr rfl

theorem label_alike_self (old : row.label = .null ∨ ∃ s, row.label = .text s) :
    row.label.toJson.alike row.label.toJson = true := by
  rcases old with null | ⟨s, text⟩
  · rw [null]
    rfl
  · simp [text, Value.toJson, Json.alike, Json.alikeScalar]

theorem ImportRecord.label_applyTo (record : ImportRecord) (node : NodeFields) :
    (record.applyTo node).label = record.label.getD node.label := by
  unfold applyTo
  cases record.label <;> cases record.parent <;> cases record.payload <;> rfl

theorem ImportRecord.payload_applyTo (record : ImportRecord) (node : NodeFields) :
    (record.applyTo node).payload = record.payload.getD node.payload := by
  unfold applyTo
  cases record.label <;> cases record.parent <;> cases record.payload <;> rfl

theorem ImportRecord.hasPayload_applyTo (record : ImportRecord) (node : NodeFields) :
    (record.applyTo node).hasPayload = (record.payload.isSome || node.hasPayload) := by
  unfold applyTo
  cases record.label <;> cases record.parent <;> cases record.payload <;> rfl

theorem exists_parentParameter (typed : given = .null ∨ ∃ i, given = .int i ∧ fitsInt64 i = true) :
    ∃ value, Value.ofParameter (.column .parent) given = .ok value := by
  rcases typed with rfl | ⟨i, rfl, fits⟩
  · exact ⟨.null, rfl⟩
  · exact ⟨.int i, by simp [Value.ofParameter, Value.ofJson, fits]⟩

/-! ## One record -/

theorem sameKey_applyTo (rowKey : row.key = .int record.id) :
    (NodeFields.ofRow row).key.alike (record.applyTo (.ofRow row)).key = true := by
  rw [record.key_applyTo]
  simp [NodeFields.ofRow, rowKey, Value.toJson, alike_int]

theorem rewritten_applyTo (valid : record.IsValid) (rowKey : row.key = .int record.id)
    (parent : row.parent = .null ∨ KeyKind.integer.Admits row.parent)
    (label : row.label = .null ∨ ∃ s, row.label = .text s) :
    rewritten (.ofRow row) (record.applyTo (.ofRow row)) row = record.merge row := by
  rw [rewritten_eq (sameKey_applyTo rowKey), record.parent_applyTo, record.label_applyTo,
    record.payload_applyTo, ImportRecord.merge, Row.mk.injEq]
  refine ⟨rfl, ?_, ?_, ?_⟩
  · cases column : record.parent with
    | none => exact if_pos (parent_alike_self parent)
    | some given => exact parent_written parent (valid.parent given column)
  · cases column : record.label with
    | none => exact if_pos (label_alike_self label)
    | some given => exact label_written label (valid.label given column)
  · cases record.payload with
    | none => exact mergedPayload_self row.payload
    | some given => rfl

theorem rowOf_applyTo (valid : record.IsValid) :
    standard.rowOf (.int record.id) (record.applyTo {}) = record.newRow := by
  rw [rowOf, record.parent_applyTo, record.label_applyTo, record.payload_applyTo,
    record.hasPayload_applyTo, ImportRecord.newRow, Row.mk.injEq]
  refine ⟨rfl, ?_, ?_, ?_⟩
  · cases column : record.parent with
    | none => exact columnValue_null .parent
    | some given =>
      rcases valid.parent given column with rfl | ⟨i, rfl, fits⟩
      · exact columnValue_null .parent
      · exact columnValue_parent fits
  · cases column : record.label with
    | none => exact columnValue_null .label
    | some given =>
      rcases valid.label given column with rfl | ⟨s, rfl⟩
      · exact columnValue_null .label
      · exact columnValue_label s
  · cases record.payload <;> rfl

theorem checkParameters_change (writable : record.IsWritable) (rowKey : row.key = .int record.id)
    (parent : row.parent = .null ∨ KeyKind.integer.Admits row.parent)
    (label : row.label = .null ∨ ∃ s, row.label = .text s) :
    TreeQuery.checkParameters (boundData
      (standard.changedColumns (.ofRow row) (record.applyTo (.ofRow row)))
      (record.applyTo (.ofRow row))) = .ok () := by
  refine TreeQuery.checkParameters_eq_ok.mpr fun parameter bound => ?_
  -- A changed column has a value that the record gives: one that it leaves alone is alike before
  -- and after.
  obtain ⟨column, changed, rfl⟩ := List.mem_map.mp bound
  have different := (List.mem_filter.mp changed).2
  cases column with
  | key =>
    rw [NodeFields.value, NodeFields.value, sameKey_applyTo rowKey] at different
    exact absurd different (by decide)
  | parent =>
    rw [NodeFields.value, NodeFields.value, record.parent_applyTo] at different
    rw [if_neg (by decide), NodeFields.value, record.parent_applyTo]
    cases column : record.parent with
    | none =>
      have same : (NodeFields.ofRow row).parent.alike (NodeFields.ofRow row).parent = true :=
        parent_alike_self parent
      rw [column, Option.getD_none, same] at different
      exact absurd different (by decide)
    | some given => exact exists_parentParameter (writable.parent given column)
  | label =>
    rw [NodeFields.value, NodeFields.value, record.label_applyTo] at different
    rw [if_neg (by decide), NodeFields.value, record.label_applyTo]
    cases column : record.label with
    | none =>
      have same : (NodeFields.ofRow row).label.alike (NodeFields.ofRow row).label = true :=
        label_alike_self label
      rw [column, Option.getD_none, same] at different
      exact absurd different (by decide)
    | some given => exact writable.label given column
  | payload => exact ⟨.null, rfl⟩

theorem checkParameters_addition (writable : record.IsWritable) :
    TreeQuery.checkParameters (boundData (standard.insertedColumns (record.applyTo {}))
      (record.applyTo {})) = .ok () := by
  refine TreeQuery.checkParameters_eq_ok.mpr fun parameter bound => ?_
  obtain ⟨column, -, rfl⟩ := List.mem_map.mp bound
  cases column with
  | key =>
    rw [if_neg (by decide), NodeFields.value, record.key_applyTo]
    exact ⟨.int record.id, by simp [Value.ofParameter, Value.ofJson, writable.fits]⟩
  | parent =>
    rw [if_neg (by decide), NodeFields.value, record.parent_applyTo]
    cases column : record.parent with
    | none => exact ⟨.null, rfl⟩
    | some given => exact exists_parentParameter (writable.parent given column)
  | label =>
    rw [if_neg (by decide), NodeFields.value, record.label_applyTo]
    cases column : record.label with
    | none => exact ⟨.null, rfl⟩
    | some given => exact writable.label given column
  | payload => exact ⟨.null, rfl⟩

theorem updateNode_applyTo (writable : record.IsWritable) (rowKey : row.key = .int record.id)
    (parent : row.parent = .null ∨ KeyKind.integer.Admits row.parent)
    (label : row.label = .null ∨ ∃ s, row.label = .text s) :
    standard.updateNode table row.key (.ofRow row) (record.applyTo (.ofRow row)) =
      .ok (table.modify row.key (rewritten (.ofRow row) (record.applyTo (.ofRow row))), row.key) :=
  (updateNode_eq_ok (sameKey_applyTo rowKey)).mpr
    ⟨checkParameters_change writable rowKey parent label, rfl, rfl⟩

theorem insertNode_applyTo (writable : record.IsWritable)
    (fresh : table.contains (.int record.id) = false) :
    standard.insertNode table (record.applyTo {}) = .ok (table.insert .integer
      (standard.rowOf (.int record.id) (record.applyTo {})), .int record.id) :=
  insertNode_eq_ok.mpr ⟨checkParameters_addition writable,
    newKey_of_int (record.key_applyTo {}) writable.fits, fresh, rfl⟩

/-! ## All records -/

/-- What is staged for records of which no two have one key. -/
def stagingOf (table : Table) (records : List ImportRecord) : Staging where
  changes := records.filterMap fun record =>
    (table.find? (.int record.id)).map fun row => (row, record.applyTo (.ofRow row))
  additions := (records.filter fun record => !table.contains (.int record.id)).map fun record =>
    record.applyTo {}

theorem stagingOf_append_present (found : table.find? (.int record.id) = some row) :
    stagingOf table (records ++ [record]) =
      { changes := (stagingOf table records).changes ++ [(row, record.applyTo (.ofRow row))]
        additions := (stagingOf table records).additions } := by
  have present := contains_of_find? found
  simp [stagingOf, found, present]

theorem stagingOf_append_absent (absent : table.find? (.int record.id) = none) :
    stagingOf table (records ++ [record]) =
      { changes := (stagingOf table records).changes
        additions := (stagingOf table records).additions ++ [record.applyTo {}] } := by
  have missing : table.contains (.int record.id) = false := find?_eq_none_iff_contains.mp absent
  simp [stagingOf, absent, missing]

theorem putChange_fresh {changes : List (Row × NodeFields)}
    (fresh : ∀ change ∈ changes, change.1.key ≠ row.key) :
    putChange row record changes = changes ++ [(row, record.applyTo (.ofRow row))] := by
  induction changes with
  | nil => rfl
  | cons first rest ih =>
    rw [putChange, if_neg (fresh first List.mem_cons_self),
      ih fun change member => fresh change (List.mem_cons_of_mem _ member)]
    rfl

theorem mem_changes_stagingOf {change : Row × NodeFields}
    (member : change ∈ (stagingOf table records).changes) :
    ∃ record ∈ records, change.1 ∈ table ∧ change.1.key = .int record.id ∧
      change.2 = record.applyTo (.ofRow change.1) := by
  obtain ⟨record, listed, staged⟩ := List.mem_filterMap.mp member
  obtain ⟨row, found, rfl⟩ := Option.map_eq_some_iff.mp staged
  obtain ⟨inside, rowKey⟩ := mem_of_find? found
  exact ⟨record, listed, inside, rowKey, rfl⟩

theorem add_stagingOf (fits : fitsInt64 record.id = true)
    (fresh : record.id ∉ records.map ImportRecord.id) :
    (stagingOf table records).add table record = .ok (stagingOf table (records ++ [record])) := by
  unfold Staging.add
  refine bind_eq_ok.mpr ⟨_, rowOf?_eq_ok.mpr ⟨fits, rfl⟩, ?_⟩
  cases found : table.find? (.int record.id) with
  | none => rw [stagingOf_append_absent found]; rfl
  | some row =>
    have rowKey := (mem_of_find? found).2
    have others : ∀ change ∈ (stagingOf table records).changes, change.1.key ≠ row.key := by
      intro change member same
      obtain ⟨other, listed, -, otherKey, -⟩ := mem_changes_stagingOf member
      refine fresh (List.mem_map.mpr ⟨other, listed, ?_⟩)
      rw [otherKey, rowKey] at same
      exact Value.int.inj same
    rw [stagingOf_append_present found]
    simp only [putChange_fresh others]
    rfl

def applyChange (table : Table) (change : Row × NodeFields) : Table :=
  table.modify change.1.key (rewritten (.ofRow change.1) change.2)

def applyAddition (table : Table) (node : NodeFields) : Except Fault Table := do
  return (← standard.insertNode table node).1

theorem eq_of_change_key (keyed : table.IsKeyed .integer)
    (distinct : (records.map ImportRecord.id).Nodup) {first second : Row × NodeFields}
    (member : first ∈ (stagingOf table records).changes)
    (otherMember : second ∈ (stagingOf table records).changes)
    (same : first.1.key = second.1.key) : first = second := by
  obtain ⟨record, listed, inside, rowKey, changed⟩ := mem_changes_stagingOf member
  obtain ⟨other, otherListed, otherInside, otherKey, otherChanged⟩ :=
    mem_changes_stagingOf otherMember
  have rows : first.1 = second.1 := keyed.eq_of_key inside otherInside same
  rw [rowKey, otherKey] at same
  obtain rfl := List.inj_on_of_nodup_map distinct listed otherListed (Value.int.inj same)
  exact Prod.ext rows (by rw [changed, otherChanged, rows])

theorem foldl_changes_perm (keyed : table.IsKeyed .integer)
    (distinct : (records.map ImportRecord.id).Nodup) {changes : List (Row × NodeFields)}
    (same : changes.Perm (stagingOf table records).changes) :
    changes.foldl applyChange table = (stagingOf table records).changes.foldl applyChange table := by
  -- The changes are sorted by key before they are written, which does not matter: no two of them are
  -- for one row.
  refine same.foldl_eq' (fun first member second otherMember before => ?_) table
  by_cases keys : first.1.key = second.1.key
  · rw [eq_of_change_key keyed distinct (same.mem_iff.mp member) (same.mem_iff.mp otherMember) keys]
  · exact modify_comm keys

theorem foldlM_changes (keyed : table.IsKeyed .integer) (labels : table.HasLabels)
    (writable : ∀ record ∈ records, record.IsWritable) {changes : List (Row × NodeFields)}
    (same : changes.Perm (stagingOf table records).changes) :
    changes.foldlM (fun table change => do
      return (← standard.updateNode table change.1.key (.ofRow change.1) change.2).1) table =
        .ok (changes.foldl applyChange table) := by
  refine foldlM_eq_ok (fun _ => True) trivial fun change member before _ => ⟨?_, trivial⟩
  obtain ⟨record, listed, inside, rowKey, changed⟩ := mem_changes_stagingOf (same.mem_iff.mp member)
  rw [changed, updateNode_applyTo (writable record listed) rowKey (keyed.parent _ inside)
    (labels _ inside), applyChange, changed]
  rfl

theorem applyAddition_eq_ok (writable : record.IsWritable)
    (fresh : table.contains (.int record.id) = false) :
    applyAddition table (record.applyTo {}) =
      .ok (table.insert .integer (standard.rowOf (.int record.id) (record.applyTo {}))) := by
  rw [applyAddition, insertNode_applyTo writable fresh]
  rfl

theorem applyAddition_applyTo (valid : record.IsValid)
    (fresh : table.contains (.int record.id) = false) :
    applyAddition table (record.applyTo {}) = .ok (table.insert .integer record.newRow) := by
  rw [applyAddition_eq_ok valid.isWritable fresh, rowOf_applyTo valid]

theorem foldlM_additions_modify {change : Row → Row} {records : List ImportRecord}
    (valid : ∀ record ∈ records, record.IsValid) (other : ∀ record ∈ records, .int record.id ≠ key)
    (written : (records.map fun record => record.applyTo {}).foldlM applyAddition table = .ok after) :
    (records.map fun record => record.applyTo {}).foldlM applyAddition (table.modify key change) =
      .ok (after.modify key change) := by
  induction records generalizing table with
  | nil =>
    obtain rfl := pure_eq_ok.mp written
    rfl
  | cons record rest ih =>
    rw [List.map_cons, List.foldlM_cons] at written
    obtain ⟨middle, first, later⟩ := bind_eq_ok.mp written
    have fresh : table.contains (.int record.id) = false := by
      obtain ⟨⟨result, made⟩, inserted, -⟩ := bind_eq_ok.mp first
      obtain ⟨-, named, absent, -⟩ := insertNode_eq_ok.mp inserted
      rw [newKey_of_int (record.key_applyTo {}) (valid record List.mem_cons_self).fits] at named
      exact Except.ok.inj named ▸ absent
    rw [applyAddition_applyTo (valid record List.mem_cons_self) fresh] at first
    obtain rfl := Except.ok.inj first
    rw [List.map_cons, List.foldlM_cons]
    refine bind_eq_ok.mpr ⟨(table.insert .integer record.newRow).modify key change, ?_,
      ih (fun later member => valid later (List.mem_cons_of_mem _ member))
        (fun later member => other later (List.mem_cons_of_mem _ member)) later⟩
    rw [applyAddition_applyTo (valid record List.mem_cons_self) (by rw [contains_modify, fresh])]
    exact congrArg Except.ok (modify_insertByKey (other record List.mem_cons_self)).symm

/-- The table with all that is staged, the changes as they were staged. -/
def Staging.complete (staging : Staging) (table : Table) : Except Fault Table :=
  staging.additions.foldlM applyAddition (staging.changes.foldl applyChange table)

theorem complete_append_absent (absent : table.find? (.int record.id) = none)
    (valid : record.IsValid) (fresh : after.contains (.int record.id) = false)
    (written : (stagingOf table records).complete table = .ok after) :
    (stagingOf table (records ++ [record])).complete table =
      .ok (after.insert .integer record.newRow) := by
  rw [stagingOf_append_absent absent, Staging.complete, List.foldlM_append]
  refine bind_eq_ok.mpr ⟨after, written, ?_⟩
  rw [List.foldlM_cons, applyAddition_applyTo valid fresh]
  rfl

theorem complete_append_present (found : table.find? (.int record.id) = some row)
    (valid : ∀ record ∈ records, record.IsValid)
    (written : (stagingOf table records).complete table = .ok after) :
    (stagingOf table (records ++ [record])).complete table =
      .ok (after.modify row.key (rewritten (.ofRow row) (record.applyTo (.ofRow row)))) := by
  have others : ∀ other ∈ records.filter fun record => !table.contains (.int record.id),
      Value.int other.id ≠ row.key := by
    intro other listed same
    have absent := (List.mem_filter.mp listed).2
    have present : table.contains (.int other.id) = true :=
      contains_iff.mpr ⟨row, (mem_of_find? found).1, same.symm⟩
    rw [present] at absent
    exact absurd absent (by decide)
  rw [stagingOf_append_present found, Staging.complete, List.foldl_append]
  -- The change comes before all new rows, but it may as well come after them.
  exact foldlM_additions_modify (fun other listed => valid other (List.mem_filter.mp listed).1)
    others written

theorem complete_stagingOf (keyed : table.IsKeyed .integer) (labels : table.HasLabels)
    (valid : ∀ record ∈ records, record.IsValid) (distinct : (records.map ImportRecord.id).Nodup) :
    (stagingOf table records).complete table = .ok (upsert ImportRecord.merge table records) := by
  -- The last record is staged last and written last; the row that it finds in the table is still the
  -- same after the records before it, since none of them has its key.
  induction records using List.reverseRecOn with
  | nil => rfl
  | append_singleton before record ih =>
    rw [List.map_append, List.map_singleton, List.nodup_append_comm, List.singleton_append,
      List.nodup_cons] at distinct
    obtain ⟨fresh, distinct⟩ := distinct
    have validBefore : ∀ record ∈ before, record.IsValid := fun other member =>
      valid other (List.mem_append_left _ member)
    have validRecord : record.IsValid := valid record (by simp)
    have written := ih validBefore distinct
    obtain ⟨keyedAfter, agrees⟩ := upsert_keepsOthers keyed fun other member =>
      (validBefore other member).hasParent
    have outside : Value.int record.id ∉ (before.map ImportRecord.id).map Value.int := by
      intro listed
      obtain ⟨id, member, same⟩ := List.mem_map.mp listed
      exact fresh (Value.int.inj same ▸ member)
    rw [upsert_append_singleton]
    cases found : table.find? (.int record.id) with
    | none =>
      have absent : (upsert ImportRecord.merge table before).contains (.int record.id) = false := by
        refine contains_eq_false_iff.mpr fun row member rowKey => ?_
        have inside := (agrees.rows row (rowKey ▸ outside)).mp member
        exact find?_eq_none_iff.mp found row inside rowKey
      rw [complete_append_absent found validRecord absent written, upsertRecord,
        if_neg (by simp [absent])]
    | some row =>
      obtain ⟨member, rowKey⟩ := (find?_iff keyed).mp found
      have kept : row ∈ upsert ImportRecord.merge table before :=
        (agrees.rows row (rowKey ▸ outside)).mpr member
      rw [complete_append_present found validBefore written, upsertRecord,
        if_pos (contains_iff.mpr ⟨row, kept, rowKey⟩), rowKey]
      refine congrArg Except.ok (modify_congr fun other inside otherKey => ?_)
      obtain rfl := keyedAfter.eq_of_key inside kept (otherKey.trans rowKey.symm)
      exact rewritten_applyTo validRecord rowKey (keyed.parent _ member) (labels _ member)

theorem write_stagingOf (keyed : table.IsKeyed .integer) (labels : table.HasLabels)
    (valid : ∀ record ∈ records, record.IsValid) (distinct : (records.map ImportRecord.id).Nodup) :
    (stagingOf table records).write table = .ok (upsert ImportRecord.merge table records) := by
  have sorted := List.mergeSort_perm (stagingOf table records).changes
    fun a b => a.1.key.compareWith b.1.key != .gt
  unfold Staging.write
  have writable : ∀ record ∈ records, record.IsWritable := fun record listed =>
    (valid record listed).isWritable
  refine bind_eq_ok.mpr ⟨_, foldlM_changes keyed labels writable sorted, ?_⟩
  rw [foldl_changes_perm keyed distinct sorted]
  exact complete_stagingOf keyed labels valid distinct

end Service
end AdjacencyForest
