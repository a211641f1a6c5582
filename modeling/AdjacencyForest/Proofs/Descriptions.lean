import AdjacencyForest.Proofs.Batch
import AdjacencyForest.Proofs.Serving

/-!
# Nodes that a sheet describes

The records of one key describe a node in turn, from what the table holds of it on. What an import
leaves of the node can be shown iff what they describe can, whatever the cells of the sheet hold and
however often a key comes.

Main statements: `stages_of_stageRows`, the described nodes are what is staged;
`isPresentable_write_iff`, all rows can be shown after a write iff all nodes of its staging can;
`isPresentable_import_iff`, so it is with an import and the nodes that the sheet describes.
-/

namespace AdjacencyForest

/-- The node can be shown once it is stored: the store makes a text of its label, and its payload is
an object or null. -/
structure NodeFields.IsPresentable (node : NodeFields) : Prop where
  label : ∃ s, TreeModel.standard.columnValue .label node.label = .text s
  payload : Service.IsObjectOrNull node.payload

namespace Service

open Table TreeModel

/-- The node of a key as a table holds it; one that is not there has neither label nor payload. -/
def nodeOf (table : Table) (id : Int) : NodeFields :=
  match table.find? (.int id) with
  | some row => .ofRow row
  | none => {}

/-- The node that the records of a key describe, each written over what the ones before it left. -/
def described (table : Table) (records : List ImportRecord) (id : Int) : NodeFields :=
  (records.filter fun record => record.id == id).foldl (fun node record => record.applyTo node)
    (nodeOf table id)

/-- The records that a number of rows are read as; rows without a key have none. -/
def recordsUpTo (columns : ImportColumns) (count : Nat) : List ImportRecord :=
  (List.range count).filterMap fun index => (importRecord columns index).toOption.join

def recordsOf (sheet : Sheet) : List ImportRecord :=
  recordsUpTo (.ofTable (.ofSheet sheet)) (SheetTable.ofSheet sheet).rows.length

variable {settings : Settings} {table middle after : Table} {row : Row} {record : ImportRecord}
  {records : List ImportRecord} {staging result : Staging} {ids : List Int} {id : Int}
  {columns : ImportColumns} {count : Nat} {node : NodeFields} {key : Value} {sheet : Sheet}
  {changes : List (Row × NodeFields)} {change : Row × NodeFields}

theorem recordsUpTo_of_isReadAs (read : IsReadAs sheet records)
    (keys : ∀ record ∈ records, record.id ≠ 0) (rows : count ≤ records.length) :
    recordsUpTo (.ofTable (.ofSheet sheet)) count = records.take count := by
  induction count with
  | zero => rfl
  | succ count ih =>
    have found : records[count]? = some records[count] := List.getElem?_eq_getElem rows
    have before := ih (by omega)
    unfold recordsUpTo at before ⊢
    rw [List.range_succ, List.filterMap_append, before, List.take_succ_eq_append_getElem rows]
    simp [importRecord_eq_ok (read.rows count _ found) (keys _ (List.getElem_mem rows)),
      Except.toOption]

theorem recordsOf_eq (read : IsReadAs sheet records) (keys : ∀ record ∈ records, record.id ≠ 0) :
    recordsOf sheet = records := by
  rw [recordsOf, read.length_rows, recordsUpTo_of_isReadAs read keys (Nat.le_refl _),
    List.take_length]

theorem described_append_self : described table (records ++ [record]) record.id =
    record.applyTo (described table records record.id) := by
  simp [described, List.filter_append]

theorem described_append_of_ne (different : record.id ≠ id) :
    described table (records ++ [record]) id = described table records id := by
  simp [described, List.filter_append, different]

theorem described_of_fresh (fresh : ∀ record ∈ records, record.id ≠ id) :
    described table records id = nodeOf table id := by
  have none : (records.filter fun record => record.id == id) = [] :=
    List.filter_eq_nil_iff.mpr fun record member => by simpa using fresh record member
  rw [described, none, List.foldl_nil]

/-! ## What is staged -/

/-- The staging changes the rows of the records' keys to the described nodes, and adds a node for each
record whose key is not there. -/
structure Stages (table : Table) (records : List ImportRecord) (staging : Staging) : Prop where
  changes : ∀ change, change ∈ staging.changes ↔ ∃ record ∈ records,
    table.find? (.int record.id) = some change.1 ∧ change.2 = described table records record.id
  distinct : (staging.changes.map fun change => change.1.key).Nodup
  additions : staging.additions =
    (records.filter fun record => !table.contains (.int record.id)).map fun record =>
      record.applyTo {}

/-- The first change of a row is put last, a later one over the one that is there. -/
theorem mem_putChange_iff (distinct : (changes.map fun change => change.1.key).Nodup)
    (held : ∀ change ∈ changes, change.1.key = row.key → change = (row, node))
    (first : (∀ change ∈ changes, change.1.key ≠ row.key) → node = .ofRow row) :
    change ∈ putChange row record changes ↔
      (change ∈ changes ∧ change.1.key ≠ row.key) ∨ change = (row, record.applyTo node) := by
  -- The change is put at the first one of the row's key, and by `distinct` there is no other.
  induction changes with
  | nil => simp [putChange, first (by simp)]
  | cons head rest ih =>
    obtain ⟨fresh, distinct⟩ := List.nodup_cons.mp distinct
    rw [putChange]
    split
    next same =>
      obtain ⟨rfl, rfl⟩ := Prod.mk.inj (held head List.mem_cons_self same)
      have others : ∀ change ∈ rest, change.1.key ≠ head.1.key := fun change member same =>
        fresh (List.mem_map.mpr ⟨change, member, same⟩)
      simp only [List.mem_cons]
      constructor
      · rintro (rfl | later)
        · exact .inr rfl
        · exact .inl ⟨.inr later, others change later⟩
      · rintro (⟨rfl | later, different⟩ | rfl)
        · exact absurd rfl different
        · exact .inr later
        · exact .inl rfl
    next different =>
      have later := ih distinct (fun change member => held change (List.mem_cons_of_mem _ member))
        fun none => first (List.forall_mem_cons.mpr ⟨different, none⟩)
      rw [List.mem_cons, later, List.mem_cons]
      constructor
      · rintro (rfl | ⟨member, apart⟩ | new)
        · exact .inl ⟨.inl rfl, different⟩
        · exact .inl ⟨.inr member, apart⟩
        · exact .inr new
      · rintro (⟨rfl | member, apart⟩ | new)
        · exact .inl rfl
        · exact .inr (.inl ⟨member, apart⟩)
        · exact .inr (.inr new)

theorem mem_keys_putChange (member : key ∈ (putChange row record changes).map fun change => change.1.key) :
    key = row.key ∨ key ∈ changes.map fun change => change.1.key := by
  obtain ⟨change, found, rfl⟩ := List.mem_map.mp member
  rcases mem_putChange found with old | rfl | ⟨node, -, same, -⟩
  · exact .inr (List.mem_map.mpr ⟨change, old, rfl⟩)
  · exact .inl rfl
  · exact .inl same

theorem nodup_putChange (distinct : (changes.map fun change => change.1.key).Nodup) :
    ((putChange row record changes).map fun change => change.1.key).Nodup := by
  induction changes with
  | nil => simp [putChange]
  | cons head rest ih =>
    obtain ⟨fresh, later⟩ := List.nodup_cons.mp distinct
    rw [putChange]
    split
    next => exact List.nodup_cons.mpr ⟨fresh, later⟩
    next different =>
      refine List.nodup_cons.mpr ⟨fun again => ?_, ih later⟩
      rcases mem_keys_putChange again with same | old
      · exact different same
      · exact fresh old

theorem Stages.start (table : Table) : Stages table [] {} where
  changes := by simp
  distinct := by simp
  additions := rfl

/-- What the changes are after one more record: for its row there is one that puts the record over
what the earlier ones leave of the row, and the others stay. -/
theorem exists_change_append_iff {change : Row × NodeFields} :
    (∃ other ∈ records ++ [record], table.find? (.int other.id) = some change.1 ∧
        change.2 = described table (records ++ [record]) other.id) ↔
      ((∃ other ∈ records, table.find? (.int other.id) = some change.1 ∧
          change.2 = described table records other.id) ∧
        table.find? (.int record.id) ≠ some change.1) ∨
      (table.find? (.int record.id) = some change.1 ∧
        change.2 = record.applyTo (described table records record.id)) := by
  have apart {other : ImportRecord} (looked : table.find? (.int other.id) = some change.1)
      (absent : table.find? (.int record.id) ≠ some change.1) : record.id ≠ other.id :=
    fun same => absent (same ▸ looked)
  constructor
  · rintro ⟨other, member, looked, node⟩
    by_cases here : table.find? (.int record.id) = some change.1
    · have same : other.id = record.id :=
        Value.int.inj ((mem_of_find? looked).2.symm.trans (mem_of_find? here).2)
      rw [same, described_append_self] at node
      exact .inr ⟨here, node⟩
    · rw [described_append_of_ne (apart looked here)] at node
      refine .inl ⟨⟨other, ?_, looked, node⟩, here⟩
      rcases List.mem_append.mp member with old | new
      · exact old
      · obtain rfl := List.mem_singleton.mp new
        exact absurd looked here
  · rintro (⟨⟨other, member, looked, node⟩, absent⟩ | ⟨here, node⟩)
    · refine ⟨other, List.mem_append_left _ member, looked, ?_⟩
      rw [node, described_append_of_ne (apart looked absent)]
    · exact ⟨record, by simp, here, by rw [node, described_append_self]⟩

/-- A record of a row that is there is put over what the earlier ones leave of the row. -/
theorem Stages.mem_putChange_iff (stages : Stages table records staging)
    (found : table.find? (.int record.id) = some row) {change : Row × NodeFields} :
    change ∈ putChange row record staging.changes ↔
      (change ∈ staging.changes ∧ change.1.key ≠ row.key) ∨
        change = (row, record.applyTo (described table records record.id)) := by
  refine Service.mem_putChange_iff stages.distinct (fun change member same => ?_) fun fresh => ?_
  · obtain ⟨other, -, looked, node⟩ := (stages.changes change).mp member
    rw [(mem_of_find? looked).2, (mem_of_find? found).2] at same
    rw [Value.int.inj same] at looked node
    exact Prod.ext (Option.some.inj (looked.symm.trans found)) node
  · have node : nodeOf table record.id = .ofRow row := by rw [nodeOf, found]
    rw [← node]
    refine described_of_fresh fun other member same => ?_
    refine fresh (row, described table records other.id) ?_ rfl
    exact (stages.changes _).mpr ⟨other, member, same ▸ found, rfl⟩

theorem Stages.add (stages : Stages table records staging)
    (added : staging.add table record = .ok result) : Stages table (records ++ [record]) result := by
  obtain ⟨found, looked, added⟩ := bind_eq_ok.mp added
  obtain ⟨-, found⟩ := rowOf?_eq_ok.mp looked
  split at added
  next row =>
    obtain rfl := pure_eq_ok.mp added
    refine ⟨fun change => ?_, nodup_putChange stages.distinct, ?_⟩
    · -- Rows that are looked up by their keys are the same if the keys are.
      have own : change ∈ staging.changes → (change.1.key ≠ row.key ↔ some row ≠ some change.1) := by
        intro member
        obtain ⟨other, -, looked, -⟩ := (stages.changes change).mp member
        rw [← (mem_of_find? looked).2] at looked
        rw [← (mem_of_find? found).2] at found
        exact not_congr ⟨fun same => by rw [← found, ← looked, same],
          fun same => by rw [Option.some.inj same]⟩
      rw [exists_change_append_iff, stages.mem_putChange_iff found, ← stages.changes, found]
      refine or_congr (and_congr_right own) ?_
      rw [Prod.ext_iff, Option.some.injEq, eq_comm (a := row)]
    · have present := contains_of_find? found
      rw [List.filter_append, List.filter_singleton, present, stages.additions]
      simp
  next =>
    obtain rfl := pure_eq_ok.mp added
    have absent : table.contains (.int record.id) = false := find?_eq_none_iff_contains.mp found
    refine ⟨fun change => ?_, stages.distinct, ?_⟩
    · rw [exists_change_append_iff, ← stages.changes, found]
      simp
    · rw [List.filter_append, List.filter_singleton, absent, stages.additions]
      simp

theorem stages_of_stageRows (staged : stageRows table columns count = .ok (staging, ids)) :
    Stages table (recordsUpTo columns count) staging := by
  induction count generalizing staging ids with
  | zero =>
    obtain ⟨rfl, -⟩ := Prod.mk.inj (pure_eq_ok.mp staged)
    exact Stages.start table
  | succ count ih =>
    unfold stageRows at staged
    rw [List.range_succ, List.foldlM_append] at staged
    obtain ⟨⟨before, earlier⟩, done, last⟩ := bind_eq_ok.mp staged
    have stages := ih done
    rw [List.foldlM_cons] at last
    obtain ⟨⟨after, later⟩, step, last⟩ := bind_eq_ok.mp last
    obtain ⟨rfl, -⟩ := Prod.mk.inj (pure_eq_ok.mp last)
    obtain ⟨found, read, step⟩ := bind_eq_ok.mp step
    rw [recordsUpTo, List.range_succ, List.filterMap_append, ← recordsUpTo]
    split at step
    · obtain ⟨rfl, -⟩ := Prod.mk.inj (pure_eq_ok.mp step)
      simpa [read, Except.toOption] using stages
    next record =>
      obtain ⟨result, added, step⟩ := bind_eq_ok.mp step
      obtain ⟨rfl, -⟩ := Prod.mk.inj (pure_eq_ok.mp step)
      simpa [read, Except.toOption] using stages.add (mapError_eq_ok.mp added)

/-! ## What a written node shows -/

theorem isObjectOrNull_storedPayload {payload : Json} :
    IsObjectOrNull (storedPayload payload) ↔ IsObjectOrNull payload := by
  unfold storedPayload IsObjectOrNull
  split
  · split <;> simp
  · split <;> simp
  · rfl

theorem eq_str_of_alike {s : String} {given : Json} (alike : (Json.str s).alike given = true) :
    given = .str s := by
  cases given <;> simp_all [Json.alike, Json.alikeScalar, Json.integral?]

theorem isPresentable_rowOf_iff (admitted : KeyKind.integer.Admits key) (typed : node.HasParent)
    (bare : node.hasPayload = false → node.payload = .null) :
    IsPresentable (standard.rowOf key node) ↔ node.IsPresentable := by
  have payload : IsObjectOrNull ((standard.rowOf key node).payload.getD .null) ↔
      IsObjectOrNull node.payload := by
    cases given : node.hasPayload with
    | true => simpa [rowOf, given] using isObjectOrNull_storedPayload
    | false => simp [rowOf, given, bare given]
  exact ⟨fun shown => ⟨shown.label, payload.mp shown.payload⟩, fun shown =>
    ⟨admitted, admits_columnValue_parent typed, shown.label, payload.mpr shown.payload⟩⟩

theorem isPresentable_rewritten_iff (shown : IsPresentable row) (typed : node.HasParent)
    (sameKey : (NodeFields.ofRow row).key.alike node.key = true) :
    IsPresentable { rewritten (.ofRow row) node row with key := row.key } ↔ node.IsPresentable := by
  have parent := admits_rewritten sameKey typed shown.parent
  rw [rewritten_eq sameKey] at parent ⊢
  obtain ⟨s, text⟩ := shown.label
  have label : (∃ s, (if (NodeFields.ofRow row).label.alike node.label then row.label
      else standard.columnValue .label node.label) = .text s) ↔
        ∃ s, standard.columnValue .label node.label = .text s := by
    split
    next alike =>
      have same : (Json.str s).alike node.label = true := by
        rwa [NodeFields.ofRow, text, Value.toJson] at alike
      rw [eq_str_of_alike same, columnValue_label, text]
    next => rfl
  have payload : IsObjectOrNull ((if (NodeFields.ofRow row).payload.alike node.payload
      then row.payload else some (storedPayload node.payload)).getD .null) ↔
        IsObjectOrNull node.payload := by
    split
    next alike => exact isObjectOrNull_congr alike
    next => exact isObjectOrNull_storedPayload
  exact ⟨fun after => ⟨label.mp after.label, payload.mp after.payload⟩, fun after =>
    ⟨shown.key, parent, label.mpr after.label, payload.mpr after.payload⟩⟩

/-! ## What is written -/

theorem mem_foldl_applyChange (keyed : table.IsKeyed .integer)
    (inside : ∀ change ∈ changes, change.1 ∈ table)
    (distinct : (changes.map fun change => change.1.key).Nodup) :
    row ∈ changes.foldl applyChange table ↔
      (row ∈ table ∧ ∀ change ∈ changes, change.1.key ≠ row.key) ∨
        ∃ change ∈ changes,
          row = { rewritten (.ofRow change.1) change.2 change.1 with key := change.1.key } := by
  -- The last change finds its row as it was at first, since no earlier one has its key.
  induction changes using List.reverseRecOn generalizing row with
  | nil => simp
  | append_singleton before last ih =>
    rw [List.map_append, List.nodup_append] at distinct
    have apart : ∀ change ∈ before, change.1.key ≠ last.1.key := fun change member =>
      distinct.2.2 _ (List.mem_map.mpr ⟨change, member, rfl⟩) _ (by simp)
    have earlier (row : Row) := @ih row (fun change member =>
      inside change (List.mem_append_left _ member)) distinct.1
    have own : ∀ old, (old ∈ before.foldl applyChange table ∧ old.key = last.1.key) ↔
        old = last.1 := by
      intro old
      rw [earlier]
      constructor
      · rintro ⟨⟨member, -⟩ | ⟨change, member, rfl⟩, same⟩
        · exact keyed.eq_of_key member (inside last (by simp)) same
        · exact absurd same (apart change member)
      · rintro rfl
        exact ⟨.inl ⟨inside last (by simp), apart⟩, rfl⟩
    rw [List.foldl_append, List.foldl_cons, List.foldl_nil]
    refine mem_modify.trans ?_
    have changed : (∃ old ∈ before.foldl applyChange table, old.key = last.1.key ∧
        row = { rewritten (.ofRow last.1) last.2 old with key := old.key }) ↔
          row = { rewritten (.ofRow last.1) last.2 last.1 with key := last.1.key } := by
      simp only [← and_assoc, own, exists_eq_left]
    rw [changed, earlier]
    simp only [List.mem_append, List.mem_singleton]
    constructor
    · rintro (⟨⟨member, others⟩ | ⟨change, member, made⟩, different⟩ | made)
      · refine .inl ⟨member, ?_⟩
        rintro change (found | rfl)
        · exact others change found
        · exact different.symm
      · exact .inr ⟨change, .inl member, made⟩
      · exact .inr ⟨last, .inr rfl, made⟩
    · rintro (⟨member, others⟩ | ⟨change, member | rfl, rfl⟩)
      · exact .inl ⟨.inl ⟨member, fun change found => others change (.inl found)⟩,
          (others last (.inr rfl)).symm⟩
      · exact .inl ⟨.inr ⟨change, member, rfl⟩, apart change member⟩
      · exact .inr rfl

theorem foldlM_updateNode_eq_ok
    (sameKeys : ∀ change ∈ changes, (NodeFields.ofRow change.1).key.alike change.2.key = true)
    (done : changes.foldlM (fun table change => do
      return (← standard.updateNode table change.1.key (.ofRow change.1) change.2).1) table =
        .ok middle) : middle = changes.foldl applyChange table := by
  induction changes generalizing table with
  | nil => exact (pure_eq_ok.mp done).symm
  | cons first rest ih =>
    rw [List.foldlM_cons] at done
    obtain ⟨next, step, later⟩ := bind_eq_ok.mp done
    obtain ⟨⟨written, key⟩, updated, step⟩ := bind_eq_ok.mp step
    obtain rfl := pure_eq_ok.mp step
    obtain ⟨-, -, rfl⟩ := (updateNode_eq_ok (sameKeys first List.mem_cons_self)).mp updated
    exact ih (fun change member => sameKeys change (List.mem_cons_of_mem _ member)) later

theorem isPresentable_foldl_applyChange_iff (keyed : table.IsKeyed .integer)
    (presentable : ∀ row ∈ table, IsPresentable row) (inside : ∀ change ∈ changes, change.1 ∈ table)
    (distinct : (changes.map fun change => change.1.key).Nodup)
    (typed : ∀ change ∈ changes, change.2.HasParent)
    (sameKeys : ∀ change ∈ changes, (NodeFields.ofRow change.1).key.alike change.2.key = true) :
    (∀ row ∈ changes.foldl applyChange table, IsPresentable row) ↔
      ∀ change ∈ changes, change.2.IsPresentable := by
  have rewrites (change : Row × NodeFields) (member : change ∈ changes) :=
    isPresentable_rewritten_iff (presentable change.1 (inside change member)) (typed change member)
      (sameKeys change member)
  constructor
  · exact fun shown change member => (rewrites change member).mp
      (shown _ ((mem_foldl_applyChange keyed inside distinct).mpr (.inr ⟨change, member, rfl⟩)))
  · intro shown row member
    rcases (mem_foldl_applyChange keyed inside distinct).mp member with ⟨old, -⟩ | ⟨change, found, rfl⟩
    · exact presentable row old
    · exact (rewrites change found).mpr (shown change found)

theorem isPresentable_foldlM_applyAddition_iff {nodes : List NodeFields}
    (typed : ∀ node ∈ nodes, node.HasParent)
    (bare : ∀ node ∈ nodes, node.hasPayload = false → node.payload = .null)
    (done : nodes.foldlM applyAddition middle = .ok after) :
    (∀ row ∈ after, IsPresentable row) ↔
      (∀ row ∈ middle, IsPresentable row) ∧ ∀ node ∈ nodes, node.IsPresentable := by
  induction nodes generalizing middle with
  | nil =>
    obtain rfl := pure_eq_ok.mp done
    simp
  | cons node rest ih =>
    rw [List.foldlM_cons] at done
    obtain ⟨next, step, later⟩ := bind_eq_ok.mp done
    obtain ⟨⟨written, key⟩, inserted, step⟩ := bind_eq_ok.mp step
    obtain rfl := pure_eq_ok.mp step
    obtain ⟨-, made, -, rfl⟩ := insertNode_eq_ok.mp inserted
    have added := isPresentable_rowOf_iff (admits_newKey made) (typed node List.mem_cons_self)
      (bare node List.mem_cons_self)
    rw [ih (fun node member => typed node (List.mem_cons_of_mem _ member))
      (fun node member => bare node (List.mem_cons_of_mem _ member)) later]
    simp only [mem_insert, forall_eq_or_imp, added, List.mem_cons]
    tauto

/-- New nodes can only be written if no key comes twice. -/
theorem nodup_of_foldlM_applyAddition
    (done : (records.map fun record => record.applyTo {}).foldlM applyAddition middle = .ok after) :
    (records.map ImportRecord.id).Nodup ∧
      ∀ record ∈ records, middle.contains (.int record.id) = false := by
  induction records generalizing middle with
  | nil => simp
  | cons record rest ih =>
    rw [List.map_cons, List.foldlM_cons] at done
    obtain ⟨next, step, later⟩ := bind_eq_ok.mp done
    obtain ⟨⟨written, key⟩, inserted, step⟩ := bind_eq_ok.mp step
    obtain rfl := pure_eq_ok.mp step
    obtain rfl := key_insertNode (record.key_applyTo {}) inserted
    obtain ⟨-, -, fresh, rfl⟩ := insertNode_eq_ok.mp inserted
    dsimp only at later
    obtain ⟨distinct, absent⟩ := ih later
    have apart (other : ImportRecord) (member : other ∈ rest) :
        other.id ≠ record.id ∧ middle.contains (.int other.id) = false := by
      have missing := contains_eq_false_iff.mp (absent other member)
      refine ⟨fun same => ?_, contains_eq_false_iff.mpr fun row found =>
        missing row (mem_insert.mpr (.inr found))⟩
      exact missing _ (mem_insert.mpr (.inl rfl)) (congrArg Value.int same.symm)
    refine ⟨List.nodup_cons.mpr ⟨fun again => ?_, distinct⟩, ?_⟩
    · obtain ⟨other, member, same⟩ := List.mem_map.mp again
      exact (apart other member).1 same
    · exact List.forall_mem_cons.mpr ⟨fresh, fun other member => (apart other member).2⟩

theorem filter_id_of_nodup (distinct : (records.map ImportRecord.id).Nodup)
    (member : record ∈ records) : (records.filter fun other => other.id == record.id) = [record] := by
  induction records with
  | nil => cases member
  | cons first rest ih =>
    obtain ⟨fresh, distinct⟩ := List.nodup_cons.mp distinct
    rcases List.mem_cons.mp member with rfl | later
    · rw [List.filter_cons_of_pos (by simp), List.filter_eq_nil_iff.mpr]
      intro other found same
      exact fresh (List.mem_map.mpr ⟨other, found, by simpa using same⟩)
    · rw [List.filter_cons_of_neg, ih distinct later]
      intro same
      have same : first.id = record.id := by simpa using same
      exact fresh (List.mem_map.mpr ⟨record, later, same.symm⟩)

/-- What the record of a new key describes is the node that is added for it. -/
theorem described_of_absent
    (distinct : ((records.filter fun record => !table.contains (.int record.id)).map
      ImportRecord.id).Nodup)
    (member : record ∈ records) (absent : table.contains (.int record.id) = false) :
    described table records record.id = record.applyTo {} := by
  have chosen : (records.filter fun other => other.id == record.id) =
      (records.filter fun other => !table.contains (.int other.id)).filter
        fun other => other.id == record.id := by
    rw [List.filter_filter]
    refine List.filter_congr fun other _ => ?_
    by_cases same : other.id = record.id
    · simp [same, absent]
    · simp [same]
  have none : table.find? (.int record.id) = none := find?_eq_none_iff_contains.mpr absent
  rw [described, chosen, filter_id_of_nodup distinct
    (List.mem_filter.mpr ⟨member, by simpa using absent⟩), nodeOf, none]
  rfl

/-- What is staged shows nodes when each record describes one. -/
theorem Stages.isPresentable_iff (stages : Stages table records staging)
    (distinct : ((records.filter fun record => !table.contains (.int record.id)).map
      ImportRecord.id).Nodup) :
    ((∀ change ∈ staging.changes, change.2.IsPresentable) ∧
        ∀ node ∈ staging.additions, node.IsPresentable) ↔
      ∀ record ∈ records, (described table records record.id).IsPresentable := by
  rw [stages.additions]
  constructor
  · rintro ⟨changedShown, addedShown⟩ record member
    cases found : table.find? (.int record.id) with
    | some row =>
      exact changedShown (row, described table records record.id)
        ((stages.changes _).mpr ⟨record, member, found, rfl⟩)
    | none =>
      have absent : table.contains (.int record.id) = false := find?_eq_none_iff_contains.mp found
      rw [described_of_absent distinct member absent]
      exact addedShown _ (List.mem_map.mpr
        ⟨record, List.mem_filter.mpr ⟨member, by simpa using absent⟩, rfl⟩)
  · refine fun shown => ⟨fun change member => ?_, fun node member => ?_⟩
    · obtain ⟨record, listed, -, same⟩ := (stages.changes change).mp member
      exact same ▸ shown record listed
    · obtain ⟨record, listed, rfl⟩ := List.mem_map.mp member
      obtain ⟨listed, absent⟩ := List.mem_filter.mp listed
      rw [← described_of_absent distinct listed (by simpa using absent)]
      exact shown record listed

theorem isPresentable_write_iff (keyed : table.IsKeyed .integer)
    (presentable : ∀ row ∈ table, IsPresentable row) (covers : staging.Covers table ids)
    (stages : Stages table records staging) (written : staging.write table = .ok after) :
    (∀ row ∈ after, IsPresentable row) ↔
      ∀ record ∈ records, (described table records record.id).IsPresentable := by
  obtain ⟨middle, rewrites, inserts⟩ := bind_eq_ok.mp written
  have sorted := List.mergeSort_perm staging.changes fun a b => a.1.key.compareWith b.1.key != .gt
  have sameKeys : ∀ change ∈ staging.changes.mergeSort fun a b => a.1.key.compareWith b.1.key != .gt,
      (NodeFields.ofRow change.1).key.alike change.2.key = true := fun change member =>
    covers.sameKey (sorted.subset member)
  obtain rfl := foldlM_updateNode_eq_ok sameKeys rewrites
  have changed := isPresentable_foldl_applyChange_iff keyed presentable
    (fun change member => (covers.rows change (sorted.subset member)).1)
    ((sorted.map fun change => change.1.key).nodup_iff.mpr stages.distinct)
    (fun change member => (covers.rows change (sorted.subset member)).2.1) sameKeys
  have inserts : staging.additions.foldlM applyAddition _ = .ok after := inserts
  have bare : ∀ node ∈ staging.additions, node.hasPayload = false → node.payload = .null := by
    rw [stages.additions]
    intro node member
    obtain ⟨record, -, rfl⟩ := List.mem_map.mp member
    rw [record.hasPayload_applyTo, record.payload_applyTo]
    cases record.payload <;> simp
  rw [isPresentable_foldlM_applyAddition_iff (fun node member => (covers.nodes node member).1) bare
    inserts, changed, ← stages.isPresentable_iff]
  · simp only [sorted.mem_iff]
  · rw [stages.additions] at inserts
    exact (nodup_of_foldlM_applyAddition inserts).1

theorem isPresentable_import_iff (keyed : table.IsKeyed .integer)
    (presentable : ∀ row ∈ table, IsPresentable row)
    (imported : importSheet settings table sheet = .ok (after, count)) :
    (∀ row ∈ after, IsPresentable row) ↔
      ∀ record ∈ recordsOf sheet, (described table (recordsOf sheet) record.id).IsPresentable := by
  obtain ⟨staging, ids, staged, written, -⟩ := importSheet_eq_ok_iff.mp imported
  exact isPresentable_write_iff keyed presentable (stageRows_covers keyed staged)
    (stages_of_stageRows staged) written

end Service
end AdjacencyForest
