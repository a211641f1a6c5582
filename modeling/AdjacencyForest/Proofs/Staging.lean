import AdjacencyForest.Proofs.Editing
import AdjacencyForest.Service.Import

/-!
# Staged imports

An import that succeeds changes and adds rows of the imported keys only, and each imported node then
has its parent in the table and is on no cycle. This holds of any sheet, whatever its rows are read
as and however often a key comes.

Main statements: `stageRows_covers`, what is staged; `write_keeps`, what writing it keeps; and
`importSheet_keeps`, which puts them together with the checks at the end.
-/

open Relation

namespace AdjacencyForest.Service

variable {settings : Settings} {table after : Table} {row : Row} {record : ImportRecord} {id : Int}
  {staging : Staging} {ids : List Int} {columns : ImportColumns} {count index : Nat}

/-- The parent of the record, if the sheet has the column, is one that the store can hold. -/
def ImportRecord.HasParent (record : ImportRecord) : Prop :=
  ∀ parent, record.parent = some parent → parent = .null ∨ ∃ i, parent = .int i

theorem importParent_eq_ok {value parent : Json} (read : importParent value = .ok parent) :
    parent = .null ∨ ∃ i, parent = .int i := by
  unfold importParent at read
  split at read
  · cases read
    exact .inl rfl
  · obtain ⟨i, -, rfl⟩ := map_eq_ok.mp read
    exact .inr ⟨i, rfl⟩

theorem convertOption_eq_ok {convert : Json → Except ImportRefusal Json} {value : Option Json}
    {converted : Json} (read : convertOption convert value = .ok (some converted)) :
    ∃ given, value = some given ∧ convert given = .ok converted := by
  cases value with
  | none => simp [convertOption] at read
  | some given =>
    obtain ⟨result, done, same⟩ := map_eq_ok.mp read
    obtain rfl := Option.some.inj same
    exact ⟨given, rfl, done⟩

theorem hasParent_of_importRecord
    (read : importRecord columns index = .ok (some record)) : record.HasParent := by
  unfold importRecord at read
  dsimp only at read
  split at read
  · exact absurd (pure_eq_ok.mp read) (by simp)
  · obtain ⟨id, -, read⟩ := bind_eq_ok.mp read
    obtain ⟨parent, parentRead, read⟩ := bind_eq_ok.mp read
    obtain ⟨payload, -, read⟩ := bind_eq_ok.mp read
    obtain rfl := Option.some.inj (pure_eq_ok.mp read)
    intro given same
    dsimp only at same
    subst same
    obtain ⟨value, -, converted⟩ := convertOption_eq_ok parentRead
    exact importParent_eq_ok converted

theorem ImportRecord.key_applyTo (record : ImportRecord) (node : NodeFields) :
    (record.applyTo node).key = .int record.id := by
  unfold applyTo
  cases record.label <;> cases record.parent <;> cases record.payload <;> rfl

theorem ImportRecord.parent_applyTo (record : ImportRecord) (node : NodeFields) :
    (record.applyTo node).parent = record.parent.getD node.parent := by
  unfold applyTo
  cases record.label <;> cases record.parent <;> cases record.payload <;> rfl

theorem ImportRecord.HasParent.applyTo {node : NodeFields} (typed : record.HasParent)
    (old : node.HasParent) : (record.applyTo node).HasParent := by
  unfold NodeFields.HasParent
  rw [parent_applyTo]
  cases given : record.parent with
  | none => exact old
  | some parent => exact typed parent given

theorem NodeFields.hasParent_ofRow (parent : row.parent = .null ∨ KeyKind.integer.Admits row.parent) :
    (NodeFields.ofRow row).HasParent := by
  rcases parent with null | admitted
  · exact .inl (congrArg Value.toJson null)
  · obtain ⟨i, same⟩ := KeyKind.admits_integer_iff.mp admitted
    exact .inr ⟨i, congrArg Value.toJson same⟩

/-! ## What is staged -/

/-- The staging holds changes of rows of a table and new nodes, all of them under imported keys. -/
structure Staging.Covers (staging : Staging) (table : Table) (ids : List Int) : Prop where
  rows : ∀ change ∈ staging.changes, change.1 ∈ table ∧ change.2.HasParent ∧
    ∃ id ∈ ids, change.1.key = .int id ∧ change.2.key = .int id
  nodes : ∀ node ∈ staging.additions, node.HasParent ∧ ∃ id ∈ ids, node.key = .int id

/-- A change leaves the key of its row. -/
theorem Staging.Covers.sameKey (covers : staging.Covers table ids) {change : Row × NodeFields}
    (member : change ∈ staging.changes) :
    (NodeFields.ofRow change.1).key.alike change.2.key = true := by
  obtain ⟨-, -, id, -, rowKey, nodeKey⟩ := covers.rows change member
  simp [NodeFields.ofRow, rowKey, nodeKey, Value.toJson, TreeModel.alike_int]

theorem mem_putChange {changes : List (Row × NodeFields)} {change : Row × NodeFields}
    (member : change ∈ putChange row record changes) :
    change ∈ changes ∨ change = (row, record.applyTo (.ofRow row)) ∨
      ∃ node, (change.1, node) ∈ changes ∧ change.1.key = row.key ∧
        change.2 = record.applyTo node := by
  induction changes with
  | nil => exact .inr (.inl (List.mem_singleton.mp member))
  | cons first rest ih =>
    obtain ⟨other, node⟩ := first
    unfold putChange at member
    split at member
    next same =>
      rcases List.mem_cons.mp member with rfl | later
      · exact .inr (.inr ⟨node, List.mem_cons_self, same, rfl⟩)
      · exact .inl (List.mem_cons_of_mem _ later)
    next =>
      rcases List.mem_cons.mp member with rfl | later
      · exact .inl List.mem_cons_self
      · rcases ih later with old | new | ⟨earlier, found, same, changed⟩
        · exact .inl (List.mem_cons_of_mem _ old)
        · exact .inr (.inl new)
        · exact .inr (.inr ⟨earlier, List.mem_cons_of_mem _ found, same, changed⟩)

theorem Staging.Covers.add {result : Staging} (keyed : table.IsKeyed .integer)
    (covers : staging.Covers table ids) (typed : record.HasParent)
    (added : staging.add table record = .ok result) : result.Covers table (ids ++ [record.id]) := by
  unfold Staging.add at added
  obtain ⟨found, looked, added⟩ := bind_eq_ok.mp added
  obtain ⟨-, found⟩ := rowOf?_eq_ok.mp looked
  have own : record.id ∈ ids ++ [record.id] := by simp
  split at added
  next row =>
    obtain rfl := pure_eq_ok.mp added
    obtain ⟨member, rowKey⟩ := (Table.find?_iff keyed).mp found
    refine ⟨fun change staged => ?_, fun node staged => ?_⟩
    · rcases mem_putChange staged with old | rfl | ⟨node, old, same, changed⟩
      · obtain ⟨inside, parent, id, imported, keys⟩ := covers.rows change old
        exact ⟨inside, parent, id, List.mem_append_left _ imported, keys⟩
      · exact ⟨member, typed.applyTo (NodeFields.hasParent_ofRow (keyed.parent row member)),
          record.id, own, rowKey, record.key_applyTo _⟩
      · obtain ⟨inside, parent, -⟩ := covers.rows (change.1, node) old
        refine ⟨inside, changed ▸ typed.applyTo parent, record.id, own, same.trans rowKey, ?_⟩
        rw [changed]
        exact record.key_applyTo node
    · obtain ⟨parent, id, imported, key⟩ := covers.nodes node staged
      exact ⟨parent, id, List.mem_append_left _ imported, key⟩
  next =>
    obtain rfl := pure_eq_ok.mp added
    refine ⟨fun change staged => ?_, fun node staged => ?_⟩
    · obtain ⟨inside, parent, id, imported, keys⟩ := covers.rows change staged
      exact ⟨inside, parent, id, List.mem_append_left _ imported, keys⟩
    · rcases List.mem_append.mp staged with old | new
      · obtain ⟨parent, id, imported, key⟩ := covers.nodes node old
        exact ⟨parent, id, List.mem_append_left _ imported, key⟩
      · obtain rfl := List.mem_singleton.mp new
        exact ⟨typed.applyTo (.inl rfl), record.id, own, record.key_applyTo _⟩

theorem stageRows_covers (keyed : table.IsKeyed .integer)
    (staged : stageRows table columns count = .ok (staging, ids)) : staging.Covers table ids := by
  unfold stageRows at staged
  refine foldlM_keeps (fun state : Staging × List Int => state.1.Covers table state.2)
    ⟨by simp, by simp⟩ (fun index _ before after covers step => ?_) staged
  obtain ⟨found, read, step⟩ := bind_eq_ok.mp step
  split at step
  · obtain rfl := pure_eq_ok.mp step
    exact covers
  next record =>
    obtain ⟨result, added, step⟩ := bind_eq_ok.mp step
    obtain rfl := pure_eq_ok.mp step
    exact covers.add keyed (hasParent_of_importRecord read) (mapError_eq_ok.mp added)

/-! ## What is written -/

theorem key_insertNode {node : NodeFields} {key : Value} (given : node.key = .int id)
    (inserted : TreeModel.standard.insertNode table node = .ok (after, key)) : key = .int id := by
  obtain ⟨accepted, made, -, -⟩ := TreeModel.insertNode_eq_ok.mp inserted
  have written : Column.key ∈ TreeModel.standard.insertedColumns node :=
    List.mem_filter.mpr ⟨by decide, by simp [given]⟩
  have bound := TreeModel.ofParameter_of_accepted accepted written (by decide)
  rw [NodeFields.value, given] at bound
  have known : TreeModel.standard.newKey table node = .ok (.int id) :=
    TreeModel.newKey_of_int given (TreeModel.fits_of_ofParameter bound)
  exact (Except.ok.inj (known.symm.trans made)).symm

/-- The table has keys, and only rows of imported keys are new or different. -/
def KeepsOthers (table : Table) (ids : List Int) (after : Table) : Prop :=
  after.IsKeyed .integer ∧ table.AgreesOutside (ids.map Value.int) after

theorem write_keeps (keyed : table.IsKeyed .integer) (covers : staging.Covers table ids)
    (written : staging.write table = .ok after) : KeepsOthers table ids after := by
  unfold Staging.write at written
  obtain ⟨changed, rewrites, inserts⟩ := bind_eq_ok.mp written
  have start : KeepsOthers table ids table := ⟨keyed, .refl _ _⟩
  have middle : KeepsOthers table ids changed := by
    refine foldlM_keeps (KeepsOthers table ids) start (fun change staged before after kept step => ?_) rewrites
    obtain ⟨⟨result, key⟩, updated, step⟩ := bind_eq_ok.mp step
    obtain rfl := pure_eq_ok.mp step
    obtain ⟨-, typed, id, imported, rowKey, -⟩ :=
      covers.rows change (List.mem_mergeSort.mp staged)
    have sameKey := covers.sameKey (List.mem_mergeSort.mp staged)
    obtain ⟨-, -, rfl⟩ := (TreeModel.updateNode_eq_ok sameKey).mp updated
    have agrees := Table.agreesOutside_modify change.1.key
      (TreeModel.rewritten (.ofRow change.1) change.2) before
    refine ⟨kept.1.modify fun row member _ =>
      TreeModel.admits_rewritten sameKey typed (kept.1.parent row member),
      kept.2.trans (agrees.mono fun key inside => ?_)⟩
    rw [List.mem_singleton.mp inside, rowKey]
    exact List.mem_map_of_mem imported
  refine foldlM_keeps (KeepsOthers table ids) middle (fun node staged before after kept step => ?_) inserts
  obtain ⟨⟨result, key⟩, inserted, step⟩ := bind_eq_ok.mp step
  obtain rfl := pure_eq_ok.mp step
  obtain ⟨typed, id, imported, nodeKey⟩ := covers.nodes node staged
  refine ⟨TreeModel.isKeyed_insertNode kept.1 typed inserted,
    kept.2.trans ((TreeModel.agreesOutside_insertNode inserted).mono fun other inside => ?_)⟩
  rw [List.mem_singleton.mp inside, key_insertNode nodeKey inserted]
  exact List.mem_map_of_mem imported

/-! ## What is checked -/

theorem isNull_iff {value : Value} : value.isNull = true ↔ value = .null := by
  cases value <;> simp [Value.isNull]

theorem checkPlacement_eq_ok : checkPlacement settings table id = .ok () ↔
    ∀ row, table.find? (.int id) = some row → row.parent = .null ∨
      (table.contains row.parent = true ∧
        isAtOrBelow settings table row row.parent = .ok false) := by
  unfold checkPlacement
  cases found : table.find? (.int id) with
  | none => simp [pure_eq_ok]
  | some row =>
    simp only [Option.some.injEq, forall_eq']
    by_cases root : row.parent = .null
    · simp [root, Value.isNull, pure_eq_ok]
    · rw [if_neg (by simpa [isNull_iff] using root)]
      simp only [root, false_or]
      by_cases present : table.contains row.parent = true
      · simp only [present, Bool.not_true, Bool.false_eq_true, if_false, true_and]
        rw [bind_eq_ok]
        constructor
        · rintro ⟨below, answered, done⟩
          cases below with
          | false => exact mapError_eq_ok.mp answered
          | true => exact absurd done throw_ne_ok
        · exact fun answered => ⟨false, mapError_eq_ok.mpr answered, rfl⟩
      · rw [if_pos (by simpa using present)]
        simp only [present, Bool.false_eq_true, false_and, iff_false]
        exact fun done => by
          obtain ⟨_, refused, -⟩ := bind_eq_ok.mp done
          exact throw_ne_ok refused

/-- The row may stay where it is: it is a root, or its parent is there and it is on no cycle. -/
def IsPlaced (table : Table) (row : Row) : Prop :=
  row.parent = .null ∨ (table.contains row.parent = true ∧ ¬ table.OnCycle row)

theorem isPlaced_of_checkPlacement (keyed : table.IsKeyed .integer)
    (checked : checkPlacement settings table id = .ok ()) (member : row ∈ table)
    (key : row.key = .int id) : IsPlaced table row := by
  have found := (Table.find?_iff keyed).mpr ⟨member, key⟩
  refine (checkPlacement_eq_ok.mp checked row found).imp_right fun ⟨present, answered⟩ => ?_
  refine ⟨present, fun around => ?_⟩
  have below := (Table.onCycle_iff_below member).mp around
  exact Bool.false_ne_true ((isAtOrBelow_iff keyed member answered).mpr below)

/-- An import is accepted if its rows are staged, what is staged is written, and each written node is
placed in the table that comes of it. -/
theorem importSheet_eq_ok_iff {sheet : Sheet} :
    importSheet settings table sheet = .ok (after, count) ↔ ∃ staging ids,
      stageRows table (.ofTable (.ofSheet sheet)) (SheetTable.ofSheet sheet).rows.length =
        .ok (staging, ids) ∧
      staging.write table = .ok after ∧ ids.forM (checkPlacement settings after) = .ok () ∧
      (SheetTable.ofSheet sheet).rows.length = count := by
  unfold importSheet
  constructor
  · intro imported
    obtain ⟨⟨staging, ids⟩, staged, imported⟩ := bind_eq_ok.mp imported
    obtain ⟨written, write, imported⟩ := bind_eq_ok.mp imported
    obtain ⟨⟨⟩, checked, imported⟩ := bind_eq_ok.mp imported
    obtain ⟨rfl, length⟩ := Prod.mk.inj (pure_eq_ok.mp imported)
    exact ⟨staging, ids, staged, mapError_eq_ok.mp write, checked, length⟩
  · rintro ⟨staging, ids, staged, written, checked, rfl⟩
    exact bind_eq_ok.mpr ⟨(staging, ids), staged,
      bind_eq_ok.mpr ⟨after, mapError_eq_ok.mpr written, bind_eq_ok.mpr ⟨(), checked, rfl⟩⟩⟩

theorem importSheet_keeps {sheet : Sheet} (keyed : table.IsKeyed .integer)
    (imported : importSheet settings table sheet = .ok (after, count)) :
    ∃ ids, KeepsOthers table ids after ∧
      ∀ row ∈ after, row.key ∈ ids.map Value.int → IsPlaced after row := by
  obtain ⟨staging, ids, staged, written, checked, -⟩ := importSheet_eq_ok_iff.mp imported
  have kept := write_keeps keyed (stageRows_covers keyed staged) written
  refine ⟨ids, kept, fun row member inside => ?_⟩
  obtain ⟨id, listed, key⟩ := List.mem_map.mp inside
  exact isPlaced_of_checkPlacement kept.1 (forM_eq_ok.mp checked id listed) member key.symm

end AdjacencyForest.Service
