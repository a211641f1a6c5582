import AdjacencyForest.Proofs.Consistency
import AdjacencyForest.Proofs.Exporting
import AdjacencyForest.Proofs.RootPaths

/-!
# From a table to a workbook and back

The workbook that is exported from a forest can be imported. Into the table that it comes from it
brings nothing new but maybe labels, and into an empty table it brings every row, as far as keys,
parents and payloads go.

Main statements: `exists_exported`, the workbook is read as records that describe the rows of the
table; `exists_export_import`, what its imports make of the two tables.
-/

namespace AdjacencyForest

open Binary64

variable {table : Table} {row : Row}

/-! ## The rows of a forest -/

/-- A number holds so few keys that their count has 64 bits. -/
theorem fits_length_of_isSmall (keyed : table.IsKeyed .integer)
    (small : ∀ row ∈ table, ∃ i, row.key = .int i ∧ IsSmall i) : fitsInt64 table.length = true := by
  have inside : (List.map Row.key table).toFinset ⊆
      (Finset.Icc (-0x20000000000000) 0x20000000000000).image Value.int := by
    intro key listed
    obtain ⟨row, member, rfl⟩ := List.mem_map.mp (List.mem_toFinset.mp listed)
    obtain ⟨i, key, small⟩ := small row member
    have bound := small.small
    exact Finset.mem_image.mpr ⟨i, Finset.mem_Icc.mpr (by omega), key.symm⟩
  have few := (Finset.card_le_card inside).trans Finset.card_image_le
  rw [List.toFinset_card_of_nodup keyed.distinct, List.length_map, Int.card_Icc] at few
  simp only [fitsInt64_iff]
  omega

namespace Service

variable {settings : Settings} {request importing : Request} {key importKey name : String} {sheet : Sheet}

/-! ## The workbook of a forest -/

theorem IsExportable.hasObject (exportable : IsExportable row) : row.HasObject :=
  exportable.payload.imp_right fun ⟨fields, payload, _⟩ => ⟨fields, payload⟩

theorem IsExportable.hasLabel (exportable : IsExportable row) :
    row.label = .null ∨ ∃ text, row.label = .text text :=
  exportable.label.imp_right fun ⟨text, label, _⟩ => ⟨text, label⟩

theorem respond_uploading_of_importSheet {after : Table} {count : Nat}
    (asked : importing.Asks .importNodes importKey) (named : name.endsWith ".xlsx" = true)
    (imported : importSheet settings table sheet = .ok (after, count)) :
    respond settings table (importing.uploading name sheet) = (after,
      .ok (.json (.obj [("detail", .str s!"Successfully processed {count} rows.")]))) := by
  rw [respond, outcome_uploading settings table sheet asked named, imported]

theorem answerExport_eq_ok {shown : List TreeRow} (made : treeRows settings table = .ok shown)
    (some : shown ≠ []) (written : sheetOfRows (exportValues shown) = .ok sheet) :
    answerExport settings table = .ok (.workbook sheet) := by
  have full : shown.isEmpty = false := by simpa using some
  refine bind_eq_ok.mpr ⟨shown, mapError_eq_ok.mpr made, ?_⟩
  rw [full, if_neg Bool.false_ne_true]
  exact bind_eq_ok.mpr ⟨_, mapError_eq_ok.mpr written, rfl⟩

theorem writable_path (keyed : table.IsKeyed .integer) {walk : List Row}
    (members : ∀ row ∈ walk, row ∈ table) :
    ∀ c ∈ (".".intercalate (walk.map Row.keyText)).toList, Cell.isWritable c = true := by
  have point : ∀ c ∈ ".".toList, Cell.isWritable c = true := by
    intro c member
    obtain rfl := List.mem_singleton.mp member
    decide
  refine Cell.writable_intercalate point fun text member => ?_
  obtain ⟨row, found, rfl⟩ := List.mem_map.mp member
  obtain ⟨i, -, text⟩ := keyed.exists_keyText (members row found)
  rw [text]
  exact Cell.writable_writeInteger i

section Forest

variable (forest : table.IsForest)
include forest

theorem hasPlace_rowOf (keys : ∀ row ∈ table, ∃ i, row.key = .int i ∧ IsSmall i) {walk : List Row}
    (made : (treePlan ".").IsWalk table walk) : HasPlace ((treePlan ".").rowOf walk) where
  key := keys _ made.lastRow_mem
  parent := by
    by_cases root : (WalkPlan.lastRow walk).parent = .null
    · exact .inl root
    · obtain ⟨above, found, same⟩ :=
        Table.contains_iff.mp (forest.parents _ made.lastRow_mem root)
      obtain ⟨i, key, small⟩ := keys above found
      exact .inr ⟨i, same.symm.trans key, small⟩
  depth := ⟨_, rfl⟩
  path := ⟨_, rfl, writable_path forest.keyed made.members⟩

/-- The rows that are exported: rows of the table, each once, and all of them if no limit is set. -/
theorem exists_placedRows (keys : ∀ row ∈ table, ∃ i, row.key = .int i ∧ IsSmall i)
    (supported : settings.registry.grammarFor .sqlite = .ok .sqlite)
    (bounds : IsStepLimit settings.treeMaxDepth) :
    ∃ shown, treeRows settings table = .ok shown ∧ (table ≠ [] → shown ≠ []) ∧
      (shown.map TreeRow.row).Nodup ∧ (∀ treeRow ∈ shown, treeRow.row ∈ table ∧ HasPlace treeRow) ∧
      (settings.treeMaxDepth = none → (shown.map TreeRow.row).Perm table) := by
  have fitsLength := fits_length_of_isSmall forest.keyed keys
  obtain ⟨shown, walks, made, perm, once, mem_walks⟩ :=
    exists_treeRows_perm forest.keyed fitsLength supported bounds
  have rows : (shown.map TreeRow.row).Perm (walks.map WalkPlan.lastRow) := by
    have rows := perm.map TreeRow.row
    rwa [List.map_map] at rows
  refine ⟨shown, made, fun some none => ?_, rows.nodup_iff.mpr once, fun treeRow member => ?_,
    fun unlimited => ?_⟩
  · -- A limit leaves the roots, and a forest with rows has a root.
    obtain ⟨row, member⟩ := List.exists_mem_of_ne_nil table some
    obtain ⟨root, found, isRoot, -⟩ := forest.isRooted member
    have single : [root] ∈ walks := (mem_walks _).mpr
      ⟨isWalk_singleton.mpr ⟨found, Value.isNull_iff.mpr isRoot⟩, fun bound given => by
        simpa using (bounds bound given).1⟩
    rw [none, List.nil_perm] at perm
    rw [List.map_eq_nil_iff.mp perm] at single
    cases single
  · obtain ⟨walk, inside, rfl⟩ := List.mem_map.mp (perm.subset member)
    have walked := ((mem_walks walk).mp inside).1
    exact ⟨walked.lastRow_mem, hasPlace_rowOf forest keys walked⟩
  · have members (walk : List Row) : walk ∈ walks ↔ (treePlan ".").IsWalk table walk := by
      rw [mem_walks, unlimited]
      simp
    refine rows.trans ((List.perm_ext_iff_of_nodup once forest.keyed.nodup).mpr fun row =>
      ⟨fun found => ?_, fun member => (mem_lastRows members).mpr (forest.isRooted member)⟩)
    obtain ⟨walk, inside, rfl⟩ := List.mem_map.mp found
    exact ((members walk).mp inside).lastRow_mem

variable (exportable : ∀ row ∈ table, IsExportable row)
  (supported : settings.registry.grammarFor .sqlite = .ok .sqlite)
include exportable supported

theorem exists_treeRows (unlimited : settings.treeMaxDepth = none) :
    ∃ shown, treeRows settings table = .ok shown ∧ (shown.map TreeRow.row).Perm table ∧
      ∀ treeRow ∈ shown, FitsLine treeRow := by
  have bounds : IsStepLimit settings.treeMaxDepth := fun bound given =>
    absurd (unlimited.symm.trans given) (Option.some_ne_none bound).symm
  obtain ⟨shown, made, -, -, placed, all⟩ :=
    exists_placedRows forest (fun row member => (exportable row member).key) supported bounds
  refine ⟨shown, made, all unlimited, fun treeRow member => ?_⟩
  obtain ⟨inside, place⟩ := placed treeRow member
  exact ⟨place, exportable _ inside⟩

theorem exists_exported (unlimited : settings.treeMaxDepth = none) (some : table ≠ [])
    (asked : request.Asks .exportNodes key) (sendable : request.body.isSendable = true) :
    ∃ sheet records rows, respond settings table request = (table, .ok (.workbook sheet)) ∧
      IsReadAs sheet records ∧ List.Forall₂ ImportRecord.Describes records rows ∧ rows.Perm table := by
  obtain ⟨shown, made, same, fits⟩ := exists_treeRows forest exportable supported unlimited
  obtain ⟨lines, written, related⟩ := exists_sheet fits
  obtain ⟨records, read, described⟩ := exists_records related
  have full : shown ≠ [] := by
    rintro rfl
    exact some (List.perm_nil.mp same.symm)
  refine ⟨headerLine :: lines, records, shown.map TreeRow.row, ?_, read, described, same⟩
  exact respond_of_perform asked sendable (reading_eq_ok (answerExport_eq_ok made full written))

/-- A workbook that is exported from a forest is imported with success: into the table that it comes
from, where all keys, parents and payloads stay, and into an empty table, where they come back. -/
theorem exists_export_import (unlimited : settings.treeMaxDepth = none) (some : table ≠ [])
    (asked : request.Asks .exportNodes key) (sendable : request.body.isSendable = true)
    (importAsked : importing.Asks .importNodes importKey) (named : name.endsWith ".xlsx" = true) :
    ∃ sheet, respond settings table request = (table, .ok (.workbook sheet)) ∧
      (∃ after, respond settings table (importing.uploading name sheet) = (after,
          .ok (.json (.obj [("detail", .str s!"Successfully processed {table.length} rows.")]))) ∧
        List.map Row.outline after = List.map Row.outline table) ∧
      ∃ after, respond settings [] (importing.uploading name sheet) = (after,
          .ok (.json (.obj [("detail", .str s!"Successfully processed {table.length} rows.")]))) ∧
        (List.map Row.outline after).Perm (List.map Row.outline table) := by
  have fitsLength := fits_length_of_isSmall forest.keyed fun row member => (exportable row member).key
  have objects : ∀ row ∈ table, row.HasObject := fun row member => (exportable row member).hasObject
  have labels : table.HasLabels := fun row member => (exportable row member).hasLabel
  obtain ⟨sheet, records, rows, exported, read, described, same⟩ :=
    exists_exported forest exportable supported unlimited some asked sendable
  obtain ⟨kept, imported, outlines⟩ :=
    importSheet_present supported forest fitsLength read described same objects labels
  obtain ⟨made, importedAnew, outlinesAnew⟩ :=
    importSheet_absent supported forest fitsLength read described same objects
  exact ⟨sheet, exported,
    ⟨kept, respond_uploading_of_importSheet importAsked named imported, outlines⟩,
    ⟨made, respond_uploading_of_importSheet importAsked named importedAnew, outlinesAnew⟩⟩

end Forest

def exportRequest : Request where
  method := "GET"
  path := "/api/nodes/export"

/-- A payload with a number and a list. -/
def weighted : List (String × Json) :=
  [("weight", .num (.finite false 0x10000000000000 (-53))), ("tags", .arr [.str "a", .null])]

/-- A root with a payload, and below it a node whose label is read as an infinite number. -/
def weightedTable : Table :=
  [⟨.int (-4), .int 7, .text "inf", none⟩, ⟨.int 7, .null, .text "Root", some (.obj weighted)⟩]

theorem isForest_weightedTable : weightedTable.IsForest where
  keyed := {
    key := by simp [weightedTable, KeyKind.Admits]
    parent := by simp [weightedTable, KeyKind.Admits]
    distinct := by decide }
  parents := by decide +kernel
  acyclic := by
    let rank := fun row : Row => if row.key = .int 7 then 0 else 1
    have falls : ∀ row ∈ weightedTable, ∀ next ∈ weightedTable, next.key = row.parent →
        rank next < rank row := by decide +kernel
    exact Table.not_onCycle_of_falls rank fun _ _ joined => falls _ joined.1 _ joined.2.1 joined.2.2

theorem isPortable_weighted : (Json.obj weighted).IsPortable := by
  have half : IsCanonical 0x10000000000000 (-53) := ⟨by decide, by decide, by decide, .inl (by decide)⟩
  simp [weighted, Json.IsPortable, Json.AreFieldsPortable, Json.ArePortable, IsRepresented, half]

theorem isExportable_weightedTable : ∀ row ∈ weightedTable, IsExportable row := by
  intro row member
  rcases List.mem_cons.mp member with rfl | member
  · exact {
      key := ⟨-4, rfl, by decide, by decide⟩
      label := .inr ⟨"inf", rfl, ⟨'i', ['n', 'f'], by decide +kernel, by decide⟩, .text "inf",
        eq_ok_of_toOption (by decide +kernel)⟩
      payload := .inl rfl }
  · obtain rfl := List.mem_singleton.mp member
    exact {
      key := ⟨7, rfl, by decide, by decide⟩
      label := .inr ⟨"Root", rfl, ⟨'R', ['o', 'o', 't'], by decide +kernel, by decide⟩, .text "Root",
        eq_ok_of_toOption (by decide +kernel)⟩
      payload := .inr ⟨weighted, rfl, isPortable_weighted, .text (Json.obj weighted).print,
        eq_ok_of_toOption (by decide +kernel), by decide +kernel⟩ }

theorem export_import_weightedTable :
    ∃ sheet, respond {} weightedTable exportRequest = (weightedTable, .ok (.workbook sheet)) ∧
      (∃ after, respond {} weightedTable (importRequest.uploading "nodes.xlsx" sheet) = (after,
          .ok (.json (.obj [("detail", .str "Successfully processed 2 rows.")]))) ∧
        List.map Row.outline after = List.map Row.outline weightedTable) ∧
      ∃ after, respond {} [] (importRequest.uploading "nodes.xlsx" sheet) = (after,
          .ok (.json (.obj [("detail", .str "Successfully processed 2 rows.")]))) ∧
        (List.map Row.outline after).Perm (List.map Row.outline weightedTable) := by
  have supported : ({} : Settings).registry.grammarFor .sqlite = .ok .sqlite := rfl
  have named : "nodes.xlsx".endsWith ".xlsx" = true := by decide +kernel
  have asked : exportRequest.Asks .exportNodes "" := by
    unfold Request.Asks
    decide +kernel
  exact exists_export_import isForest_weightedTable isExportable_weightedTable supported rfl
    (List.cons_ne_nil _ _) asked rfl asks_importRequest named

end Service
end AdjacencyForest
