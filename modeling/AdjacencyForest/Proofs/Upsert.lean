import AdjacencyForest.Proofs.Staging

/-!
# Upserting records

A record is written to a table by changing the row of its key or by putting in a new row. Records of
distinct keys can be written in any order.

Main statements: `upsert_perm`, the order of the records does not matter; `upsert_keepsOthers`, the
table has keys afterwards and only rows of the records are new or different.
-/

namespace AdjacencyForest

def Json.scalar : Json → Value
  | .int i => .int i
  | .str s => .text s
  | _ => .null

namespace Table

variable {table : Table} {row : Row} {a b key : Value} {f g : Row → Row}

theorem modify_congr (same : ∀ row ∈ table, row.key = key → f row = g row) :
    table.modify key f = table.modify key g := by
  refine List.map_congr_left fun row member => ?_
  by_cases found : row.key = key
  · simp [found, same row member found]
  · simp [found]

theorem modify_comm (different : a ≠ b) :
    (table.modify a f).modify b g = (table.modify b g).modify a f := by
  simp only [modify, List.map_map]
  refine List.map_congr_left fun row _ => ?_
  by_cases first : row.key = a
  · have second : row.key ≠ b := fun same => different (first.symm.trans same)
    simp [first, different]
  · by_cases second : row.key = b
    · simp [second, Ne.symm different]
    · simp [first, second]

theorem modify_insertByKey (different : row.key ≠ key) :
    (insertByKey row table).modify key f = insertByKey row (table.modify key f) := by
  induction table with
  | nil => simp [insertByKey, modify, different]
  | cons first rest ih =>
    have kept : (if first.key == key then { f first with key := first.key } else first).key =
        first.key := by
      split <;> rfl
    have unfolded : modify key f (first :: rest) =
        (if first.key == key then { f first with key := first.key } else first) ::
          modify key f rest := rfl
    rw [unfolded]
    unfold insertByKey
    rw [kept]
    split
    · simp [modify, different]
    · rw [← ih]
      rfl

theorem insertByKey_comm {first second : Row} {i j : Int} (firstKey : first.key = .int i)
    (secondKey : second.key = .int j) (different : i ≠ j)
    (keys : ∀ row ∈ table, KeyKind.integer.Admits row.key) :
    insertByKey first (insertByKey second table) =
      insertByKey second (insertByKey first table) := by
  -- Both stop at the first greater key, or at each other, and then the lesser one comes first.
  induction table with
  | nil =>
    simp only [insertByKey, firstKey, secondKey, Value.compareWith, beq_iff_eq,
      Std.compare_eq_lt]
    by_cases less : i < j
    · have greater : ¬ j < i := by omega
      simp [less, greater]
    · have greater : j < i := by omega
      simp [less, greater]
  | cons other rest ih =>
    obtain ⟨k, otherKey⟩ := KeyKind.admits_integer_iff.mp (keys other List.mem_cons_self)
    have later := ih fun row member => keys row (List.mem_cons_of_mem _ member)
    by_cases firstLess : i < k
    · by_cases secondLess : j < k
      · by_cases less : i < j
        · have greater : ¬ j < i := by omega
          simp [insertByKey, firstKey, secondKey, otherKey, Value.compareWith, Std.compare_eq_lt,
            firstLess, secondLess, less, greater]
        · have greater : j < i := by omega
          simp [insertByKey, firstKey, secondKey, otherKey, Value.compareWith, Std.compare_eq_lt,
            firstLess, secondLess, less, greater]
      · have greater : ¬ j < i := by omega
        simp [insertByKey, firstKey, secondKey, otherKey, Value.compareWith, Std.compare_eq_lt,
          firstLess, secondLess, greater]
    · by_cases secondLess : j < k
      · have greater : ¬ i < j := by omega
        simp [insertByKey, firstKey, secondKey, otherKey, Value.compareWith, Std.compare_eq_lt,
          firstLess, secondLess, greater]
      · simp [insertByKey, firstKey, secondKey, otherKey, Value.compareWith, Std.compare_eq_lt,
          firstLess, secondLess, later]

end Table

namespace Service

open Table

/-- A payload once data is written over it: data equal to it is not written again. -/
def mergedPayload (old : Option Json) (given : Json) : Option Json :=
  if (old.getD .null).alike given then old else some (storedPayload given)

namespace ImportRecord

/-- A row with the columns of the record. -/
def merge (record : ImportRecord) (row : Row) : Row where
  key := row.key
  parent := (record.parent.map Json.scalar).getD row.parent
  label := (record.label.map Json.scalar).getD row.label
  payload := match record.payload with
    | some given => mergedPayload row.payload given
    | none => row.payload

def newRow (record : ImportRecord) : Row where
  key := .int record.id
  parent := (record.parent.map Json.scalar).getD .null
  label := (record.label.map Json.scalar).getD .null
  payload := record.payload.map storedPayload

/-- The record has a key, a parent, if any, of 64 bits, and a text as its label, if any. -/
structure IsValid (record : ImportRecord) : Prop where
  key : record.id ≠ 0
  fits : fitsInt64 record.id = true
  label : ∀ label, record.label = some label → label = .null ∨ ∃ s, label = .str s
  parent : ∀ parent, record.parent = some parent →
    parent = .null ∨ ∃ i, parent = .int i ∧ fitsInt64 i = true

/-- The record has a key and a parent, if any, of 64 bits, and a label, if any, that the store takes. -/
structure IsWritable (record : ImportRecord) : Prop where
  key : record.id ≠ 0
  fits : fitsInt64 record.id = true
  label : ∀ label, record.label = some label →
    ∃ value, Value.ofParameter (.column .label) label = .ok value
  parent : ∀ parent, record.parent = some parent →
    parent = .null ∨ ∃ i, parent = .int i ∧ fitsInt64 i = true

theorem exists_labelParameter {given : Json} (typed : given = .null ∨ ∃ s, given = .str s) :
    ∃ value, Value.ofParameter (.column .label) given = .ok value := by
  rcases typed with rfl | ⟨s, rfl⟩
  · exact ⟨.null, rfl⟩
  · exact ⟨.text s, rfl⟩

theorem IsValid.isWritable {record : ImportRecord} (valid : record.IsValid) : record.IsWritable where
  key := valid.key
  fits := valid.fits
  label label given := exists_labelParameter (valid.label label given)
  parent := valid.parent

end ImportRecord

def upsertRecord (merge : ImportRecord → Row → Row) (table : Table) (record : ImportRecord) : Table :=
  if table.contains (.int record.id) then table.modify (.int record.id) (merge record)
  else table.insert .integer record.newRow

/-- The table with all records written, the rows that are there changed in the given way. -/
def upsert (merge : ImportRecord → Row → Row) (table : Table) (records : List ImportRecord) : Table :=
  records.foldl (upsertRecord merge) table

variable {table : Table} {record first second : ImportRecord} {records other : List ImportRecord}
  {row : Row}

theorem ImportRecord.IsValid.hasParent (valid : record.IsValid) : record.HasParent := by
  intro parent given
  exact (valid.parent parent given).imp_right fun ⟨i, same, _⟩ => ⟨i, same⟩

theorem admits_scalar {parent : Json} (typed : parent = .null ∨ ∃ i, parent = .int i) :
    parent.scalar = .null ∨ KeyKind.integer.Admits parent.scalar := by
  rcases typed with rfl | ⟨i, rfl⟩
  · exact .inl rfl
  · exact .inr trivial

theorem admits_parent_merge (typed : record.HasParent)
    (old : row.parent = .null ∨ KeyKind.integer.Admits row.parent) :
    (record.merge row).parent = .null ∨ KeyKind.integer.Admits (record.merge row).parent := by
  unfold ImportRecord.merge
  cases given : record.parent with
  | none => exact old
  | some parent => exact admits_scalar (typed parent given)

theorem admits_parent_newRow (typed : record.HasParent) :
    record.newRow.parent = .null ∨ KeyKind.integer.Admits record.newRow.parent := by
  unfold ImportRecord.newRow
  cases given : record.parent with
  | none => exact .inl rfl
  | some parent => exact admits_scalar (typed parent given)

theorem contains_modify {key other : Value} {change : Row → Row} :
    (table.modify key change).contains other = table.contains other := by
  rw [Bool.eq_iff_iff, contains_iff, contains_iff]
  have keys : List.map Row.key (table.modify key change) = List.map Row.key table := map_key_modify
  have same : other ∈ List.map Row.key (table.modify key change) ↔ other ∈ List.map Row.key table := by
    rw [keys]
  simpa only [List.mem_map] using same

theorem contains_insert {key : Value} :
    (table.insert .integer row).contains key = true ↔ key = row.key ∨ table.contains key = true := by
  simp only [contains_iff, mem_insert]
  constructor
  · rintro ⟨found, rfl | member, same⟩
    · exact .inl same.symm
    · exact .inr ⟨found, member, same⟩
  · rintro (rfl | ⟨found, member, same⟩)
    · exact ⟨row, .inl rfl, rfl⟩
    · exact ⟨found, .inr member, same⟩

theorem contains_insert_of_ne {key : Value} (different : key ≠ row.key) :
    (table.insert .integer row).contains key = table.contains key := by
  rw [Bool.eq_iff_iff, contains_insert]
  exact or_iff_right different

theorem contains_upsertRecord_of_ne {merge : ImportRecord → Row → Row} {id : Int}
    (different : id ≠ record.id) :
    (upsertRecord merge table record).contains (.int id) = table.contains (.int id) := by
  unfold upsertRecord
  split
  · exact contains_modify
  · exact contains_insert_of_ne fun same => different (Value.int.inj same)

theorem isKeyed_upsertRecord (keyed : table.IsKeyed .integer) (typed : record.HasParent) :
    (upsertRecord ImportRecord.merge table record).IsKeyed .integer := by
  unfold upsertRecord
  split
  next => exact keyed.modify fun row member _ => admits_parent_merge typed (keyed.parent row member)
  next absent =>
    exact keyed.insert trivial (admits_parent_newRow typed) (Bool.eq_false_iff.mpr absent)

theorem agreesOutside_upsertRecord {merge : ImportRecord → Row → Row} :
    AgreesOutside [.int record.id] table (upsertRecord merge table record) := by
  unfold upsertRecord
  split
  next => exact agreesOutside_modify _ _ table
  next => exact agreesOutside_insert .integer record.newRow table

theorem upsertRecord_comm (keyed : table.IsKeyed .integer) (different : first.id ≠ second.id) :
    upsertRecord ImportRecord.merge (upsertRecord ImportRecord.merge table first) second =
      upsertRecord ImportRecord.merge (upsertRecord ImportRecord.merge table second) first := by
  have keys : (Value.int first.id) ≠ .int second.id := fun same => different (Value.int.inj same)
  have secondKept := @contains_upsertRecord_of_ne table first ImportRecord.merge _ (Ne.symm different)
  have firstKept := @contains_upsertRecord_of_ne table second ImportRecord.merge _ different
  -- Neither record makes or takes the key of the other, so each finds what it would find alone.
  unfold upsertRecord at secondKept firstKept ⊢
  rw [secondKept, firstKept]
  cases table.contains (.int first.id) <;> cases table.contains (.int second.id) <;>
    simp only [if_true, Bool.false_eq_true, if_false]
  case true.true => exact modify_comm keys
  case true.false => exact (modify_insertByKey (Ne.symm keys)).symm
  case false.true => exact modify_insertByKey keys
  case false.false => exact insertByKey_comm rfl rfl (Ne.symm different) keyed.key

theorem upsert_perm (same : records.Perm other) (keyed : table.IsKeyed .integer)
    (typed : ∀ record ∈ records, record.HasParent)
    (distinct : (records.map ImportRecord.id).Nodup) :
    upsert ImportRecord.merge table records = upsert ImportRecord.merge table other := by
  induction same generalizing table with
  | nil => rfl
  | cons record _ ih =>
    refine ih (isKeyed_upsertRecord keyed (typed record List.mem_cons_self)) ?_ ?_
    · exact fun later member => typed later (List.mem_cons_of_mem _ member)
    · exact (List.nodup_cons.mp distinct).2
  | swap first second rest =>
    have different : second.id ≠ first.id := by
      intro same
      simp [same] at distinct
    simp only [upsert, List.foldl_cons]
    rw [upsertRecord_comm keyed different]
  | trans before _ ih ihLater =>
    rw [ih keyed typed distinct]
    refine ihLater keyed (fun record member => typed record (before.mem_iff.mpr member)) ?_
    exact (before.map ImportRecord.id).nodup_iff.mp distinct

theorem upsert_append_singleton {merge : ImportRecord → Row → Row} :
    upsert merge table (records ++ [record]) = upsertRecord merge (upsert merge table records) record := by
  rw [upsert, List.foldl_append]
  rfl

theorem upsert_keepsOthers (keyed : table.IsKeyed .integer)
    (typed : ∀ record ∈ records, record.HasParent) :
    KeepsOthers table (records.map ImportRecord.id) (upsert ImportRecord.merge table records) := by
  induction records using List.reverseRecOn with
  | nil => exact ⟨keyed, .refl _ table⟩
  | append_singleton rest record ih =>
    obtain ⟨keyedBefore, agrees⟩ := ih fun earlier member => typed earlier (by simp [member])
    rw [upsert_append_singleton]
    refine ⟨isKeyed_upsertRecord keyedBefore (typed record (by simp)), ?_⟩
    refine (agrees.mono ?_).trans (agreesOutside_upsertRecord.mono ?_)
    · intro key member
      rw [List.map_append, List.map_append]
      exact List.mem_append_left _ member
    · intro key member
      rw [List.mem_singleton.mp member]
      simp

end Service
end AdjacencyForest
