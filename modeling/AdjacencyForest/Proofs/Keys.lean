import AdjacencyForest.Store.Table
import Mathlib.Data.List.Nodup

/-!
# Tables with keys

What a store promises of a table: each row has a key of its own of the kind of the model's keys, and
its parent is null or a value of that kind. Parents need not be there, and rows may lie on cycles.

Main statements: `equals_iff` turns the store's equality of keys into equality, `find?_iff` and
`contains_iff` say what a look-up by key finds.
-/

namespace AdjacencyForest

/-- The values that a key of the kind can have. -/
def KeyKind.Admits : KeyKind → Value → Prop
  | .integer, .int _ => True
  | .text, .text _ => True
  | _, _ => False

namespace KeyKind

variable {kind : KeyKind} {a b : Value}

theorem not_null_of_admits (admitted : kind.Admits a) : a ≠ .null := by
  rintro rfl
  cases kind <;> exact admitted

theorem isNull_of_admits (admitted : kind.Admits a) : a.isNull = false := by
  cases a with
  | null => exact absurd rfl (not_null_of_admits admitted)
  | int | real | text => rfl

theorem admits_integer_iff : KeyKind.integer.Admits a ↔ ∃ i, a = .int i := by
  cases a <;> simp [Admits]

theorem admits_text_iff : KeyKind.text.Admits a ↔ ∃ s, a = .text s := by
  cases a <;> simp [Admits]

theorem equals_iff (admitted : kind.Admits a) (other : b = .null ∨ kind.Admits b) :
    a.equals b = true ↔ a = b := by
  rcases other with rfl | other
  · have different := not_null_of_admits admitted
    cases a <;> simp_all [Value.equals]
  · cases kind <;> cases a <;> cases b <;> simp_all only [Admits]
    · rw [Value.equals_int, Value.int.injEq]
    · rw [Value.equals_text, Value.text.injEq]

theorem equals_comm (admitted : kind.Admits b) (other : a = .null ∨ kind.Admits a) :
    a.equals b = true ↔ b = a := by
  rcases other with rfl | other
  · have different := not_null_of_admits admitted
    simp [Value.equals, different]
  · rw [equals_iff other (.inr admitted), eq_comm]

end KeyKind

namespace Table

/-- Keys are of the kind and distinct; a parent is null or a value of the kind. -/
structure IsKeyed (kind : KeyKind) (table : Table) : Prop where
  key : ∀ row ∈ table, kind.Admits row.key
  parent : ∀ row ∈ table, row.parent = .null ∨ kind.Admits row.parent
  distinct : (List.map Row.key table).Nodup

variable {kind : KeyKind} {table : Table} {row other : Row} {key : Value}

theorem IsKeyed.eq_of_key (keyed : IsKeyed kind table) (member : row ∈ table)
    (otherMember : other ∈ table) (same : row.key = other.key) : row = other :=
  List.inj_on_of_nodup_map keyed.distinct member otherMember same

theorem IsKeyed.nodup (keyed : IsKeyed kind table) : List.Nodup table :=
  List.Nodup.of_map _ keyed.distinct

theorem mem_of_find? (found : find? table key = some row) : row ∈ table ∧ row.key = key :=
  ⟨List.mem_of_find?_eq_some found, by simpa using List.find?_some found⟩

theorem find?_iff (keyed : IsKeyed kind table) :
    find? table key = some row ↔ row ∈ table ∧ row.key = key := by
  constructor
  · exact mem_of_find?
  · rintro ⟨member, rfl⟩
    cases found : find? table row.key with
    | none => exact absurd member fun member => by simpa using List.find?_eq_none.mp found row member
    | some other =>
      obtain ⟨otherMember, same⟩ := mem_of_find? found
      rw [keyed.eq_of_key otherMember member same]

theorem find?_eq_none_iff : find? table key = none ↔ ∀ row ∈ table, row.key ≠ key := by
  simp [find?]

theorem contains_iff : contains table key = true ↔ ∃ row ∈ table, row.key = key := by
  simp [contains]

theorem contains_eq_false_iff : contains table key = false ↔ ∀ row ∈ table, row.key ≠ key := by
  simp [contains]

theorem find?_eq_none_iff_contains : find? table key = none ↔ contains table key = false :=
  find?_eq_none_iff.trans contains_eq_false_iff.symm

theorem contains_of_find? (found : find? table key = some row) : contains table key = true :=
  contains_iff.mpr ⟨row, mem_of_find? found⟩

end Table
end AdjacencyForest
