import AdjacencyForest.Model
import AdjacencyForest.Store.Value

/-!
# Tables

A table is a list of rows in the order in which the store scans them: by key where keys are
integers, by insertion where they are texts. A row's payload is data of its own, absent or null.

Main statements: `mem_insert` and `mem_erase` say which rows a table has after a write.
-/
namespace AdjacencyForest

/-- A row of a tree table. -/
structure Row where
  key : Value
  parent : Value
  label : Value
  payload : Option Json
  deriving Inhabited

abbrev Table := List Row

/-- The form in which a payload is stored: a number is kept as the number column keeps it. -/
def storedPayload (payload : Json) : Json :=
  match payload with
  | .int _ | .num _ =>
    match (Value.text payload.print).stored .numeric with
    | .int i => .int i
    | .real x => .num x
    | _ => payload
  | _ => payload

/-- A payload as a stored value: numbers are themselves, all else its exchange form. -/
def payloadValue : Option Json → Value
  | none => .null
  | some (.int i) => .int i
  | some (.num x) => if x.isFinite then .real x else .text (Json.num x).print
  | some payload => .text payload.print

namespace Row

def value (row : Row) : Column → Value
  | .key => row.key
  | .parent => row.parent
  | .label => row.label
  | .payload => payloadValue row.payload

end Row

def TreeModel.affinity (model : TreeModel) : Column → Affinity
  | .key | .parent => match model.keyKind with
    | .integer => .numeric
    | .text => .text
  | .label => .text
  | .payload => .numeric

namespace Table

def find? (table : Table) (key : Value) : Option Row := List.find? (fun row => row.key == key) table

def contains (table : Table) (key : Value) : Bool := List.any table fun row => row.key == key

/-- The table with a row put before the first row of a greater key. -/
def insertByKey (row : Row) : Table → Table
  | [] => [row]
  | other :: rest =>
    if row.key.compareWith other.key == .lt then row :: other :: rest
    else other :: insertByKey row rest

def insert (kind : KeyKind) (row : Row) (table : Table) : Table :=
  match kind with
  | .integer => insertByKey row table
  | .text => table ++ [row]

def erase (key : Value) (table : Table) : Table := List.filter (fun row => row.key != key) table

/-- The table with each row of a key changed; the key stays. -/
def modify (key : Value) (change : Row → Row) (table : Table) : Table :=
  List.map (fun row => if row.key == key then { change row with key := row.key } else row) table

def parents (table : Table) : List Value :=
  (List.map Row.parent table).filter fun parent => !parent.isNull

def greatestKey? (table : Table) : Option Int :=
  List.foldl (fun greatest row =>
    match row.key with
    | .int i => match greatest with
      | some j => some (max i j)
      | none => some i
    | _ => greatest) none table

/-- The least positive integer that is no key, found by counting from one. -/
def leastFreeKey (table : Table) : Int :=
  let candidates := (List.range (table.length + 1)).map fun (n : Nat) => (n : Int) + 1
  (candidates.find? fun i => !table.contains (.int i)).getD 1

/-- The key of a row that is given none: one more than the greatest, as long as that has 64 bits. -/
def nextKey (table : Table) : Int :=
  match table.greatestKey? with
  | none => 1
  | some greatest => if greatest < 0x7fffffffffffffff then greatest + 1 else table.leastFreeKey

theorem mem_insertByKey {row other : Row} {table : Table} :
    other ∈ insertByKey row table ↔ other = row ∨ other ∈ table := by
  induction table with
  | nil => simp [insertByKey]
  | cons first rest ih =>
    unfold insertByKey
    split
    · simp
    · simp only [List.mem_cons, ih]
      constructor
      · rintro (same | same | member)
        · exact .inr (.inl same)
        · exact .inl same
        · exact .inr (.inr member)
      · rintro (same | same | member)
        · exact .inr (.inl same)
        · exact .inl same
        · exact .inr (.inr member)

theorem mem_insert {kind : KeyKind} {row other : Row} {table : Table} :
    other ∈ insert kind row table ↔ other = row ∨ other ∈ table := by
  cases kind with
  | integer => exact mem_insertByKey
  | text =>
    simp only [insert, List.mem_append, List.mem_singleton]
    exact Or.comm

theorem mem_erase {key : Value} {row : Row} {table : Table} :
    row ∈ erase key table ↔ row ∈ table ∧ row.key ≠ key := by
  simp [erase]

end Table
end AdjacencyForest
