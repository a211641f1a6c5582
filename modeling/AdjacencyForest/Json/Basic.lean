import AdjacencyForest.Number.Binary64

/-!
# Data values

`Json` is the type of the values that requests, answers and the `meta` column hold. Integers and
binary numbers are told apart; an object is an ordered list of fields with distinct names, and
setting a field again keeps its place (`setField`).

Main statements: `lookup?_setField_same` and `lookup?_setField_other`, the laws of setting a field.
-/
namespace AdjacencyForest

/-- A data value. A text that holds a surrogate standing alone is no `String`; its code points are
kept by `illFormed`. -/
inductive Json where
  | null
  | bool (value : Bool)
  | int (value : Int)
  | num (value : Binary64)
  | str (value : String)
  | illFormed (points : List Nat)
  | arr (items : List Json)
  | obj (fields : List (String × Json))
  deriving Inhabited

namespace Json

def lookup? {α : Type} (name : String) : List (String × α) → Option α
  | [] => none
  | (key, value) :: rest => if key = name then some value else lookup? name rest

/-- An entry list with one entry set: in its place if the name is there, else at the end. -/
def setField {α : Type} (name : String) (value : α) : List (String × α) → List (String × α)
  | [] => [(name, value)]
  | (key, old) :: rest =>
    if key = name then (key, value) :: rest else (key, old) :: setField name value rest

/-- The value of a field; `none` for what is not an object. -/
def field? (name : String) : Json → Option Json
  | .obj fields => lookup? name fields
  | _ => none

theorem lookup?_setField_same {α : Type} (name : String) (value : α) (fields : List (String × α)) :
    lookup? name (setField name value fields) = some value := by
  induction fields with
  | nil => simp [setField, lookup?]
  | cons entry rest ih =>
    obtain ⟨key, old⟩ := entry
    by_cases same : key = name <;> simp [setField, lookup?, same, ih]

theorem lookup?_setField_other {α : Type} {name other : String} (different : other ≠ name)
    (value : α) (fields : List (String × α)) :
    lookup? other (setField name value fields) = lookup? other fields := by
  induction fields with
  | nil => simp [setField, lookup?, Ne.symm different]
  | cons entry rest ih =>
    obtain ⟨key, old⟩ := entry
    by_cases same : key = name
    · subst same
      simp [setField, lookup?, Ne.symm different]
    · simp [setField, lookup?, same, ih]

/-- Whether a value counts as absent where a condition is asked: null, false, zero and whatever is
empty. -/
def isFalsy : Json → Bool
  | .null => true
  | .bool b => !b
  | .int i => i == 0
  | .num x => x.isZero
  | .str s => s.isEmpty
  | .illFormed points => points.isEmpty
  | .arr items => items.isEmpty
  | .obj fields => fields.isEmpty

def integral? : Json → Option Int
  | .bool b => some (if b then 1 else 0)
  | .int i => some i
  | _ => none

/-- Whether two values that are not containers are equal. Numbers are compared by value, whatever
their kind, and truth values count as 0 and 1. -/
def alikeScalar (a b : Json) : Bool :=
  match a, b with
  | .null, .null => true
  | .str s, .str t => s == t
  | .illFormed s, .illFormed t => s == t
  | .num x, .num y => x.compare? y == some .eq
  | .num x, b => match b.integral? with
    | some j => x.compareInt? j == some .eq
    | none => false
  | a, .num y => match a.integral? with
    | some i => y.compareInt? i == some .eq
    | none => false
  | a, b => match a.integral?, b.integral? with
    | some i, some j => i == j
    | _, _ => false

mutual

/-- Whether two values are equal: numbers by value, lists in order, objects field by field. -/
def alike : Json → Json → Bool
  | .arr xs, .arr ys => alikeItems xs ys
  | .obj xs, .obj ys => xs.length == ys.length && alikeFields xs ys
  | .arr _, _ => false
  | .obj _, _ => false
  | a, b => alikeScalar a b

def alikeItems : List Json → List Json → Bool
  | [], [] => true
  | x :: xs, y :: ys => alike x y && alikeItems xs ys
  | _, _ => false

/-- Whether each field has an equal one of the same name in the other list. -/
def alikeFields : List (String × Json) → List (String × Json) → Bool
  | [], _ => true
  | (name, x) :: xs, ys =>
    (match lookup? name ys with
      | some y => alike x y
      | none => false) && alikeFields xs ys

end

mutual

def allFinite : Json → Bool
  | .num x => x.isFinite
  | .arr items => allFiniteItems items
  | .obj fields => allFiniteFields fields
  | _ => true

def allFiniteItems : List Json → Bool
  | [] => true
  | item :: rest => allFinite item && allFiniteItems rest

def allFiniteFields : List (String × Json) → Bool
  | [] => true
  | (_, value) :: rest => allFinite value && allFiniteFields rest

end

mutual

/-- The value with null in place of each number that is not finite. -/
def finitePart : Json → Json
  | .num x => if x.isFinite then .num x else .null
  | .arr items => .arr (finitePartItems items)
  | .obj fields => .obj (finitePartFields fields)
  | value => value

/-- `finitePart` of each item. -/
def finitePartItems : List Json → List Json
  | [] => []
  | item :: rest => finitePart item :: finitePartItems rest

/-- `finitePart` of each field's value. -/
def finitePartFields : List (String × Json) → List (String × Json)
  | [] => []
  | (name, value) :: rest => (name, finitePart value) :: finitePartFields rest

end

/-- An optional value, null if there is none. -/
def ofOption {α : Type} (write : α → Json) : Option α → Json
  | some value => write value
  | none => .null

end Json
end AdjacencyForest
