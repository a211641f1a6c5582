import AdjacencyForest.Proofs.Likeness
import AdjacencyForest.Proofs.Writing

/-!
# Nodes held by rows

A row holds a node when its key, parent and label are the very data of the node, and its payload what
the store has kept of the node's. Data of the columns' own types is held by the row that it is written
to.

Main statements: `toJson_columnValue`, a column gives back the data of its own type;
`isHeldBy_revised` and `isHeldBy_rowOf`, a row that was written holds the node.
-/

namespace AdjacencyForest

open TreeModel

/-! ## Data of the columns' own types -/

/-- A text, well-formed or not. -/
def Json.IsText (given : Json) : Prop := (∃ s, given = .str s) ∨ ∃ points, given = .illFormed points

namespace KeyKind

/-- The kind of the values of a column, where its data is no payload. -/
def ofColumn (kind : KeyKind) : Column → KeyKind
  | .label => .text
  | .key | .parent | .payload => kind

def Names (kind : KeyKind) (given : Json) : Prop :=
  match kind with
  | .integer => ∃ i, given = .int i
  | .text => given.IsText

/-- The data is of the column's own type: null, or integers and texts where these are stored. -/
def Takes (kind : KeyKind) (column : Column) (given : Json) : Prop :=
  column = .payload ∨ given = .null ∨ (kind.ofColumn column).Names given

variable {kind : KeyKind} {column : Column} {a b given : Json} {value : Value} {model : TreeModel}

theorem Takes.cases (typed : kind.Takes column given) (stored : column ≠ .payload) :
    given = .null ∨ (kind.ofColumn column = .integer ∧ ∃ i, given = .int i) ∨
      (kind.ofColumn column = .text ∧ given.IsText) := by
  refine (typed.resolve_left stored).imp_right fun named => ?_
  cases columnKind : kind.ofColumn column <;> rw [columnKind] at named
  · exact .inl ⟨rfl, named⟩
  · exact .inr ⟨rfl, named⟩

theorem Takes.isPlain (typed : kind.Takes column given) (stored : column ≠ .payload) :
    given.IsPlain := by
  obtain rfl | ⟨-, i, rfl⟩ | ⟨-, ⟨s, rfl⟩ | ⟨points, rfl⟩⟩ := typed.cases stored
  · exact .null
  · exact .int i
  · exact .str s
  · exact .illFormed points

theorem affinity_eq (stored : column ≠ .payload) : model.affinity column =
    match model.keyKind.ofColumn column with
    | .integer => .numeric
    | .text => .text := by
  cases column with
  | payload => exact absurd rfl stored
  | key | parent | label => rfl

theorem ofParameter_eq (stored : column ≠ .payload) (given : Json) :
    Value.ofParameter (.column column) given = Value.ofJson given := by
  cases column with
  | payload => exact absurd rfl stored
  | key | parent | label => cases given <;> rfl

/-- A column gives back what it is given. -/
theorem toJson_columnValue (stored : column ≠ .payload) (typed : model.keyKind.Takes column given)
    (accepted : ∃ value, Value.ofParameter (.column column) given = .ok value) :
    (model.columnValue column given).toJson = given := by
  obtain ⟨value, accepted⟩ := accepted
  rw [columnValue, Reading.operand, accepted, affinity_eq stored]
  rw [ofParameter_eq stored] at accepted
  obtain rfl | ⟨columnKind, i, rfl⟩ | ⟨columnKind, ⟨s, rfl⟩ | ⟨points, rfl⟩⟩ := typed.cases stored
  · cases accepted
    cases model.keyKind.ofColumn column <;> rfl
  · rw [columnKind]
    rw [Value.ofJson] at accepted
    split at accepted <;> cases accepted
    rfl
  · rw [columnKind]
    cases accepted
    rfl
  · cases accepted

theorem admits_columnValue (stored : column ≠ .payload)
    (typed : model.keyKind.Takes column given) : model.columnValue column given = .null ∨
      (model.keyKind.ofColumn column).Admits (model.columnValue column given) := by
  rw [columnValue, Reading.operand, ofParameter_eq stored, affinity_eq stored]
  obtain rfl | ⟨columnKind, i, rfl⟩ | ⟨columnKind, ⟨s, rfl⟩ | ⟨points, rfl⟩⟩ := typed.cases stored
  · cases model.keyKind.ofColumn column <;> exact .inl rfl
  · rw [columnKind, Value.ofJson]
    cases fitsInt64 i
    · exact .inl rfl
    · exact .inr trivial
  · rw [columnKind]
    exact .inr trivial
  · rw [columnKind]
    exact .inl rfl

theorem takes_toJson (admitted : value = .null ∨ (kind.ofColumn column).Admits value) :
    kind.Takes column value.toJson := by
  refine .inr (admitted.imp (fun null => congrArg Value.toJson null) fun admitted => ?_)
  cases columnKind : kind.ofColumn column <;> rw [columnKind] at admitted <;>
    cases value <;> try exact admitted.elim
  · exact ⟨_, rfl⟩
  · exact .inl ⟨_, rfl⟩

end KeyKind

/-- The node's data is of its columns' own types. -/
structure NodeFields.IsTyped (kind : KeyKind) (node : NodeFields) : Prop where
  takes : ∀ column, kind.Takes column (node.value column)
  payload : node.hasPayload = false → node.payload = .null

/-- The payload is what the store has kept of the shown one: the same or one that is alike, maybe in the
form of a number column. -/
def Json.KeptAs (shown held : Json) : Prop :=
  ∃ same : Json, (same = shown ∨ same.alike shown = true) ∧ (held = same ∨ held = storedPayload same)

/-- The row holds the node as a store can: all but the payload unchanged. -/
structure NodeFields.IsHeldBy (node : NodeFields) (row : Row) : Prop where
  columns : ∀ column, column ≠ .payload → (row.value column).toJson = node.value column
  payload : node.payload.KeptAs (row.payload.getD .null)

theorem Json.KeptAs.of_alike {a b held : Json} (kept : a.KeptAs held) (same : a.alike b = true) :
    b.KeptAs held := by
  obtain ⟨written, rfl | alike, form⟩ := kept
  · exact ⟨written, .inr same, form⟩
  · exact ⟨written, .inr (Json.alike_trans alike same), form⟩

theorem Json.keptAs_storedPayload (payload : Json) : payload.KeptAs (storedPayload payload) :=
  ⟨payload, .inl rfl, .inr rfl⟩

namespace NodeFields

variable {model : TreeModel} {kind : KeyKind} {before after node : NodeFields} {row : Row}
  {key : Value} {column : Column}

theorem isHeldBy_ofRow (row : Row) : (ofRow row).IsHeldBy row where
  columns column stored := by
    cases column with
    | payload => exact absurd rfl stored
    | key | parent | label => rfl
  payload := ⟨_, .inl rfl, .inl rfl⟩

theorem value_setValue_other {other : Column} {given : Json} (different : other ≠ column) :
    (node.setValue column given).value other = node.value other := by
  cases column <;> cases other <;> first | rfl | exact absurd rfl different

theorem value_setValue_self {given : Json} : (node.setValue column given).value column = given := by
  cases column <;> rfl

theorem IsTyped.setValue {given : Json} (typed : node.IsTyped kind)
    (takes : kind.Takes column given) : (node.setValue column given).IsTyped kind where
  takes other := by
    by_cases same : other = column
    · rw [same, value_setValue_self]
      exact takes
    · rw [value_setValue_other same]
      exact typed.takes other
  payload none := by
    cases column with
    | payload => cases none
    | key | parent | label => exact typed.payload none

/-! ## What a write makes of a row -/

theorem mem_columns (model : TreeModel) (column : Column) : column ∈ model.columns := by
  unfold TreeModel.columns
  split <;> cases column <;> decide

theorem value_revised (sameKey : before.key.alike after.key = true) (stored : column ≠ .payload)
    (plain : column ≠ .key) : (model.revised before after row).value column =
      if (before.value column).alike (after.value column) then row.value column
      else model.columnValue column (after.value column) := by
  rw [revised_eq sameKey]
  cases column with
  | payload => exact absurd rfl stored
  | key => exact absurd rfl plain
  | parent | label => rfl

/-- Where a version of the node is held, the row with the changes written holds the next version. -/
theorem isHeldBy_revised (held : before.IsHeldBy row) (typed : before.IsTyped model.keyKind)
    (typedAfter : after.IsTyped model.keyKind) (sameKey : before.key = after.key)
    (accepted : TreeQuery.checkParameters
      (boundData (model.changedColumns before after) after) = .ok ()) :
    after.IsHeldBy { model.revised before after row with key := row.key } := by
  have alikeKey : before.key.alike after.key = true :=
    sameKey ▸ ((typed.takes .key).isPlain Column.noConfusion).alike_self
  refine ⟨fun column stored => ?_, ?_⟩
  · by_cases key : column = .key
    · subst key
      exact (held.columns .key stored).trans sameKey
    · have value := @value_revised model before after row column alikeKey stored key
      have unchanged : Row.value { model.revised before after row with key := row.key } column =
          (model.revised before after row).value column := by
        cases column <;> first | rfl | exact absurd rfl key
      rw [unchanged, value]
      -- What is not written is alike in both versions, and for typed nodes alike is equal.
      split
      next same =>
        rw [held.columns column stored]
        exact ((typed.takes column).isPlain stored).eq_of_alike
          ((typedAfter.takes column).isPlain stored) same
      next different =>
        refine KeyKind.toJson_columnValue stored (typedAfter.takes column)
          (ofParameter_of_accepted accepted (List.mem_filter.mpr ⟨?_, by simpa using different⟩)
            stored)
        exact mem_columns model column
  · rw [revised_eq alikeKey]
    dsimp only
    split
    next same => exact held.payload.of_alike same
    · exact Json.keptAs_storedPayload _

/-- The node once it has a key. -/
def identified (node : NodeFields) (key : Value) : NodeFields :=
  match node.key with
  | .null => node.setValue .key key.toJson
  | _ => node

theorem identified_eq (known : node.key ≠ .null → key.toJson = node.key) :
    node.identified key = node.setValue .key key.toJson := by
  unfold identified
  split
  · rfl
  next given =>
    obtain ⟨_, _, _, _, _⟩ := node
    exact congrArg (NodeFields.mk · _ _ _ _) (known given).symm

/-- A key that is given is written, and what the store keeps of it reads as it was given. -/
theorem toJson_columnValue_key (typed : node.IsTyped model.keyKind)
    (accepted : TreeQuery.checkParameters (boundData (model.insertedColumns node) node) = .ok ())
    (given : node.key ≠ .null) : (model.columnValue .key node.key).toJson = node.key := by
  have written : Column.key ∈ model.insertedColumns node := by
    refine List.mem_filter.mpr ⟨mem_columns model .key, ?_⟩
    split
    next null => exact absurd null given
    · rfl
  exact KeyKind.toJson_columnValue Column.noConfusion (typed.takes .key)
    (ofParameter_of_accepted accepted written Column.noConfusion)

theorem newKey_eq_ok {table : Table} (typed : node.IsTyped model.keyKind)
    (accepted : TreeQuery.checkParameters (boundData (model.insertedColumns node) node) = .ok ())
    (made : model.newKey table node = .ok key) :
    model.keyKind.Admits key ∧ (node.key ≠ .null → key.toJson = node.key) := by
  have back := toJson_columnValue_key typed accepted
  have admitted := KeyKind.admits_columnValue Column.noConfusion (typed.takes .key)
  unfold newKey at made
  cases kind : model.keyKind with
  | integer =>
    simp only [kind] at made
    split at made
    next null =>
      cases made
      exact ⟨trivial, fun given => absurd null given⟩
    next given =>
      split at made
      next i value =>
        cases made
        rw [value] at back
        exact ⟨trivial, back⟩
      next value =>
        rw [value] at back
        exact absurd (back given).symm given
      · cases made
  | text =>
    simp only [kind] at made
    split at made
    · cases made
    next given =>
      cases made
      rw [← kind]
      exact ⟨admitted.resolve_left given, back⟩

/-- A row that was made for a node holds it, under the key that it was given. -/
theorem isHeldBy_rowOf (typed : node.IsTyped model.keyKind)
    (accepted : TreeQuery.checkParameters (boundData (model.insertedColumns node) node) = .ok ())
    (known : node.key ≠ .null → key.toJson = node.key) :
    (node.identified key).IsHeldBy (model.rowOf key node) := by
  rw [identified_eq known]
  refine ⟨fun column stored => ?_, ?_⟩
  · by_cases same : column = .key
    · subst same
      rfl
    · have value : (model.rowOf key node).value column =
          model.columnValue column (node.value column) := by
        cases column <;> first | rfl | exact absurd rfl same | exact absurd rfl stored
      have written : column ∈ model.insertedColumns node := by
        refine List.mem_filter.mpr ⟨mem_columns model column, ?_⟩
        cases column <;> first | rfl | exact absurd rfl same
      rw [value, value_setValue_other same]
      exact KeyKind.toJson_columnValue stored (typed.takes column)
        (ofParameter_of_accepted accepted written stored)
  · change node.payload.KeptAs _
    unfold rowOf
    cases given : node.hasPayload
    · rw [typed.payload given]
      exact ⟨.null, .inl rfl, .inl rfl⟩
    · exact Json.keptAs_storedPayload _

theorem IsTyped.identified (typed : node.IsTyped kind) (admitted : kind.Admits key) :
    (node.identified key).IsTyped kind := by
  unfold NodeFields.identified
  split
  · exact typed.setValue (KeyKind.takes_toJson (.inr admitted))
  · exact typed

theorem key_identified (known : node.key ≠ .null → key.toJson = node.key) :
    (node.identified key).key = key.toJson := by
  rw [identified_eq known]
  rfl

end NodeFields
end AdjacencyForest
