import AdjacencyForest.Proofs.Batch
import AdjacencyForest.Proofs.Holding
import AdjacencyForest.Session.State

/-!
# Tracked entities

What a session knows of a node goes back to a row of the table: the row of its key holds what the
entity has as stored. Writing a node leaves all entities tracked.

Main statements: `Tracked.update`, `Tracked.insert` and `Tracked.erase`, the entities are tracked by
the table with a row changed, added or deleted.
-/

namespace AdjacencyForest

open TreeModel

namespace Table

variable {kind : KeyKind} {table other : Table}

theorem IsKeyed.sublist (keyed : table.IsKeyed kind) (part : List.Sublist other table) :
    other.IsKeyed kind where
  key row member := keyed.key row (part.subset member)
  parent row member := keyed.parent row (part.subset member)
  distinct := keyed.distinct.sublist (part.map Row.key)

theorem foldl_erase (keys : List Value) (table : Table) :
    keys.foldl (fun table key => erase key table) table =
      List.filter (fun row => !keys.contains row.key) table := by
  induction keys generalizing table with
  | nil => simp
  | cons key keys ih =>
    rw [List.foldl_cons, ih, erase, List.filter_filter]
    refine List.filter_congr fun row _ => ?_
    rw [List.contains_cons, Bool.not_or, Bool.and_comm]
    rfl

end Table

/-- The row of a key holds the node, with its very payload as the store keeps it if that was written
anew. -/
def Table.Records (table : Table) (key : Value) (node : NodeFields) (anew : Prop) : Prop :=
  ∃ row ∈ table, row.key = key ∧ node.IsHeldBy row ∧
    (anew → row.payload.getD .null = storedPayload node.payload)

theorem Table.Records.mono {table other : Table} {key : Value} {node : NodeFields} {anew : Prop}
    (records : table.Records key node anew) (kept : ∀ row ∈ table, row.key = key → row ∈ other) :
    other.Records key node anew := by
  obtain ⟨row, member, rowKey, held⟩ := records
  exact ⟨row, kept row member rowKey, rowKey, held⟩

/-- A row of the table holds what the entity has as stored. -/
structure Entity.Tracks (kind : KeyKind) (table : Table) (entity : Entity) : Prop where
  typed : entity.current.IsTyped kind
  storedTyped : entity.stored.IsTyped kind
  key : entity.current.key = entity.key.toJson
  unchanged : entity.touched = false → entity.current = entity.stored
  held : ∃ row ∈ table, row.key = entity.key ∧ entity.stored.IsHeldBy row

namespace Entity

variable {kind : KeyKind} {table other : Table} {entity : Entity} {row : Row} {column : Column}

theorem Tracks.mono (tracks : entity.Tracks kind table)
    (kept : ∀ row ∈ table, row.key = entity.key → row ∈ other) : entity.Tracks kind other := by
  obtain ⟨row, member, rowKey, held⟩ := tracks.held
  exact { tracks with held := ⟨row, kept row member rowKey, rowKey, held⟩ }

theorem Tracks.noted (tracks : entity.Tracks kind table) (parentKey : Option Value)
    (childKeys : Option (List Value)) :
    { entity with parentKey := parentKey, childKeys := childKeys }.Tracks kind table :=
  ⟨tracks.typed, tracks.storedTyped, tracks.key, tracks.unchanged, tracks.held⟩

theorem Tracks.storedKey (tracks : entity.Tracks kind table) :
    entity.stored.key = entity.key.toJson := by
  obtain ⟨row, -, rowKey, held⟩ := tracks.held
  rw [← rowKey]
  exact (held.columns .key Column.noConfusion).symm

theorem Tracks.sameKey (tracks : entity.Tracks kind table) :
    entity.stored.key = entity.current.key := tracks.storedKey.trans tracks.key.symm

theorem Tracks.alikeKey (tracks : entity.Tracks kind table) :
    entity.stored.key.alike entity.current.key = true :=
  tracks.sameKey ▸ ((tracks.storedTyped.takes .key).isPlain Column.noConfusion).alike_self

theorem Tracks.setValue {given : Json} (tracks : entity.Tracks kind table) (other : column ≠ .key)
    (takes : kind.Takes column given) : (entity.setValue column given).Tracks kind table where
  typed := tracks.typed.setValue takes
  storedTyped := tracks.storedTyped
  key := (NodeFields.value_setValue_other other.symm).trans tracks.key
  unchanged := fun untouched => by cases untouched
  held := tracks.held

/-- What is stored and shown alike is tracked once a row of its key holds it. -/
theorem tracks_of_records {anew : Prop} (typed : entity.current.IsTyped kind)
    (stored : entity.stored = entity.current) (key : entity.current.key = entity.key.toJson)
    (records : table.Records entity.key entity.current anew) : entity.Tracks kind table where
  typed := typed
  storedTyped := stored ▸ typed
  key := key
  unchanged _ := stored.symm
  held := by
    obtain ⟨row, member, rowKey, held, -⟩ := records
    exact ⟨row, member, rowKey, stored ▸ held⟩

theorem tracks_ofRow (keyed : table.IsKeyed kind) (labels : table.HasLabels) (member : row ∈ table) :
    (ofRow row).Tracks kind table := by
  have typed : (NodeFields.ofRow row).IsTyped kind := by
    refine ⟨fun column => ?_, fun absent => by cases absent⟩
    cases column with
    | key => exact KeyKind.takes_toJson (.inr (keyed.key row member))
    | parent => exact KeyKind.takes_toJson (keyed.parent row member)
    | label =>
      refine KeyKind.takes_toJson ((labels row member).imp_right ?_)
      rintro ⟨s, label⟩
      rw [label]
      trivial
    | payload => exact .inl rfl
  exact ⟨typed, typed, rfl, fun _ => rfl, row, member, rfl, NodeFields.isHeldBy_ofRow row⟩

end Entity

/-- All entities are tracked, each under a key of its own. -/
structure Tracked (kind : KeyKind) (table : Table) (entities : List Entity) : Prop where
  keyed : table.IsKeyed kind
  labels : table.HasLabels
  distinct : (entities.map Entity.key).Nodup
  tracks : ∀ entity ∈ entities, entity.Tracks kind table

namespace Session

variable {entity other : Entity} {entities : List Entity}

theorem mem_putEntity (distinct : (entities.map Entity.key).Nodup) :
    other ∈ putEntity entity entities ↔ other = entity ∨ (other ∈ entities ∧ other.key ≠ entity.key) := by
  induction entities with
  | nil => simp [putEntity]
  | cons first entities ih =>
    obtain ⟨fresh, distinct⟩ := List.nodup_cons.mp distinct
    unfold putEntity
    split
    next same =>
      have apart : ∀ other ∈ entities, other.key ≠ entity.key := fun other member equal =>
        fresh (List.mem_map.mpr ⟨other, member, equal.trans same.symm⟩)
      rw [List.mem_cons, List.mem_cons]
      constructor
      · exact Or.imp_right fun member => ⟨.inr member, apart other member⟩
      · rintro (rfl | ⟨rfl | member, different⟩)
        · exact .inl rfl
        · exact absurd same different
        · exact .inr member
    next different =>
      rw [List.mem_cons, List.mem_cons, ih distinct]
      constructor
      · rintro (rfl | rfl | ⟨member, apart⟩)
        · exact .inr ⟨.inl rfl, different⟩
        · exact .inl rfl
        · exact .inr ⟨.inr member, apart⟩
      · rintro (rfl | ⟨rfl | member, apart⟩)
        · exact .inr (.inl rfl)
        · exact .inl rfl
        · exact .inr (.inr ⟨member, apart⟩)

theorem nodup_putEntity (distinct : (entities.map Entity.key).Nodup) :
    ((putEntity entity entities).map Entity.key).Nodup := by
  induction entities with
  | nil => simp [putEntity]
  | cons first entities ih =>
    obtain ⟨fresh, rest⟩ := List.nodup_cons.mp distinct
    unfold putEntity
    split
    next same =>
      rw [List.map_cons, ← same]
      exact distinct
    next different =>
      rw [List.map_cons]
      refine List.nodup_cons.mpr ⟨fun inside => ?_, ih rest⟩
      obtain ⟨other, member, equal⟩ := List.mem_map.mp inside
      rcases (mem_putEntity rest).mp member with rfl | ⟨member, -⟩
      · exact different equal.symm
      · exact fresh (List.mem_map.mpr ⟨other, member, equal⟩)

theorem find?_key_iff {key : Value} (distinct : (entities.map Entity.key).Nodup) :
    entities.find? (fun other => other.key == key) = some entity ↔
      entity ∈ entities ∧ entity.key = key := by
  constructor
  · exact fun found => ⟨List.mem_of_find?_eq_some found, by simpa using List.find?_some found⟩
  · rintro ⟨member, rfl⟩
    cases found : entities.find? fun other => other.key == entity.key with
    | none => exact absurd (List.find?_eq_none.mp found entity member) (by simp)
    | some other =>
      have same : other.key = entity.key := by simpa using List.find?_some found
      rw [List.inj_on_of_nodup_map distinct (List.mem_of_find?_eq_some found) member same]

end Session

namespace Tracked

open Session

variable {kind : KeyKind} {table : Table} {entity : Entity} {entities : List Entity}
  {model : TreeModel} {node : NodeFields} {key newKey : Value} {result : Table}

theorem put (tracked : Tracked kind table entities) (tracks : entity.Tracks kind table) :
    Tracked kind table (putEntity entity entities) where
  keyed := tracked.keyed
  labels := tracked.labels
  distinct := nodup_putEntity tracked.distinct
  tracks other member := by
    rcases (mem_putEntity tracked.distinct).mp member with rfl | ⟨member, -⟩
    · exact tracks
    · exact tracked.tracks other member

theorem sublist {others : List Entity} (tracked : Tracked kind table entities)
    (part : others.Sublist entities) : Tracked kind table others where
  keyed := tracked.keyed
  labels := tracked.labels
  distinct := tracked.distinct.sublist (part.map Entity.key)
  tracks other member := tracked.tracks other (part.subset member)

theorem mem_iff_entity? (tracked : Tracked kind table entities) :
    entities.find? (fun other => other.key == key) = some entity ↔
      entity ∈ entities ∧ entity.key = key :=
  find?_key_iff tracked.distinct

theorem update (tracked : Tracked model.keyKind table entities)
    (tracks : entity.Tracks model.keyKind table)
    (updated : model.updateNode table entity.key entity.stored entity.current =
      .ok (result, newKey)) :
    newKey = entity.key ∧ (∀ row ∈ table, row.key ≠ entity.key → row ∈ result) ∧
      result.Records entity.key entity.current
        (entity.stored.payload.alike entity.current.payload = false) ∧
      Tracked model.keyKind result (entities.filter fun other => other.key != entity.key) := by
  have alikeKey := tracks.alikeKey
  obtain ⟨accepted, rfl, rfl⟩ := (updateNode_eq_revised alikeKey).mp updated
  have kept : ∀ row ∈ table, row.key ≠ entity.key →
      row ∈ table.modify entity.key (model.revised entity.stored entity.current) :=
    fun row member apart => Table.mem_modify.mpr (.inl ⟨member, apart⟩)
  -- The key is alike before and after, so the row is changed in its place.
  refine ⟨rfl, kept, ?_, ?_, fun row member => ?_, ?_, fun other found => ?_⟩
  · obtain ⟨row, member, rowKey, held⟩ := tracks.held
    refine ⟨_, Table.mem_modify.mpr (.inr ⟨row, member, rowKey, rfl⟩), rowKey,
      NodeFields.isHeldBy_revised held tracks.storedTyped tracks.typed tracks.sameKey accepted,
      fun different => ?_⟩
    rw [revised_eq alikeKey]
    simp [different]
  · refine tracked.keyed.modify fun row member _ => ?_
    rw [revised_eq alikeKey]
    dsimp only
    split
    · exact tracked.keyed.parent row member
    · exact KeyKind.admits_columnValue Column.noConfusion (tracks.typed.takes .parent)
  · rcases Table.mem_modify.mp member with ⟨member, -⟩ | ⟨old, oldMember, -, rfl⟩
    · exact tracked.labels row member
    · rw [revised_eq alikeKey]
      dsimp only
      split
      · exact tracked.labels old oldMember
      · exact (KeyKind.admits_columnValue Column.noConfusion (tracks.typed.takes .label)).imp_right
          KeyKind.admits_text_iff.mp
  · exact (tracked.sublist List.filter_sublist).distinct
  · obtain ⟨found, different⟩ := List.mem_filter.mp found
    exact (tracked.tracks other found).mono fun row member same =>
      kept row member (same ▸ by simpa using different)

theorem insert (tracked : Tracked model.keyKind table entities) (typed : node.IsTyped model.keyKind)
    (inserted : model.insertNode table node = .ok (result, key)) :
    (node.key ≠ .null → key.toJson = node.key) ∧ (∀ entity ∈ entities, entity.key ≠ key) ∧
      (∀ row ∈ table, row ∈ result) ∧ result.Records key (node.identified key) True ∧
      (node.identified key).IsTyped model.keyKind ∧ Tracked model.keyKind result entities := by
  obtain ⟨accepted, made, fresh, rfl⟩ := insertNode_eq_ok.mp inserted
  obtain ⟨admitted, known⟩ := NodeFields.newKey_eq_ok typed accepted made
  have kept : ∀ row ∈ table, row ∈ table.insert model.keyKind (model.rowOf key node) :=
    fun row member => Table.mem_insert.mpr (.inr member)
  refine ⟨known, fun entity member same => ?_, kept, ⟨_, Table.mem_insert.mpr (.inl rfl), rfl,
    NodeFields.isHeldBy_rowOf typed accepted known, fun _ => ?_⟩, typed.identified admitted,
    tracked.keyed.insert admitted ?_ fresh, fun row member => ?_, tracked.distinct,
    fun entity member => (tracked.tracks entity member).mono fun row inside _ => kept row inside⟩
  · obtain ⟨row, inside, rowKey, -⟩ := (tracked.tracks entity member).held
    exact Table.contains_eq_false_iff.mp fresh row inside (rowKey.trans same)
  · rw [NodeFields.identified_eq known]
    change (if node.hasPayload then some (storedPayload node.payload) else none).getD .null =
      storedPayload node.payload
    cases given : node.hasPayload
    · rw [typed.payload given]
      rfl
    · rfl
  · exact KeyKind.admits_columnValue Column.noConfusion (typed.takes .parent)
  · rcases Table.mem_insert.mp member with rfl | member
    · exact (KeyKind.admits_columnValue Column.noConfusion (typed.takes .label)).imp_right
        KeyKind.admits_text_iff.mp
    · exact tracked.labels row member

theorem erase (tracked : Tracked kind table entities) (keys : List Value) :
    Tracked kind (keys.foldl (fun table key => Table.erase key table) table)
      (entities.filter fun entity => !keys.contains entity.key) := by
  rw [Table.foldl_erase]
  refine ⟨tracked.keyed.sublist List.filter_sublist,
    fun row member => tracked.labels row (List.mem_of_mem_filter member),
    (tracked.sublist List.filter_sublist).distinct, fun entity member => ?_⟩
  obtain ⟨member, remains⟩ := List.mem_filter.mp member
  refine (tracked.tracks entity member).mono fun row inside same => ?_
  exact List.mem_filter.mpr ⟨inside, same ▸ remains⟩

end Tracked
end AdjacencyForest
