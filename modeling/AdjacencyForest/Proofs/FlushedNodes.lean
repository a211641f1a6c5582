import AdjacencyForest.Proofs.Fetching
import AdjacencyForest.Proofs.Flushing

/-!
# Depth and path across a flush

A flush writes what has changed under the keys that are then known, and a node that it writes loses
its depth and path. All other nodes are known afterwards as they were before.

Main statements: `TreeModel.keys_of_updateNode`, no write gives a row the key of another one;
`clears_of_written`, which nodes a flush leaves as they were, and that all others show neither depth nor
path.
-/

namespace AdjacencyForest

namespace Table

variable {kind : KeyKind} {table : Table} {row : Row} {key other : Value} {change : Row → Row}

theorem contains_modify : (table.modify key change).contains other = table.contains other := by
  have keys : ∀ table : Table, table.contains other = (List.map Row.key table).any (· == other) :=
    fun table => by rw [List.any_map]; rfl
  rw [keys, keys, map_key_modify]

theorem contains_insert :
    (table.insert kind row).contains other = true ↔
      row.key = other ∨ table.contains other = true := by
  simp only [contains_iff, mem_insert]
  constructor
  · rintro ⟨found, rfl | member, same⟩
    · exact .inl same
    · exact .inr ⟨found, member, same⟩
  · rintro (same | ⟨found, member, same⟩)
    · exact ⟨row, .inl rfl, same⟩
    · exact ⟨found, .inr member, same⟩

theorem contains_erase :
    (table.erase key).contains other = true ↔ other ≠ key ∧ table.contains other = true := by
  simp only [contains_iff, mem_erase]
  constructor
  · rintro ⟨found, ⟨member, apart⟩, rfl⟩
    exact ⟨apart, found, member, rfl⟩
  · rintro ⟨apart, found, member, rfl⟩
    exact ⟨found, ⟨member, apart⟩, rfl⟩

end Table

/-- A write to the row of a key gives that row a key which no other row has, and keeps all other
keys. -/
theorem TreeModel.keys_of_updateNode {model : TreeModel} {table result : Table} {key newKey : Value}
    {before after : NodeFields}
    (updated : model.updateNode table key before after = .ok (result, newKey)) :
    (newKey = key ∨ table.contains newKey = false) ∧
      (table.contains key = true → result.contains newKey = true) ∧
      ∀ other, other ≠ key → table.contains other = true → result.contains other = true := by
  unfold updateNode at updated
  dsimp only at updated
  split at updated
  · obtain ⟨rfl, rfl⟩ := Prod.mk.inj (pure_eq_ok.mp updated)
    exact ⟨.inl rfl, id, fun _ _ => id⟩
  obtain ⟨-, -, updated⟩ := bind_eq_ok.mp updated
  generalize changed : table.modify key (fun row => (model.changedColumns before after).foldl
    (model.writeColumn after) row) = middle at updated
  have contains : ∀ other, middle.contains other = table.contains other := fun other =>
    changed ▸ Table.contains_modify
  -- The columns are written in place. Only the key itself can move the row, to a key that is free.
  simp only [← contains]
  split at updated
  · obtain ⟨made, -, updated⟩ := bind_eq_ok.mp updated
    split at updated
    · obtain ⟨rfl, rfl⟩ := Prod.mk.inj (pure_eq_ok.mp updated)
      exact ⟨.inl rfl, id, fun _ _ => id⟩
    split at updated
    · obtain ⟨_, refused, -⟩ := bind_eq_ok.mp updated
      exact absurd refused throw_ne_ok
    next fresh =>
      rw [Bool.not_eq_true] at fresh
      split at updated
      · obtain ⟨rfl, rfl⟩ := Prod.mk.inj (pure_eq_ok.mp updated)
        exact ⟨.inr fresh, fun _ => Table.contains_insert.mpr (.inl rfl), fun other apart known =>
          Table.contains_insert.mpr (.inr (Table.contains_erase.mpr ⟨apart, known⟩))⟩
      · obtain ⟨rfl, rfl⟩ := Prod.mk.inj (pure_eq_ok.mp updated)
        exact ⟨.inl rfl, id, fun _ _ => id⟩
  · obtain ⟨rfl, rfl⟩ := Prod.mk.inj (pure_eq_ok.mp updated)
    exact ⟨.inl rfl, id, fun _ _ => id⟩

/-- The node shows neither depth nor path. -/
structure Entity.IsBare (entity : Entity) : Prop where
  depth : entity.depth = .null
  path : entity.path = .null

namespace Session

/-- Each node is known under a key of its own, which is the key of a row. -/
structure IsIndexed (session : Session) : Prop where
  distinct : (session.entities.map Entity.key).Nodup
  stored : ∀ entity ∈ session.entities, session.table.contains entity.key = true

/-- The second session knows the nodes of the first one outside some keys as they were, and beside them
nodes only that show neither depth nor path. -/
structure Clears (keys : Value → Prop) (before after : Session) : Prop where
  kept : ∀ entity ∈ before.entities, ¬ keys entity.key → entity ∈ after.entities
  origin : ∀ entity ∈ after.entities,
    entity.IsBare ∨ (entity ∈ before.entities ∧ ¬ keys entity.key)

variable {session middle after : Session} {entity : Entity} {items : List Entity}
  {keys others : Value → Prop}

theorem Clears.refl (session : Session) : Clears (fun _ => False) session session :=
  ⟨fun _ member _ => member, fun _ member => .inr ⟨member, id⟩⟩

theorem Clears.trans (first : Clears keys session middle) (second : Clears others middle after) :
    Clears (fun key => keys key ∨ others key) session after where
  kept entity member outside :=
    second.kept entity (first.kept entity member fun inside => outside (.inl inside))
      fun inside => outside (.inr inside)
  origin entity member := by
    rcases second.origin entity member with bare | ⟨member, outside⟩
    · exact .inl bare
    · exact (first.origin entity member).imp_right fun old => ⟨old.1, not_or.mpr ⟨old.2, outside⟩⟩

theorem Clears.congr (clears : Clears keys session after) (same : ∀ key, keys key ↔ others key) :
    Clears others session after := by
  obtain rfl : keys = others := funext fun key => propext (same key)
  exact clears

theorem IsIndexed.withEntity (indexed : session.IsIndexed)
    (stored : session.table.contains entity.key = true) : (session.withEntity entity).IsIndexed where
  distinct := nodup_putEntity indexed.distinct
  stored other member := by
    rcases (mem_putEntity indexed.distinct).mp member with rfl | ⟨member, -⟩
    · exact stored
    · exact indexed.stored other member

/-! ## Writing one after the other -/

theorem clears_of_writeTouched (indexed : session.IsIndexed)
    (stored : session.table.contains entity.key = true)
    (done : writeTouched session entity = .ok after) :
    after.IsIndexed ∧ after.doomed = session.doomed ∧ after.pending = session.pending ∧
      (∀ key, key ≠ entity.key → session.table.contains key = true →
        after.table.contains key = true) ∧
      Clears (· = entity.key) session after := by
  obtain ⟨⟨table, key⟩, updated, made⟩ := bind_eq_ok.mp done
  obtain rfl := pure_eq_ok.mp made
  obtain ⟨free, written, kept⟩ := TreeModel.keys_of_updateNode updated
  have distinct : ((session.entities.filter fun other => other.key != entity.key).map
      Entity.key).Nodup := indexed.distinct.sublist (List.filter_sublist.map Entity.key)
  have known : ∀ other, other ∈ putEntity (entity.written key)
      (session.entities.filter fun other => other.key != entity.key) ↔
        other = entity.written key ∨ (other ∈ session.entities ∧ other.key ≠ entity.key) := by
    intro other
    rw [mem_putEntity distinct, List.mem_filter, bne_iff_ne]
    refine or_congr_right ⟨And.left, fun found => ⟨found, fun same => ?_⟩⟩
    -- The key that was written is not the key of any other row.
    rcases free with rfl | fresh
    · exact found.2 same
    · have inside := indexed.stored other found.1
      rw [same] at inside
      exact Bool.noConfusion (inside.symm.trans fresh)
  refine ⟨⟨nodup_putEntity distinct, fun other member => ?_⟩, rfl, rfl, kept,
    fun other member apart => (known other).mpr (.inr ⟨member, apart⟩), fun other member => ?_⟩
  · rcases (known other).mp member with rfl | ⟨member, apart⟩
    · exact written stored
    · exact kept other.key apart (indexed.stored other member)
  · rcases (known other).mp member with rfl | old
    · exact .inl ⟨rfl, rfl⟩
    · exact .inr old

theorem clears_of_foldlM_writeTouched (indexed : session.IsIndexed)
    (stored : ∀ entity ∈ items, session.table.contains entity.key = true)
    (distinct : (items.map Entity.key).Nodup)
    (done : items.foldlM writeTouched session = .ok after) :
    after.IsIndexed ∧ after.doomed = session.doomed ∧ after.pending = session.pending ∧
      Clears (· ∈ items.map Entity.key) session after := by
  induction items generalizing session with
  | nil =>
    obtain rfl := pure_eq_ok.mp done
    exact ⟨indexed, rfl, rfl, (Clears.refl session).congr fun _ => by simp⟩
  | cons first items ih =>
    obtain ⟨fresh, distinct⟩ := List.nodup_cons.mp distinct
    rw [List.foldlM_cons] at done
    obtain ⟨middle, wrote, later⟩ := bind_eq_ok.mp done
    obtain ⟨indexedMiddle, doomed, pending, kept, clears⟩ :=
      clears_of_writeTouched indexed (stored first List.mem_cons_self) wrote
    obtain ⟨indexedAfter, doomedAfter, pendingAfter, clearsLater⟩ := ih indexedMiddle
      (fun entity member => kept entity.key
        (fun same => fresh (List.mem_map.mpr ⟨entity, member, same⟩))
        (stored entity (List.mem_cons_of_mem _ member))) distinct later
    exact ⟨indexedAfter, doomedAfter.trans doomed, pendingAfter.trans pending,
      (clears.trans clearsLater).congr fun key => by rw [List.map_cons, List.mem_cons]⟩

theorem clears_of_foldlM_writePending {nodes : List NodeFields} (indexed : session.IsIndexed)
    (done : nodes.foldlM writePending session = .ok after) :
    after.IsIndexed ∧ after.doomed = session.doomed ∧ Clears (fun _ => False) session after := by
  induction nodes generalizing session with
  | nil =>
    obtain rfl := pure_eq_ok.mp done
    exact ⟨indexed, rfl, Clears.refl session⟩
  | cons first nodes ih =>
    rw [List.foldlM_cons] at done
    obtain ⟨middle, wrote, later⟩ := bind_eq_ok.mp done
    obtain ⟨table, key, inserted, rfl⟩ := writePending_eq_ok.mp wrote
    obtain ⟨-, -, fresh, rfl⟩ := TreeModel.insertNode_eq_ok.mp inserted
    -- An entity has a row in the table, and the new row's key was not there.
    have apart : ∀ entity ∈ session.entities, entity.key ≠ key := fun entity member same => by
      have inside := indexed.stored entity member
      rw [same] at inside
      exact Bool.noConfusion (inside.symm.trans fresh)
    have indexedMiddle : { session with
        table := session.table.insert session.model.keyKind (session.model.rowOf key first)
        entities := putEntity (.added key first) session.entities }.IsIndexed := by
      refine ⟨nodup_putEntity indexed.distinct, fun entity member => Table.contains_insert.mpr ?_⟩
      rcases (mem_putEntity indexed.distinct).mp member with rfl | ⟨member, -⟩
      · exact .inl rfl
      · exact .inr (indexed.stored entity member)
    obtain ⟨indexedAfter, doomed, clears⟩ := ih indexedMiddle later
    refine ⟨indexedAfter, doomed, fun entity member outside => clears.kept entity
      ((mem_putEntity indexed.distinct).mpr (.inr ⟨member, apart entity member⟩)) outside,
      fun entity member => ?_⟩
    rcases clears.origin entity member with bare | ⟨member, outside⟩
    · exact .inl bare
    · rcases (mem_putEntity indexed.distinct).mp member with rfl | ⟨member, -⟩
      · exact .inl ⟨rfl, rfl⟩
      · exact .inr ⟨member, outside⟩

/-! ## All work of a session -/

/-- A node is left without its parent by the deletions to come. -/
def IsOrphaned (session : Session) (key : Value) : Prop :=
  session.model.navigable = true ∧ key ∉ session.doomed ∧
    ∃ row ∈ session.table, row.key = key ∧ ∃ parent ∈ session.doomed, row.parent.equals parent = true

/-- The next flush writes the node or deletes it. -/
def Writes (session : Session) (entity : Entity) : Prop :=
  entity.touched = true ∨ entity.key ∈ session.doomed ∨ session.IsOrphaned entity.key

theorem entities_of_foldl_orphaned {rows : List Row} (indexed : session.IsIndexed)
    (members : ∀ row ∈ rows, row ∈ session.table) :
    ∃ entities, rows.foldl (fun session row =>
        session.withEntity (orphaned ((session.entity? row.key).getD (.ofRow row)))) session =
      { session with entities := entities } ∧
        { session with entities := entities }.IsIndexed ∧
        (∀ entity ∈ session.entities, entity.key ∉ rows.map Row.key → entity ∈ entities) ∧
        ∀ entity ∈ entities, entity.touched = false →
          entity ∈ session.entities ∧ entity.key ∉ rows.map Row.key := by
  induction rows generalizing session with
  | nil => exact ⟨_, rfl, indexed, fun _ member _ => member, fun _ member _ => ⟨member, by simp⟩⟩
  | cons row rows ih =>
    have rowKey : (orphaned ((session.entity? row.key).getD (.ofRow row))).key = row.key := by
      cases found : session.entity? row.key with
      | none => rfl
      | some entity => exact (key_of_entity? found : entity.key = row.key)
    -- One row is orphaned at a time: its entity is replaced or made, and the others stay.
    have known : ∀ other, other ∈ putEntity
        (orphaned ((session.entity? row.key).getD (.ofRow row))) session.entities ↔
          other = orphaned ((session.entity? row.key).getD (.ofRow row)) ∨
            (other ∈ session.entities ∧ other.key ≠ row.key) := fun other => by
      rw [mem_putEntity indexed.distinct, rowKey]
    obtain ⟨entities, made, indexedAfter, kept, origin⟩ := @ih
      (session.withEntity (orphaned ((session.entity? row.key).getD (.ofRow row))))
      (indexed.withEntity (by
        rw [rowKey]
        exact Table.contains_iff.mpr ⟨row, members row List.mem_cons_self, rfl⟩))
      fun other member => members other (List.mem_cons_of_mem _ member)
    refine ⟨entities, made, indexedAfter, fun entity member outside => ?_,
      fun entity member untouched => ?_⟩
    · rw [List.map_cons, List.mem_cons, not_or] at outside
      exact kept entity ((known entity).mpr (.inr ⟨member, outside.1⟩)) outside.2
    · obtain ⟨found, outside⟩ := origin entity member untouched
      rcases (known entity).mp found with rfl | ⟨found, apart⟩
      · cases untouched
      · exact ⟨found, by simpa using ⟨apart, by simpa using outside⟩⟩

/-- Before a flush writes anything it orphans nodes: those that have nothing to be written then are
those that it does not write at all. -/
theorem exists_orphans (indexed : session.IsIndexed) :
    ∃ known, (if session.model.navigable then session.orphanChildren else session) =
        { session with entities := known } ∧
      { session with entities := known }.IsIndexed ∧
      (∀ entity ∈ session.entities, ¬ session.IsOrphaned entity.key → entity ∈ known) ∧
      ∀ entity ∈ known, entity.touched = false →
        entity ∈ session.entities ∧ ¬ session.IsOrphaned entity.key := by
  split
  next navigable =>
    obtain ⟨known, made, indexedKnown, kept, origin⟩ := entities_of_foldl_orphaned indexed
      (fun row (member : row ∈ List.filter (fun row : Row =>
        session.doomed.any (fun key => row.parent.equals key) && !session.doomed.contains row.key)
          session.table) => List.mem_of_mem_filter member)
    have children : ∀ key, key ∈ List.map Row.key (List.filter (fun row : Row =>
        session.doomed.any (fun key => row.parent.equals key) && !session.doomed.contains row.key)
          session.table) ↔ session.IsOrphaned key := by
      intro key
      simp only [IsOrphaned, navigable, true_and, List.mem_map, List.mem_filter, Bool.and_eq_true,
        List.any_eq_true, Bool.not_eq_true', List.contains_eq_mem, decide_eq_false_iff_not]
      constructor
      · rintro ⟨row, ⟨member, doomed, remains⟩, rfl⟩
        exact ⟨remains, row, member, rfl, doomed⟩
      · rintro ⟨remains, row, member, rfl, doomed⟩
        exact ⟨row, ⟨member, doomed, remains⟩, rfl⟩
    simp only [children] at kept origin
    exact ⟨known, made, indexedKnown, kept, origin⟩
  next loose =>
    have none : ∀ key, ¬ session.IsOrphaned key := fun _ orphaned => loose orphaned.1
    exact ⟨session.entities, rfl, indexed, fun _ member _ => member,
      fun entity member _ => ⟨member, none entity.key⟩⟩

theorem mem_entities_writeDoomed : entity ∈ session.writeDoomed.entities ↔
    entity ∈ session.entities ∧ entity.key ∉ session.doomed := by
  simp [writeDoomed, List.mem_filter]

theorem IsIndexed.writeDoomed (indexed : session.IsIndexed) : session.writeDoomed.IsIndexed where
  distinct := indexed.distinct.sublist (List.filter_sublist.map Entity.key)
  stored entity member := by
    obtain ⟨member, remains⟩ := mem_entities_writeDoomed.mp member
    obtain ⟨row, inside, rowKey⟩ := Table.contains_iff.mp (indexed.stored entity member)
    refine Table.contains_iff.mpr ⟨row, ?_, rowKey⟩
    rw [Session.writeDoomed, Table.foldl_erase]
    exact List.mem_filter.mpr ⟨inside, by simpa [rowKey] using remains⟩

/-- A flush leaves the nodes that it does not write as they were, and all others are gone or show
neither depth nor path. -/
theorem clears_of_written (indexed : session.IsIndexed) (done : session.written = .ok after) :
    after.IsIndexed ∧
      (∀ entity ∈ session.entities, ¬ session.Writes entity → entity ∈ after.entities) ∧
      ∀ entity ∈ after.entities,
        entity.IsBare ∨ (entity ∈ session.entities ∧ ¬ session.Writes entity) := by
  obtain ⟨known, start, indexedKnown, keptKnown, originKnown⟩ := exists_orphans indexed
  obtain ⟨middle, late, wroteTouched, wrotePending, rfl⟩ := exists_of_written start done
  obtain ⟨indexedMiddle, doomed, -, clears⟩ := clears_of_foldlM_writeTouched indexedKnown
    (fun entity member => indexedKnown.stored entity (mem_touchedEntities.mp member).1)
    (nodup_touchedEntities indexedKnown.distinct) wroteTouched
  obtain ⟨indexedLate, doomedLate, clearsLate⟩ :=
    @clears_of_foldlM_writePending { middle with pending := [] } _ _
      ⟨indexedMiddle.distinct, indexedMiddle.stored⟩ wrotePending
  have doomedLate : late.doomed = session.doomed := doomedLate.trans doomed
  have clearsMiddle : Clears (fun _ => False) middle late := ⟨clearsLate.kept, clearsLate.origin⟩
  have clears := clears.trans clearsMiddle
  -- What is written under its key are the touched nodes that are not deleted.
  have written (entity : Entity) (member : entity ∈ known) (remains : entity.key ∉ session.doomed) :
      entity.key ∈ ({ session with entities := known } : Session).touchedEntities.map Entity.key ↔
        entity.touched = true := by
    refine ⟨fun listed => ?_, fun touched => List.mem_map_of_mem
      (mem_touchedEntities.mpr ⟨member, touched, remains⟩)⟩
    obtain ⟨other, found, same⟩ := List.mem_map.mp listed
    obtain ⟨otherMember, touched, -⟩ := mem_touchedEntities.mp found
    obtain rfl := List.inj_on_of_nodup_map indexedKnown.distinct otherMember member same
    exact touched
  refine ⟨indexedLate.writeDoomed, fun entity member idle => ?_, fun entity member => ?_⟩
  · simp only [Writes, not_or, Bool.not_eq_true] at idle
    obtain ⟨untouched, remains, parented⟩ := idle
    have memberKnown := keptKnown entity member parented
    refine mem_entities_writeDoomed.mpr ⟨clears.kept entity memberKnown ?_, doomedLate ▸ remains⟩
    rw [or_false, written entity memberKnown remains, untouched]
    exact Bool.false_ne_true
  · obtain ⟨member, remains⟩ := mem_entities_writeDoomed.mp member
    rw [doomedLate] at remains
    refine (clears.origin entity member).imp_right fun ⟨memberKnown, outside⟩ => ?_
    rw [or_false, written entity memberKnown remains, Bool.not_eq_true] at outside
    obtain ⟨found, parented⟩ := originKnown entity memberKnown outside
    refine ⟨found, ?_⟩
    simp [Writes, outside, remains, parented]

theorem idle_of_clean (clean : session.isClean = true) (member : entity ∈ session.entities) :
    ¬ session.Writes entity := by
  have clean : session.pending = [] ∧ session.doomed = [] ∧
      ∀ entity ∈ session.entities, entity.touched = false := by
    simpa [isClean, and_assoc] using clean
  simp [Writes, IsOrphaned, clean.2.1, clean.2.2 entity member]

end Session
end AdjacencyForest
