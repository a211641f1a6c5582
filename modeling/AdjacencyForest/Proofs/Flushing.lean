import AdjacencyForest.Proofs.Loading
import AdjacencyForest.Proofs.Tracking

/-!
# Flushing

A flush that succeeds leaves nothing to write and all entities tracked by the table. Unless nodes are
deleted too, it leaves each changed entity and each new node as they are shown, with a row that records
them.

Main statements: `foldlM_writeTouched` and `foldlM_writePending`, what writing the changes and the new
nodes leaves; `settles_of_written`, the whole flush.
-/

namespace AdjacencyForest

/-- What a session knows of a new node once it is written under a key. -/
def Entity.added (key : Value) (node : NodeFields) : Entity where
  key := key
  current := node.identified key
  stored := node.identified key

namespace Session

variable {session after : Session} {items : List Entity} {entity : Entity}

/-- The changes of an entity are written: it is known as stored, and its row records it. -/
structure WritesChange (table : Table) (entities : List Entity) (entity : Entity) : Prop where
  known : entity.written entity.key ∈ entities
  records : table.Records entity.key entity.current
    (entity.stored.payload.alike entity.current.payload = false)

/-- A new node is written: it is known under its key, and its row records it. -/
structure WritesNew (table : Table) (entities : List Entity) (node : NodeFields) (key : Value) :
    Prop where
  given : node.key ≠ .null → key.toJson = node.key
  known : Entity.added key node ∈ entities
  records : table.Records key (node.identified key) True

/-- Writing the changes of one entity: rows of other keys stay, and so does what is known of them. -/
theorem exists_writeTouched (tracked : Tracked session.model.keyKind session.table session.entities)
    (member : entity ∈ session.entities) (done : session.writeTouched entity = .ok after) :
    ∃ table entities, after = { session with table := table, entities := entities } ∧
      Tracked session.model.keyKind table entities ∧
      (∀ row ∈ session.table, row.key ≠ entity.key → row ∈ table) ∧
      table.Records entity.key entity.current
        (entity.stored.payload.alike entity.current.payload = false) ∧
      ∀ other, other ∈ entities ↔ other = entity.written entity.key ∨
        (other ∈ session.entities ∧ other.key ≠ entity.key) := by
  obtain ⟨⟨table, key⟩, updated, made⟩ := bind_eq_ok.mp done
  obtain rfl := pure_eq_ok.mp made
  have tracks := tracked.tracks entity member
  obtain ⟨rfl, kept, records, trackedOthers⟩ := tracked.update tracks updated
  have trackedAfter := trackedOthers.put (Entity.tracks_of_records tracks.typed rfl tracks.key
    records : (entity.written entity.key).Tracks session.model.keyKind table)
  refine ⟨_, _, rfl, trackedAfter, kept, records, fun other => ?_⟩
  rw [mem_putEntity trackedOthers.distinct]
  refine or_congr_right ?_
  rw [List.mem_filter, bne_iff_ne]
  exact ⟨fun found => found.1, fun found => ⟨found, found.2⟩⟩

theorem foldlM_writeTouched
    (tracked : Tracked session.model.keyKind session.table session.entities)
    (members : ∀ entity ∈ items, entity ∈ session.entities)
    (distinct : (items.map Entity.key).Nodup)
    (done : items.foldlM writeTouched session = .ok after) :
    ∃ table entities, after = { session with table := table, entities := entities } ∧
      Tracked session.model.keyKind table entities ∧
      (∀ row ∈ session.table, row.key ∉ items.map Entity.key → row ∈ table) ∧
      (∀ entity ∈ items, WritesChange table entities entity) ∧
      (∀ entity ∈ session.entities, entity.key ∉ items.map Entity.key → entity ∈ entities) ∧
      ∀ entity ∈ entities, entity.touched = true →
        entity ∈ session.entities ∧ entity.key ∉ items.map Entity.key := by
  -- The nodes have keys of their own, so what is written of one stays while the later ones are.
  induction items generalizing session with
  | nil =>
    obtain rfl := pure_eq_ok.mp done
    exact ⟨_, _, rfl, tracked, fun _ member _ => member, by simp, fun _ member _ => member,
      fun _ member _ => ⟨member, by simp⟩⟩
  | cons first items ih =>
    obtain ⟨fresh, distinct⟩ := List.nodup_cons.mp distinct
    rw [List.foldlM_cons] at done
    obtain ⟨middle, wrote, later⟩ := bind_eq_ok.mp done
    obtain ⟨table, middleEntities, rfl, trackedMiddle, kept, records, known⟩ :=
      exists_writeTouched tracked (members first List.mem_cons_self) wrote
    have apart : ∀ entity ∈ items, entity.key ≠ first.key := fun entity member same =>
      fresh (List.mem_map.mpr ⟨entity, member, same⟩)
    obtain ⟨table', entities, rfl, trackedAfter, rows, written, others, origin⟩ := ih trackedMiddle
      (fun entity member => (known entity).mpr
        (.inr ⟨members entity (List.mem_cons_of_mem _ member), apart entity member⟩)) distinct later
    refine ⟨table', entities, rfl, trackedAfter, ?_, ?_, ?_, ?_⟩
    · intro row member outside
      rw [List.map_cons, List.mem_cons, not_or] at outside
      exact rows row (kept row member outside.1) outside.2
    · intro entity member
      rcases List.mem_cons.mp member with rfl | member
      · exact ⟨others _ ((known _).mpr (.inl rfl)) fresh,
          records.mono fun row member same => rows row member (same ▸ fresh)⟩
      · exact written entity member
    · intro entity member outside
      rw [List.map_cons, List.mem_cons, not_or] at outside
      exact others entity ((known entity).mpr (.inr ⟨member, outside.1⟩)) outside.2
    · intro entity member touched
      obtain ⟨found, outside⟩ := origin entity member touched
      rcases (known entity).mp found with rfl | ⟨found, different⟩
      · cases touched
      · exact ⟨found, by simpa using ⟨different, by simpa using outside⟩⟩

theorem writePending_eq_ok {node : NodeFields} : session.writePending node = .ok after ↔
    ∃ table key, session.model.insertNode session.table node = .ok (table, key) ∧
      after = { session with
        table := table
        entities := putEntity (.added key node) session.entities } := by
  unfold writePending
  rw [bind_eq_ok]
  constructor
  · rintro ⟨⟨table, key⟩, inserted, made⟩
    exact ⟨table, key, inserted, (pure_eq_ok.mp made).symm⟩
  · rintro ⟨table, key, inserted, rfl⟩
    exact ⟨(table, key), inserted, rfl⟩

theorem foldlM_writePending {nodes : List NodeFields}
    (tracked : Tracked session.model.keyKind session.table session.entities)
    (typed : ∀ node ∈ nodes, node.IsTyped session.model.keyKind)
    (done : nodes.foldlM writePending session = .ok after) :
    ∃ table entities, after = { session with table := table, entities := entities } ∧
      Tracked session.model.keyKind table entities ∧
      (∀ row ∈ session.table, row ∈ table) ∧
      (∃ keys, List.Forall₂ (WritesNew table entities) nodes keys) ∧
      (∀ entity ∈ session.entities, entity ∈ entities) ∧
      ∀ entity ∈ entities, entity.touched = true → entity ∈ session.entities := by
  induction nodes generalizing session with
  | nil =>
    obtain rfl := pure_eq_ok.mp done
    exact ⟨_, _, rfl, tracked, fun _ member => member, ⟨[], .nil⟩, fun _ member => member,
      fun _ member _ => member⟩
  | cons first nodes ih =>
    rw [List.foldlM_cons] at done
    obtain ⟨middle, wrote, later⟩ := bind_eq_ok.mp done
    obtain ⟨table, key, inserted, rfl⟩ := writePending_eq_ok.mp wrote
    obtain ⟨given, fresh, kept, records, typedFirst, trackedOthers⟩ :=
      tracked.insert (typed first List.mem_cons_self) inserted
    have trackedMiddle := trackedOthers.put (Entity.tracks_of_records typedFirst rfl
      (NodeFields.key_identified given) records :
        (Entity.added key first).Tracks session.model.keyKind table)
    -- Later nodes get keys that are not taken: they leave this one's row and entity as they are.
    obtain ⟨table', entities, rfl, trackedAfter, rows, ⟨keys, written⟩, others, origin⟩ :=
      @ih { session with
          table := table
          entities := putEntity (.added key first) session.entities } trackedMiddle
        (fun node member => typed node (List.mem_cons_of_mem _ member)) later
    refine ⟨table', entities, rfl, trackedAfter, fun row member => rows row (kept row member),
      ⟨key :: keys, .cons ⟨given, ?_, ?_⟩ written⟩, ?_, ?_⟩
    · exact others _ ((mem_putEntity tracked.distinct).mpr (.inl rfl))
    · exact records.mono fun row member _ => rows row member
    · exact fun entity member => others entity
        ((mem_putEntity tracked.distinct).mpr (.inr ⟨member, fresh entity member⟩))
    · intro entity member touched
      rcases (mem_putEntity tracked.distinct).mp (origin entity member touched) with rfl | ⟨found, -⟩
      · cases touched
      · exact found

/-! ## All work of a session -/

theorem foldl_orphaned {rows : List Row}
    (tracked : Tracked session.model.keyKind session.table session.entities)
    (members : ∀ row ∈ rows, row ∈ session.table) :
    ∃ entities, rows.foldl (fun session row =>
        session.withEntity (orphaned ((session.entity? row.key).getD (.ofRow row)))) session =
      { session with entities := entities } ∧
        Tracked session.model.keyKind session.table entities := by
  induction rows generalizing session with
  | nil => exact ⟨_, rfl, tracked⟩
  | cons row rows ih =>
    have tracks : (orphaned ((session.entity? row.key).getD (.ofRow row))).Tracks
        session.model.keyKind session.table := by
      refine Entity.Tracks.setValue ?_ Column.noConfusion (.inr (.inl rfl))
      cases found : session.entity? row.key with
      | none => exact Entity.tracks_ofRow tracked.keyed tracked.labels (members row List.mem_cons_self)
      | some entity => exact tracked.tracks entity (List.mem_of_find?_eq_some found)
    exact ih (tracked.put tracks) fun other member => members other (List.mem_cons_of_mem _ member)

theorem mem_touchedEntities : entity ∈ session.touchedEntities ↔
    entity ∈ session.entities ∧ entity.touched = true ∧ entity.key ∉ session.doomed := by
  simp [touchedEntities]

theorem nodup_touchedEntities (distinct : (session.entities.map Entity.key).Nodup) :
    (session.touchedEntities.map Entity.key).Nodup :=
  ((List.mergeSort_perm _ _).map Entity.key).nodup_iff.mpr
    (distinct.sublist (List.filter_sublist.map Entity.key))

/-- What a flush that succeeds makes of a session. -/
structure Settles (before after : Session) : Prop where
  frame : after = { before with
    table := after.table
    entities := after.entities
    pending := []
    doomed := [] }
  tracked : Tracked before.model.keyKind after.table after.entities
  clean : ∀ entity ∈ after.entities, entity.touched = false
  changes : before.doomed = [] → ∀ entity ∈ before.entities, entity.touched = true →
    WritesChange after.table after.entities entity
  additions : before.doomed = [] →
    ∃ keys, List.Forall₂ (WritesNew after.table after.entities) before.pending keys

/-- The children of deleted nodes are known before anything is written; without deletions nothing more
is known than before. -/
theorem exists_known (tracked : Tracked session.model.keyKind session.table session.entities) :
    ∃ known, (if session.model.navigable then session.orphanChildren else session) =
        { session with entities := known } ∧
      Tracked session.model.keyKind session.table known ∧
      (session.doomed = [] → known = session.entities) := by
  split
  · obtain ⟨known, orphans, trackedKnown⟩ := foldl_orphaned tracked
      (fun row (member : row ∈ List.filter (fun row : Row =>
        session.doomed.any (fun key => row.parent.equals key) && !session.doomed.contains row.key)
          session.table) => List.mem_of_mem_filter member)
    refine ⟨known, orphans, trackedKnown, fun none => ?_⟩
    have untouched : session.orphanChildren = session := by
      simp [orphanChildren, none]
    exact congrArg Session.entities (orphans.symm.trans untouched)
  · exact ⟨_, rfl, tracked, fun _ => rfl⟩

/-- The parts of a flush: the changes, the new nodes, the deletions. -/
theorem exists_of_written {known : List Entity}
    (start : (if session.model.navigable then session.orphanChildren else session) =
      { session with entities := known })
    (done : session.written = .ok after) :
    ∃ middle late,
      ({ session with entities := known } : Session).touchedEntities.foldlM writeTouched
        { session with entities := known } = .ok middle ∧
      middle.pending.foldlM writePending { middle with pending := [] } = .ok late ∧
      after = late.writeDoomed := by
  unfold written at done
  rw [start] at done
  obtain ⟨middle, wroteTouched, done⟩ := bind_eq_ok.mp done
  obtain ⟨late, wrotePending, done⟩ := bind_eq_ok.mp done
  exact ⟨middle, late, wroteTouched, wrotePending, (pure_eq_ok.mp done).symm⟩

theorem settles_of_written (tracked : Tracked session.model.keyKind session.table session.entities)
    (typed : ∀ node ∈ session.pending, node.IsTyped session.model.keyKind)
    (done : session.written = .ok after) : session.Settles after := by
  obtain ⟨known, start, trackedStart, same⟩ := exists_known tracked
  obtain ⟨middle, late, wroteTouched, wrotePending, rfl⟩ := exists_of_written start done
  obtain ⟨table, entities, rfl, trackedMiddle, -, written, -, origin⟩ :=
    @foldlM_writeTouched { session with entities := known } _ _ trackedStart
      (fun entity member => (mem_touchedEntities.mp member).1)
      (nodup_touchedEntities trackedStart.distinct) wroteTouched
  obtain ⟨table', entities', rfl, trackedLate, rows, ⟨keys, news⟩, others, originLate⟩ :=
    @foldlM_writePending { session with table := table, entities := entities, pending := [] } _ _
      trackedMiddle typed wrotePending
  refine ⟨rfl, trackedLate.erase session.doomed, fun entity member => ?_, fun none entity found
    touched => ?_, fun none => ⟨keys, ?_⟩⟩
  · obtain ⟨found, remains⟩ := List.mem_filter.mp member
    -- A node that is touched at the end was so at the start, and then it was written.
    by_contra touched
    rw [Bool.not_eq_false] at touched
    obtain ⟨first, outside⟩ := origin entity (originLate entity found touched) touched
    refine outside (List.mem_map.mpr ⟨entity, mem_touchedEntities.mpr ⟨first, touched, ?_⟩, rfl⟩)
    simpa using remains
  · have change := written entity (mem_touchedEntities.mpr
      ⟨same none ▸ found, touched, by simp [none]⟩)
    refine ⟨List.mem_filter.mpr ⟨others _ change.known, by simp [none]⟩,
      change.records.mono fun row member _ => ?_⟩
    change row ∈ session.doomed.foldl (fun table key => Table.erase key table) table'
    rw [none]
    exact rows row member
  · refine news.imp fun node key new => ⟨new.given, List.mem_filter.mpr ⟨new.known, by simp [none]⟩,
      new.records.mono fun row member _ => ?_⟩
    change row ∈ session.doomed.foldl (fun table key => Table.erase key table) table'
    rw [none]
    exact member

end Session
end AdjacencyForest
