import AdjacencyForest.Proofs.Transparency

/-!
# Queries of the base table and pending work

A query of the base table writes nothing before it reads: it selects among the rows as they were
flushed last, and shows them by what is known of their nodes. So it sees a change that is pending only
where its node is selected without it.

Main statements: `run_answer_base`, what a query of the base table answers; `exists_edits`, what a
flush does that only has changes to write; `answer_base`, when a query answers what it would answer
after a flush.
-/

namespace AdjacencyForest

/-- Both versions of the node have the same in the column, as data that are alike. -/
def Entity.KeepsColumn (entity : Entity) (column : Column) : Prop :=
  (entity.stored.value column).alike (entity.current.value column) = true

namespace Session

variable {session after : Session} {setting : Setting} {query : TreeQuery} {rows : List TreeRow}
  {treeRow : TreeRow} {entity : Entity} {items : List Entity} {kind : KeyKind}

/-- The node of a row: the one that is known, with its pending changes, or a new one. -/
def nodeOf (session : Session) (treeRow : TreeRow) : Entity :=
  (session.entity? treeRow.row.key).getD (.ofRow treeRow.row)

namespace Asked

/-- What is answered with some rows of the base table. -/
def answerOf (session : Session) (rows : List TreeRow) : Asked → Answer
  | all => .nodes (rows.map session.nodeOf)
  | first => .node (rows.head?.map session.nodeOf)
  | count => .number rows.length

/-- The rows that become known. -/
def rowsOf (rows : List TreeRow) : Asked → List TreeRow
  | all => rows
  | first => rows.take 1
  | count => []

theorem mem_of_mem_rowsOf {asked : Asked} (member : treeRow ∈ asked.rowsOf rows) : treeRow ∈ rows := by
  cases asked with
  | all => exact member
  | first => exact List.mem_of_mem_take member
  | count => cases member

end Asked

/-! ## Answers of the base table -/

theorem run_take_base (keyed : session.table.IsKeyed kind) (base : query.expression = none)
    (members : ∀ treeRow ∈ rows, treeRow.row ∈ session.table) :
    (take query rows).run.run session = (.ok (rows.map session.nodeOf), session.learn rows) := by
  have known : rows.filterMap (fun treeRow => (session.learn rows).entity? treeRow.row.key) =
      rows.map session.nodeOf := by
    rw [← List.filterMap_eq_map]
    refine List.filterMap_congr fun treeRow member => ?_
    have same : ∀ other ∈ rows, other.row.key = treeRow.row.key → other.row = treeRow.row :=
      fun other found => keyed.eq_of_key (members other found) (members treeRow member)
    simp only [Function.comp_apply, nodeOf]
    cases found : session.entity? treeRow.row.key with
    | some entity => rw [entity?_learn_of_known found, Option.getD_some]
    | none => rw [exists_entity_learn member found same, Option.getD_none]
  unfold take
  simp only [base, Option.isSome_none, Bool.false_eq_true, if_false]
  rw [run_bind_of_ok (run_modify _ _), run_bind_of_ok (run_get _), known]
  rfl

/-- All that comes before a query of the base table is a look at the session and at the values. -/
theorem run_prepare_base (bound : query.bound = true) (base : query.expression = none) :
    (prepare query).run.run session =
      (if session.broken then .error .pendingRollback
        else TreeQuery.checkParameters query.parameters, session) :=
  run_prepare_of_base bound (congrArg Option.isSome base)

theorem run_prepare_base_cases (bound : query.bound = true) (base : query.expression = none)
    (session : Session) :
    (∃ fault, (prepare query).run.run session = (.error fault, session)) ∨
      (session.broken = false ∧ TreeQuery.checkParameters query.parameters = .ok ()) := by
  rw [run_prepare_of_base bound (congrArg Option.isSome base)]
  cases verdict : session.verdict query with
  | error fault => exact .inl ⟨fault, rfl⟩
  | ok => exact .inr (verdict_eq_ok.mp verdict)

theorem run_rows_base (bound : query.bound = true) (base : query.expression = none)
    (sound : session.broken = false)
    (accepted : TreeQuery.checkParameters query.parameters = .ok ())
    (found : query.rows? session.table = some rows) :
    (Session.rows query).run.run session = (.ok rows, session) := by
  rw [run_rows_of_prepare (run_prepare_of_accepted bound base sound accepted), found]
  rfl

theorem run_count_base (bound : query.bound = true) (base : query.expression = none)
    (sound : session.broken = false)
    (accepted : TreeQuery.checkParameters query.parameters = .ok ())
    (found : query.rows? session.table = some rows) :
    (Session.count query).run.run session = (.ok rows.length, session) := by
  have counted : query.count? session.table = some rows.length := by
    obtain ⟨source, yields, rfl⟩ := Option.map_eq_some_iff.mp found
    rw [TreeQuery.length_arranged, TreeQuery.count?, yields, Option.map_some]
  rw [run_count_eq, run_prepare_of_accepted bound base sound accepted]
  dsimp only
  rw [counted]
  rfl

/-- A query of the base table answers with the nodes of its rows as they are known, and all that it
leaves behind is that they are known. -/
theorem run_answer_base (keyed : session.table.IsKeyed kind) (bound : query.bound = true)
    (base : query.expression = none) (sound : session.broken = false)
    (accepted : TreeQuery.checkParameters query.parameters = .ok ())
    (found : query.rows? session.table = some rows) (asked : Asked) :
    (answer asked query).run.run session =
      (.ok (asked.answerOf session rows), session.learn (asked.rowsOf rows)) := by
  have members := mem_of_rows? found
  have read := run_rows_base bound base sound accepted found
  cases asked with
  | all =>
    have done := (run_bind_of_ok read).trans (run_take_base keyed base members)
    exact run_bind_of_ok done
  | first =>
    have done : (Session.first query).run.run session =
        (.ok (rows.head?.map session.nodeOf), session.learn (rows.take 1)) := by
      unfold Session.first
      rw [run_bind_of_ok read, run_bind_of_ok (run_take_base keyed base fun treeRow member =>
        members treeRow (List.mem_of_mem_take member))]
      cases rows <;> rfl
    exact run_bind_of_ok done
  | count => exact run_bind_of_ok (run_count_base bound base sound accepted found)

/-! ## A flush of changes -/

/-- What writing some changes makes of a session: the rows of the changed nodes change, where the nodes
have changed, and all nodes show what they showed. -/
structure Edits (items : List Entity) (change : Row → Row) (before after : Session) : Prop where
  table : after.table = List.map change before.table
  key : ∀ row, (change row).key = row.key
  others : ∀ row, row.key ∉ items.map Entity.key → change row = row
  columns : ∀ column, (∀ entity ∈ items, entity.KeepsColumn column) →
    ∀ row, (change row).value column = row.value column
  shown : ∀ key, (after.entity? key).map Entity.current = (before.entity? key).map Entity.current

theorem value_revised {model : TreeModel} {before after : NodeFields} {row : Row} {column : Column}
    (sameKey : before.key.alike after.key = true)
    (same : (before.value column).alike (after.value column) = true) :
    (model.revised before after row).value column = row.value column := by
  rw [TreeModel.revised_eq sameKey]
  cases column with
  | key => rfl
  | parent => exact if_pos same
  | label => exact if_pos same
  | payload =>
    have kept : (if before.payload.alike after.payload then row.payload
        else some (storedPayload after.payload)) = row.payload := if_pos same
    simp only [Row.value, kept]

theorem table_writeTouched (tracks : entity.Tracks session.model.keyKind session.table)
    (done : session.writeTouched entity = .ok after) :
    after.table = session.table.modify entity.key
      (session.model.revised entity.stored entity.current) := by
  obtain ⟨⟨result, key⟩, updated, made⟩ := bind_eq_ok.mp done
  obtain ⟨-, -, rfl⟩ := (TreeModel.updateNode_eq_revised tracks.alikeKey).mp updated
  exact (congrArg Session.table (pure_eq_ok.mp made)).symm

theorem shown_writeTouched
    (tracked : Tracked session.model.keyKind session.table session.entities)
    (member : entity ∈ session.entities) (done : session.writeTouched entity = .ok after)
    (key : Value) :
    (after.entity? key).map Entity.current = (session.entity? key).map Entity.current := by
  obtain ⟨table, entities, rfl, trackedAfter, -, -, known⟩ := exists_writeTouched tracked member done
  by_cases here : entity.key = key
  · subst here
    have written : entities.find? (fun other => other.key == entity.key) =
        some (entity.written entity.key) :=
      trackedAfter.mem_iff_entity?.mpr ⟨(known _).mpr (.inl rfl), rfl⟩
    have before : session.entities.find? (fun other => other.key == entity.key) = some entity :=
      tracked.mem_iff_entity?.mpr ⟨member, rfl⟩
    exact (congrArg (Option.map Entity.current) written).trans
      (congrArg (Option.map Entity.current) before).symm
  · refine congrArg (Option.map Entity.current) (Option.ext fun other => ?_)
    refine trackedAfter.mem_iff_entity?.trans (Iff.trans ?_ tracked.mem_iff_entity?.symm)
    rw [known]
    constructor
    · rintro ⟨rfl | ⟨found, -⟩, rfl⟩
      · exact absurd rfl here
      · exact ⟨found, rfl⟩
    · rintro ⟨found, rfl⟩
      exact ⟨.inr ⟨found, fun same => here same.symm⟩, rfl⟩

theorem exists_edits_writeTouched
    (tracked : Tracked session.model.keyKind session.table session.entities)
    (member : entity ∈ session.entities) (done : session.writeTouched entity = .ok after) :
    ∃ change, Edits [entity] change session after := by
  have tracks := tracked.tracks entity member
  refine ⟨_, table_writeTouched tracks done, fun row => ?_, fun row other => ?_,
    fun column kept row => ?_, shown_writeTouched tracked member done⟩
  · dsimp only
    split <;> rfl
  · exact if_neg (by simpa using other)
  · dsimp only
    split
    · have same := @value_revised session.model _ _ row column tracks.alikeKey
        (kept entity (by simp))
      cases column with
      | key => rfl
      | parent | label | payload => exact same
    · rfl

theorem Edits.refl (session : Session) : Edits [] id session session :=
  ⟨(List.map_id _).symm, fun _ => rfl, fun _ _ => rfl, fun _ _ _ => rfl, fun _ => rfl⟩

theorem Edits.trans {middle : Session} {others : List Entity} {change next : Row → Row}
    (first : Edits items change session middle) (second : Edits others next middle after) :
    Edits (items ++ others) (next ∘ change) session after where
  table := by rw [second.table, first.table, List.map_map]
  key row := (second.key _).trans (first.key row)
  others row outside := by
    rw [List.map_append, List.mem_append, not_or] at outside
    have same := first.others row outside.1
    rw [Function.comp_apply, same]
    exact second.others row outside.2
  columns column kept row := by
    rw [List.forall_mem_append] at kept
    exact (second.columns column kept.2 _).trans (first.columns column kept.1 row)
  shown key := (second.shown key).trans (first.shown key)

theorem exists_edits_foldlM
    (tracked : Tracked session.model.keyKind session.table session.entities)
    (members : ∀ entity ∈ items, entity ∈ session.entities)
    (distinct : (items.map Entity.key).Nodup)
    (done : items.foldlM writeTouched session = .ok after) :
    ∃ change, Edits items change session after := by
  induction items generalizing session with
  | nil =>
    obtain rfl := pure_eq_ok.mp done
    exact ⟨id, .refl session⟩
  | cons first items ih =>
    obtain ⟨fresh, distinct⟩ := List.nodup_cons.mp distinct
    rw [List.foldlM_cons] at done
    obtain ⟨middle, wrote, later⟩ := bind_eq_ok.mp done
    have member := members first List.mem_cons_self
    obtain ⟨change, edits⟩ := exists_edits_writeTouched tracked member wrote
    obtain ⟨table, entities, rfl, trackedMiddle, -, -, known⟩ :=
      exists_writeTouched tracked member wrote
    have apart : ∀ entity ∈ items, entity.key ≠ first.key := fun entity member same =>
      fresh (List.mem_map.mpr ⟨entity, member, same⟩)
    obtain ⟨next, editsLater⟩ := ih trackedMiddle (fun entity member => (known entity).mpr
      (.inr ⟨members entity (List.mem_cons_of_mem _ member), apart entity member⟩)) distinct later
    exact ⟨_, edits.trans editsLater⟩

/-- A flush that has only changes to write. -/
theorem exists_edits (coherent : session.IsCoherent setting) (pending : session.pending = [])
    (doomed : session.doomed = []) (flushes : flush.run.run session = (.ok (), after)) :
    ∃ items change, (∀ entity ∈ items, entity ∈ session.entities ∧ entity.touched = true) ∧
      Edits items change session after := by
  rcases run_flush_cases session with ⟨-, done⟩ | ⟨late, wrote, done⟩ | ⟨fault, done | done⟩ <;>
    rw [done] at flushes <;> cases flushes
  · exact ⟨[], id, by simp, .refl session⟩
  · obtain rfl := coherent.configured
    obtain ⟨known, start, -, same⟩ := exists_known coherent.tracked
    obtain rfl := same doomed
    obtain ⟨middle, late, wroteTouched, wrotePending, rfl⟩ := exists_of_written start wrote
    obtain ⟨change, edits⟩ := exists_edits_foldlM coherent.tracked
      (fun entity member => (mem_touchedEntities.mp member).1)
      (nodup_touchedEntities coherent.tracked.distinct) wroteTouched
    obtain ⟨table, entities, rfl, -⟩ := foldlM_writeTouched coherent.tracked
      (fun entity member => (mem_touchedEntities.mp member).1)
      (nodup_touchedEntities coherent.tracked.distinct) wroteTouched
    -- Nothing is added and nothing deleted, so the first round of writing is all of it.
    simp only [pending, List.foldlM_nil] at wrotePending
    obtain rfl := pure_eq_ok.mp wrotePending
    have known : (entities.filter fun entity => !session.doomed.contains entity.key) = entities :=
      List.filter_eq_self.mpr fun entity _ => by simp [doomed]
    have table : session.doomed.foldl (fun table key => Table.erase key table) table = table := by
      rw [doomed]
      rfl
    refine ⟨_, change, fun entity member =>
      ⟨(mem_touchedEntities.mp member).1, (mem_touchedEntities.mp member).2.1⟩, ?_⟩
    refine { edits with table := table.trans edits.table, shown := fun key => ?_ }
    unfold entity? writeDoomed
    dsimp only
    rw [known]
    exact edits.shown key

/-! ## Chains that read unchanged columns -/

end Session

/-- The columns whose values a scope on the base table depends on, besides the keys. -/
def Scope.Reads (base : TreeQuery) (column : Column) : Scope → Prop
  | .isRoot | .hasParent | .hasChildren | .isLeaf => column = .parent
  | .satisfying constraint => base.field constraint.column = .ok (.column column)
  | .orderBy name _ => base.field name = .ok (.column column)
  | .whereDepth _ _ | .breadthFirst | .depthFirst => False

/-- The row with its columns changed. -/
def TreeRow.changed (change : Row → Row) (treeRow : TreeRow) : TreeRow :=
  { treeRow with row := change treeRow.row }

namespace TreeRow

variable {change : Row → Row} {treeRow other : TreeRow}

theorem value_changed {column : Column}
    (same : (change treeRow.row).value column = treeRow.row.value column) :
    (treeRow.changed change).value (.column column) = treeRow.value (.column column) := same

theorem meets_congr {model : TreeModel} {field : Field} {constraint : Constraint}
    (same : treeRow.value field = other.value field) :
    treeRow.meets model field constraint = other.meets model field constraint := by
  cases constraint <;> simp only [meets, compares, same]

end TreeRow

namespace TreeQuery

variable {model : TreeModel} {bound : Bool} {query : TreeQuery} {scopes : List Scope} {table : Table}
  {kind : KeyKind} {change : Row → Row} {treeRow : TreeRow}

theorem field_ofModel {name : String} {field : Field}
    (named : (ofModel model bound).field name = .ok field) : ∃ column, field = .column column := by
  unfold TreeQuery.field ofModel at named
  dsimp only at named
  cases found : model.column? name with
  | none => simp [found] at named
  | some column =>
    simp only [found, Option.map_some, Except.ok.injEq] at named
    exact ⟨column, named.symm⟩

theorem keeps_changed {scope : Scope} (key : ∀ row, (change row).key = row.key)
    (same : ∀ column, scope.Reads (ofModel model bound) column →
      ∀ row, (change row).value column = row.value column) :
    scope.keeps (ofModel model bound) (List.map change table) (treeRow.changed change) =
      scope.keeps (ofModel model bound) table treeRow := by
  cases scope with
  | isRoot | hasParent =>
    have parent : (change treeRow.row).parent = treeRow.row.parent := same .parent rfl _
    simp only [Scope.keeps, TreeRow.changed, parent]
  | hasChildren | isLeaf =>
    have parent (row : Row) : (change row).parent = row.parent := same .parent rfl row
    simp [Scope.keeps, TreeRow.changed, key, parent]
  | satisfying constraint =>
    cases named : (ofModel model bound).field constraint.column with
    | error fault => simp only [Scope.keeps, named]
    | ok field =>
      obtain ⟨column, rfl⟩ := field_ofModel named
      have value := TreeRow.value_changed (same column named treeRow.row)
      simp only [Scope.keeps, named]
      exact TreeRow.meets_congr value
  | whereDepth | breadthFirst | depthFirst | orderBy => rfl

theorem compareRows_changed
    (same : ∀ scope ∈ scopes, ∀ column, scope.Reads (ofModel model bound) column →
      ∀ row, (change row).value column = row.value column) (left right : TreeRow) :
    compareRows ((ofModel model bound).sortKeys scopes) (left.changed change) (right.changed change) =
      compareRows ((ofModel model bound).sortKeys scopes) left right := by
  have each (key : SortKey) (found : key ∈ (ofModel model bound).sortKeys scopes) (treeRow : TreeRow) :
      (treeRow.changed change).value key.field = treeRow.value key.field := by
    obtain ⟨scope, member, given⟩ := List.mem_filterMap.mp found
    cases scope with
    | orderBy name descending =>
      simp only [Scope.sortKey?] at given
      cases named : (ofModel model bound).field name with
      | error fault => simp [named] at given
      | ok field =>
        simp only [named, Option.some.injEq] at given
        subst given
        obtain ⟨column, rfl⟩ := field_ofModel named
        exact TreeRow.value_changed (same _ member column named treeRow.row)
    | breadthFirst | depthFirst =>
      obtain rfl := Option.some.inj given
      rfl
    | isRoot | hasParent | hasChildren | isLeaf | whereDepth | satisfying => cases given
  unfold compareRows
  generalize (ofModel model bound).sortKeys scopes = keys at each
  induction keys with
  | nil => rfl
  | cons key keys ih =>
    rw [List.foldr_cons, List.foldr_cons, ih fun other found => each other (by simp [found])]
    simp only [compareBy, each key (by simp)]

theorem arranged_map {keys : List SortKey} {rows : List TreeRow} {lift : TreeRow → TreeRow}
    (same : ∀ left right, compareRows keys (lift left) (lift right) = compareRows keys left right) :
    arranged keys (rows.map lift) = (arranged keys rows).map lift := by
  unfold arranged
  split
  · rfl
  · refine (List.map_mergeSort fun left _ right _ => ?_).symm
    rw [same]

theorem rows?_ofModel : (ofModel model bound).rows? table = some (List.map TreeRow.ofRow table) := by
  have every : (ofModel model bound).matching table (List.map TreeRow.ofRow table) =
      List.map TreeRow.ofRow table := List.filter_eq_self.mpr fun _ _ => rfl
  have same : (ofModel model bound).rows? table =
      some ((ofModel model bound).matching table (List.map TreeRow.ofRow table)) := rfl
  rw [same, every]

/-- A chain selects the same rows where only columns have changed that it does not read. -/
theorem rows?_changed (keyed : table.IsKeyed kind)
    (keyedAfter : Table.IsKeyed kind (List.map change table))
    (chain : (ofModel model bound).applyAll scopes = .ok query)
    (key : ∀ row, (change row).key = row.key)
    (same : ∀ scope ∈ scopes, ∀ column, scope.Reads (ofModel model bound) column →
      ∀ row, (change row).value column = row.value column) :
    ∃ rows, query.rows? table = some rows ∧
      query.rows? (List.map change table) = some (rows.map (TreeRow.changed change)) := by
  refine ⟨_, rows?_of_applyAll keyed rfl rows?_ofModel chain, ?_⟩
  rw [rows?_of_applyAll keyedAfter rfl rows?_ofModel chain]
  have source : List.map TreeRow.ofRow (List.map change table) =
      (List.map TreeRow.ofRow table).map (TreeRow.changed change) := by
    rw [List.map_map, List.map_map]
    rfl
  have kept : (ofModel model bound).kept (List.map change table) scopes
      (List.map TreeRow.ofRow (List.map change table)) =
      ((ofModel model bound).kept table scopes (List.map TreeRow.ofRow table)).map
        (TreeRow.changed change) := by
    unfold TreeQuery.kept
    rw [source, List.filter_map]
    refine congrArg _ (List.filter_congr fun treeRow _ => ?_)
    rw [Bool.eq_iff_iff, Function.comp_apply, List.all_eq_true, List.all_eq_true]
    exact forall₂_congr fun scope member => by rw [keeps_changed key (same scope member)]
  rw [kept, arranged_map (compareRows_changed same)]

end TreeQuery

namespace Session

/-- The columns that the nodes of an answer show, or the count. -/
def Answer.columns : Answer → List NodeFields ⊕ Nat
  | nodes entities => .inl (entities.map Entity.current)
  | node entity => .inl (entity.toList.map Entity.current)
  | number count => .inr count

/-- Nothing is pending but changes of columns that a chain does not read. -/
structure IsBeside (session : Session) (base : TreeQuery) (scopes : List Scope) : Prop where
  pending : session.pending = []
  doomed : session.doomed = []
  unread : ∀ entity ∈ session.entities, entity.touched = true →
    ∀ scope ∈ scopes, ∀ column, scope.Reads base column → entity.KeepsColumn column

variable {setting : Setting} {session flushed : Session} {query : TreeQuery} {scopes : List Scope}
  {rows : List TreeRow} {items : List Entity} {change : Row → Row}

theorem mem_of_mem_putEntity {entity other : Entity} {entities : List Entity}
    (member : other ∈ putEntity entity entities) : other = entity ∨ other ∈ entities := by
  induction entities with
  | nil => exact .inl (List.mem_singleton.mp member)
  | cons first entities ih =>
    unfold putEntity at member
    split at member
    · exact (List.mem_cons.mp member).imp_right (List.mem_cons_of_mem first)
    · rcases List.mem_cons.mp member with rfl | member
      · exact .inr List.mem_cons_self
      · exact (ih member).imp_right (List.mem_cons_of_mem first)

/-- Rows of the base table that become known leave all else as it is. -/
theorem learn_eq (rows : List TreeRow) (session : Session) :
    ∃ entities, session.learn rows = { session with entities := entities } ∧
      ∀ entity ∈ entities, entity ∈ session.entities ∨
        ∃ treeRow ∈ rows, entity = .ofRow treeRow.row := by
  induction rows generalizing session with
  | nil => exact ⟨_, rfl, fun _ member => .inl member⟩
  | cons first rows ih =>
    rw [learn_cons]
    split
    · obtain ⟨entities, frame, origin⟩ := ih session
      exact ⟨entities, frame, fun entity member => (origin entity member).imp_right
        fun ⟨treeRow, found, same⟩ => ⟨treeRow, List.mem_cons_of_mem _ found, same⟩⟩
    · obtain ⟨entities, frame, origin⟩ := ih (session.withEntity (.ofRow first.row))
      refine ⟨entities, frame, fun entity member => ?_⟩
      rcases origin entity member with known | ⟨treeRow, found, same⟩
      · exact (mem_of_mem_putEntity known).symm.imp_right fun same =>
          ⟨first, List.mem_cons_self, same⟩
      · exact .inr ⟨treeRow, List.mem_cons_of_mem _ found, same⟩

theorem columns_answerOf (edits : Edits items change session flushed)
    (known : ∀ entity ∈ items, entity ∈ session.entities) (rows : List TreeRow) (asked : Asked) :
    (asked.answerOf flushed (rows.map (TreeRow.changed change))).columns =
      (asked.answerOf session rows).columns := by
  have same (treeRow : TreeRow) :
      (flushed.nodeOf (treeRow.changed change)).current = (session.nodeOf treeRow).current := by
    have key : (treeRow.changed change).row.key = treeRow.row.key := edits.key treeRow.row
    have shown := edits.shown treeRow.row.key
    unfold nodeOf
    rw [key]
    cases found : session.entity? treeRow.row.key with
    | some entity =>
      rw [found] at shown
      obtain ⟨other, knownAs, current⟩ := Option.map_eq_some_iff.mp shown
      rw [knownAs]
      exact current
    | none =>
      rw [found] at shown
      rw [Option.map_eq_none_iff.mp shown]
      have fresh : treeRow.row.key ∉ items.map Entity.key := by
        intro member
        obtain ⟨entity, inside, same⟩ := List.mem_map.mp member
        have absent := List.find?_eq_none.mp found entity (known entity inside)
        simp [same] at absent
      have unchanged : (treeRow.changed change).row = treeRow.row := edits.others _ fresh
      simp only [Option.getD_none, unchanged]
  cases asked with
  | all => simp [Asked.answerOf, Answer.columns, same]
  | first => cases rows <;> simp [Asked.answerOf, Answer.columns, same]
  | count => simp [Asked.answerOf, Answer.columns]

/-- What a query of the base table leaves of a session: whatever was pending is pending still, and what
was known is known as it was. -/
structure LeavesPending (before after : Session) : Prop where
  frame : after = { before with entities := after.entities }
  known : ∀ key entity, before.entity? key = some entity → after.entity? key = some entity
  fresh : ∀ entity ∈ after.entities, entity ∈ before.entities ∨
    ∃ row ∈ before.table, entity = .ofRow row

theorem leavesPending_learn (members : ∀ treeRow ∈ rows, treeRow.row ∈ session.table) :
    LeavesPending session (session.learn rows) := by
  obtain ⟨entities, frame, origin⟩ := learn_eq rows session
  refine ⟨?_, fun key entity => entity?_learn_of_known, fun entity member => ?_⟩
  · rw [frame]
  · rw [frame] at member
    exact (origin entity member).imp_right fun ⟨treeRow, found, same⟩ =>
      ⟨treeRow.row, members treeRow found, same⟩

theorem LeavesPending.refl (session : Session) : LeavesPending session session :=
  ⟨rfl, fun _ _ => id, fun _ => .inl⟩

/-- A query of the base table answers with the rows that were flushed last and leaves all pending work
pending. It answers what it would answer after a flush if nothing is pending but changes of columns that
it does not read. -/
theorem answer_base (reachable : Reachable setting session)
    (chain : (TreeQuery.ofModel setting.model true).applyAll scopes = .ok query) (asked : Asked) :
    (session.broken = false → TreeQuery.checkParameters query.parameters = .ok () →
      ∃ rows, query.rows? session.table = some rows ∧
        ((answer asked query).run.run session).1 = .ok (asked.answerOf session rows)) ∧
    LeavesPending session ((answer asked query).run.run session).2 ∧
    ∀ flushed, flush.run.run session = (.ok (), flushed) →
      (TreeQuery.checkParameters query.parameters = .ok () →
        session.IsBeside (.ofModel setting.model true) scopes) →
      ((answer asked query).run.run session).1.map Answer.columns =
        ((answer asked query).run.run flushed).1.map Answer.columns := by
  have coherent := reachable.isCoherent
  have bound : query.bound = true := TreeQuery.bound_of_applyAll chain
  have base : query.expression = none := by
    obtain ⟨criteria, rfl, -⟩ := TreeQuery.applyAll_eq_ok chain
    rfl
  have keyed : session.table.IsKeyed setting.model.keyKind := coherent.tracked.keyed
  obtain ⟨rows, found⟩ : ∃ rows, query.rows? session.table = some rows := by
    unfold TreeQuery.rows? TreeQuery.sourceRows?
    rw [base]
    exact ⟨_, rfl⟩
  have answered (sound : session.broken = false)
      (accepted : TreeQuery.checkParameters query.parameters = .ok ()) :=
    run_answer_base keyed bound base sound accepted found asked
  refine ⟨fun sound accepted => ⟨rows, found, congrArg Prod.fst (answered sound accepted)⟩, ?_,
    fun flushed flushes beside => ?_⟩
  · rcases run_prepare_base_cases bound base session with ⟨fault, failed⟩ | ⟨sound, accepted⟩
    · rw [run_answer_of_unprepared failed]
      exact .refl session
    · rw [answered sound accepted]
      exact leavesPending_learn fun treeRow member =>
        mem_of_rows? found treeRow (Asked.mem_of_mem_rowsOf member)
  · rcases run_flush_cases session with ⟨-, done⟩ | ⟨after, wrote, done⟩ | ⟨fault, done | done⟩ <;>
      rw [done] at flushes <;> cases flushes
    · rfl
    have settles := coherent.settles wrote
    have sameBroken : flushed.broken = session.broken := by rw [settles.frame]
    rcases run_prepare_base_cases bound base session with ⟨fault, failed⟩ | ⟨sound, accepted⟩
    · have failedAfter : (prepare query).run.run flushed = (.error fault, flushed) := by
        rw [run_prepare_base bound base, Prod.mk.injEq] at failed ⊢
        rw [sameBroken]
        exact ⟨failed.1, rfl⟩
      rw [run_answer_of_unprepared failed, run_answer_of_unprepared failedAfter]
    · have quiet := beside accepted
      obtain ⟨items, change, known, edits⟩ := exists_edits coherent quiet.pending quiet.doomed done
      have keyedAfter := (coherent.of_settles settles).tracked.keyed
      obtain ⟨rows', found', foundAfter⟩ := TreeQuery.rows?_changed keyed (edits.table ▸ keyedAfter)
        chain edits.key fun scope member column reads => edits.columns column fun entity inside =>
          quiet.unread entity (known entity inside).1 (known entity inside).2 scope member column reads
      obtain rfl := Option.some.inj (found.symm.trans found')
      rw [← edits.table] at foundAfter
      rw [answered sound accepted, run_answer_base keyedAfter bound base (sameBroken.trans sound)
        accepted foundAfter asked]
      exact congrArg Except.ok
        (columns_answerOf edits (fun entity inside => (known entity inside).1) rows asked).symm

/-- A root whose label is changed. -/
def retitled : Session :=
  { Session.start { model := .standard } numberedTable with
    entities := [(Entity.ofRow ⟨.int 1, .null, .text "a", some (.obj [("one", .int 1)])⟩).setValue
      .label (.str "b")] }

theorem reachable_retitled : Reachable { model := .standard } retitled :=
  @Reachable.next _ _ (.change (.int 1) .label (.str "b")) reachable_numberedTable
    ⟨Column.noConfusion, .inr (.inr (.inl ⟨"b", rfl⟩))⟩

theorem isBeside_retitled : retitled.IsBeside (.ofModel .standard true) [.isRoot] := by
  refine ⟨rfl, rfl, fun entity member _ scope found column reads => ?_⟩
  obtain rfl := List.mem_singleton.mp member
  obtain rfl := List.mem_singleton.mp found
  obtain rfl := reads
  rfl

/-- `retitled` after a flush. -/
def retitledFlushed : Session :=
  { Session.start { model := .standard } numberedTable with
    table := [⟨.int 1, .null, .text "b", some (.obj [("one", .int 1)])⟩]
    entities := [((Entity.ofRow ⟨.int 1, .null, .text "a", some (.obj [("one", .int 1)])⟩).setValue
      .label (.str "b")).written (.int 1)] }

theorem run_flush_retitled : flush.run.run retitled = (.ok (), retitledFlushed) := by
  have touched : retitled.touchedEntities = retitled.entities := by
    simp [touchedEntities, retitled, Session.start, Entity.setValue]
  have wrote : retitled.written = .ok retitledFlushed := by
    have start : (if retitled.model.navigable then retitled.orphanChildren else retitled) =
      retitled := rfl
    unfold written
    rw [start]
    dsimp only
    rw [touched]
    rfl
  exact run_flush_of_written rfl rfl wrote

/-- The roots are not told by their labels, so they are the same before the flush and after it, and show
the new label. -/
theorem answer_base_retitled :
    ∃ query, (TreeQuery.ofModel .standard true).applyAll [.isRoot] = .ok query ∧
      ((answer .all query).run.run retitled).1.map Answer.columns =
        .ok (.inl [⟨.int 1, .null, .str "b", .obj [("one", .int 1)], true⟩]) ∧
      flush.run.run retitled = (.ok (), retitledFlushed) ∧
      ((answer .all query).run.run retitled).1.map Answer.columns =
        ((answer .all query).run.run retitledFlushed).1.map Answer.columns := by
  obtain ⟨query, chain, accepted, found⟩ :
      ∃ query, (TreeQuery.ofModel .standard true).applyAll [.isRoot] = .ok query ∧
        TreeQuery.checkParameters query.parameters = .ok () ∧
        query.rows? retitled.table =
          some [.ofRow ⟨.int 1, .null, .text "a", some (.obj [("one", .int 1)])⟩] :=
    ⟨_, rfl, rfl, rfl⟩
  obtain ⟨answers, -, transparent⟩ := answer_base reachable_retitled chain .all
  obtain ⟨rows, same, answered⟩ := answers rfl accepted
  obtain rfl := Option.some.inj (found.symm.trans same)
  refine ⟨query, chain, ?_, run_flush_retitled,
    transparent _ run_flush_retitled fun _ => isBeside_retitled⟩
  rw [answered]
  rfl

/-- A new node is counted once it is flushed, and not before. -/
theorem count_misses_respelled :
    Reachable { model := .standard } respelled ∧
      flush.run.run respelled = (.ok (), respelledFlushed) ∧
      (TreeQuery.ofModel .standard true).applyAll [.isRoot] =
        .ok ((TreeQuery.ofModel .standard true).filtered (.isNull (.column .parent))) ∧
      ((answer .count ((TreeQuery.ofModel .standard true).filtered
        (.isNull (.column .parent)))).run.run respelled).1 = .ok (.number 1) ∧
      ((answer .count ((TreeQuery.ofModel .standard true).filtered
        (.isNull (.column .parent)))).run.run respelledFlushed).1 = .ok (.number 2) :=
  ⟨reachable_respelled, run_flush_respelled, rfl, rfl, rfl⟩

end Session
end AdjacencyForest
