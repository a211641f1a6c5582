import AdjacencyForest.Proofs.Keys
import AdjacencyForest.Proofs.Loading
import Mathlib.Data.List.Induction

/-!
# Nodes of any query

What a session without pending work answers to a query of the base table or of an expression, also
where several rows have one key: each row is answered by its node. A base query leaves the nodes that
are known as they are, an expression overwrites them.

Main statements: `exists_entity_learn` and `entity?_overwrite`, the nodes after rows were taken;
`answers_of_rows`, the nodes of a query are those of its rows.
-/

namespace AdjacencyForest.Session

variable {session : Session} {entity : Entity} {key : Value} {rows : List TreeRow}
  {treeRow : TreeRow} {query : TreeQuery}

theorem key_of_entity? (found : session.entity? key = some entity) : entity.key = key := by
  simpa using List.find?_some found

/-- The entity is the node of the row, as the row has it; but a base query leaves a node that is known
as it is. -/
structure Shows (session : Session) (query : TreeQuery) (entity : Entity) (treeRow : TreeRow) :
    Prop where
  key : entity.key = treeRow.row.key
  current : query.expression.isSome = true ∨ session.entity? treeRow.row.key = none →
    entity.current = .ofRow treeRow.row
  known : query.expression = none → ∀ known, session.entity? treeRow.row.key = some known →
    entity = known

/-- The session answers the query with one node for each of the rows, in their order, and leaves the
table as it is. -/
def Answers (session : Session) (query : TreeQuery) (rows : List TreeRow) : Prop :=
  ∃ entities after, (all query).run.run session = (.ok entities, after) ∧
    after.table = session.table ∧ List.Forall₂ (session.Shows query) entities rows

/-! ## Rows of the base table -/

theorem table_learn (rows : List TreeRow) (session : Session) :
    (learn rows session).table = session.table := by
  induction rows generalizing session with
  | nil => rfl
  | cons first rows ih =>
    rw [learn, List.foldl_cons]
    exact (ih _).trans (by split <;> rfl)

theorem learn_cons (first : TreeRow) (rows : List TreeRow) (session : Session) :
    learn (first :: rows) session = learn rows (match session.entity? first.row.key with
      | some _ => session
      | none => session.withEntity (.ofRow first.row)) := rfl

/-- After rows of the base table were learned, a key is known as before, or by the first of the rows
that has it. -/
theorem entity?_learn : (learn rows session).entity? key =
    (session.entity? key).or
      ((rows.find? fun treeRow => treeRow.row.key == key).map fun treeRow => .ofRow treeRow.row) := by
  induction rows generalizing session with
  | nil => simp [learn]
  | cons first rows ih =>
    rw [learn_cons, ih]
    cases known : session.entity? first.row.key with
    | some entity =>
      by_cases here : first.row.key = key
      · simp [← here, known]
      · simp [here]
    | none =>
      by_cases here : first.row.key = key
      · simp [← here, known, entity?_withEntity, Entity.ofRow]
      · simp [here, entity?_withEntity, Entity.ofRow]

theorem entity?_learn_of_known (known : session.entity? key = some entity) :
    (learn rows session).entity? key = some entity := by
  rw [entity?_learn, known]
  rfl

theorem exists_entity_learn (member : treeRow ∈ rows)
    (fresh : session.entity? treeRow.row.key = none)
    (same : ∀ other ∈ rows, other.row.key = treeRow.row.key → other.row = treeRow.row) :
    (learn rows session).entity? treeRow.row.key = some (.ofRow treeRow.row) := by
  obtain ⟨first, found⟩ : ∃ first,
      (rows.find? fun other => other.row.key == treeRow.row.key) = some first :=
    Option.isSome_iff_exists.mp (List.find?_isSome.mpr ⟨treeRow, member, beq_self_eq_true _⟩)
  have sameRow := same first (List.mem_of_find?_eq_some found) (by simpa using List.find?_some found)
  rw [entity?_learn, fresh, found, ← sameRow]
  rfl

/-! ## Rows of an expression -/

theorem firstOfEachKey_append_singleton (rows : List TreeRow) (last : TreeRow) :
    firstOfEachKey (rows ++ [last]) =
      if (firstOfEachKey rows).any fun other => other.row.key == last.row.key then firstOfEachKey rows
      else firstOfEachKey rows ++ [last] := by
  rw [firstOfEachKey, List.foldl_append]
  rfl

theorem mem_of_mem_firstOfEachKey (member : treeRow ∈ firstOfEachKey rows) : treeRow ∈ rows := by
  induction rows using List.reverseRecOn with
  | nil => exact member
  | append_singleton rows last ih =>
    rw [firstOfEachKey_append_singleton] at member
    split at member
    · exact List.mem_append_left _ (ih member)
    · rcases List.mem_append.mp member with member | member
      · exact List.mem_append_left _ (ih member)
      · exact List.mem_append_right _ member

theorem nodup_firstOfEachKey (rows : List TreeRow) :
    ((firstOfEachKey rows).map fun treeRow => treeRow.row.key).Nodup := by
  induction rows using List.reverseRecOn with
  | nil => exact List.nodup_nil
  | append_singleton rows last ih =>
    rw [firstOfEachKey_append_singleton]
    split
    · exact ih
    next fresh =>
      rw [List.map_append, List.nodup_append]
      refine ⟨ih, List.nodup_singleton _, fun key found key' found' same => ?_⟩
      obtain ⟨other, member, rfl⟩ := List.mem_map.mp found
      obtain rfl := List.mem_singleton.mp found'
      exact fresh (List.any_eq_true.mpr ⟨other, member, by simpa using same⟩)

theorem find?_firstOfEachKey (rows : List TreeRow) (key : Value) :
    (firstOfEachKey rows).find? (fun treeRow => treeRow.row.key == key) =
      rows.find? fun treeRow => treeRow.row.key == key := by
  induction rows using List.reverseRecOn with
  | nil => rfl
  | append_singleton rows last ih =>
    rw [firstOfEachKey_append_singleton, List.find?_append, ← ih]
    split
    next known =>
      -- The key of the last row is known, so that row is not the first of its key.
      by_cases same : last.row.key = key
      · obtain ⟨first, found⟩ := Option.isSome_iff_exists.mp
          (List.find?_isSome.mpr (same ▸ List.any_eq_true.mp known))
        rw [found]
        rfl
      · simp [same]
    · rw [List.find?_append]

theorem table_learnRows (rows : List TreeRow) (session : Session) :
    (session.learnRows rows).table = session.table := by
  induction rows generalizing session with
  | nil => rfl
  | cons first rows ih => exact ih (session.withEntity (.ofTreeRow first))

/-- After rows were put in place of what was known, the first row of a key is known under it, else
what was known before. -/
theorem entity?_overwrite :
    (overwrite rows session).entity? key =
      ((rows.find? fun treeRow => treeRow.row.key == key).map .ofTreeRow).or
        (session.entity? key) := by
  rw [← find?_firstOfEachKey]
  change (session.learnRows (firstOfEachKey rows)).entity? key = _
  cases found : (firstOfEachKey rows).find? fun treeRow => treeRow.row.key == key with
  | some first =>
    obtain rfl : first.row.key = key := by simpa using List.find?_some found
    exact entity?_learnRows (nodup_firstOfEachKey rows) (List.mem_of_find?_eq_some found)
  | none =>
    exact entity?_learnRows_of_not_mem fun treeRow member => by
      simpa using List.find?_eq_none.mp found treeRow member

/-- The first of some rows that has the key of a row. -/
def firstOf (rows : List TreeRow) (treeRow : TreeRow) : TreeRow :=
  (rows.find? fun other => other.row.key == treeRow.row.key).getD treeRow

theorem find?_eq_firstOf (member : treeRow ∈ rows) :
    (rows.find? fun other => other.row.key == treeRow.row.key) = some (firstOf rows treeRow) := by
  obtain ⟨first, found⟩ : ∃ first,
      (rows.find? fun other => other.row.key == treeRow.row.key) = some first :=
    Option.isSome_iff_exists.mp (List.find?_isSome.mpr ⟨treeRow, member, beq_self_eq_true _⟩)
  rw [firstOf, found, Option.getD_some]

theorem entity?_overwrite_of_mem (member : treeRow ∈ rows) :
    (overwrite rows session).entity? treeRow.row.key = some (.ofTreeRow (firstOf rows treeRow)) := by
  rw [entity?_overwrite, find?_eq_firstOf member]
  rfl

theorem exists_entity_overwrite (member : treeRow ∈ rows) :
    ∃ first ∈ rows, first.row.key = treeRow.row.key ∧
      (overwrite rows session).entity? treeRow.row.key = some (.ofTreeRow first) := by
  have found := find?_eq_firstOf member
  exact ⟨_, List.mem_of_find?_eq_some found, by simpa using List.find?_some found,
    entity?_overwrite_of_mem member⟩

/-! ## Running a query -/

/-- The nodes of some rows of an expression are those of the first rows of their keys. -/
theorem run_take_of_expression (recursive : query.expression.isSome = true) (rows : List TreeRow)
    (session : Session) :
    (take query rows).run.run session =
      (.ok ((rows.map (firstOf rows)).map .ofTreeRow), session.overwrite rows) := by
  have known : rows.filterMap (fun treeRow => (session.overwrite rows).entity? treeRow.row.key) =
      (rows.map (firstOf rows)).map .ofTreeRow := by
    rw [List.map_map, ← List.filterMap_eq_map]
    exact List.filterMap_congr fun treeRow member => entity?_overwrite_of_mem member
  unfold take
  rw [if_pos recursive, run_bind_of_ok (run_modify _ _), run_bind_of_ok (run_get _), known]
  rfl

theorem run_prepare_of_accepted (bound : query.bound = true) (base : query.expression = none)
    (sound : session.broken = false)
    (accepted : TreeQuery.checkParameters query.parameters = .ok ()) :
    (prepare query).run.run session = (.ok (), session) := by
  rw [run_prepare_of_base bound (congrArg Option.isSome base), verdict_eq_ok.mpr ⟨sound, accepted⟩]

theorem run_prepare_of_clean (bound : query.bound = true) (clean : session.isClean = true)
    (sound : session.broken = false)
    (accepted : TreeQuery.checkParameters query.parameters = .ok ()) :
    (prepare query).run.run session = (.ok (), session) := by
  cases recursive : query.expression with
  | some expression => exact run_prepare bound (by rw [recursive]; rfl) clean sound accepted
  | none => exact run_prepare_of_accepted bound recursive sound accepted

theorem forall₂_filterMap {α β : Type} {look : α → Option β} {related : β → α → Prop}
    {items : List α} (each : ∀ item ∈ items, ∃ found, look item = some found ∧ related found item) :
    List.Forall₂ related (items.filterMap look) items := by
  induction items with
  | nil => exact .nil
  | cons item items ih =>
    obtain ⟨found, looked, fits⟩ := each item List.mem_cons_self
    rw [List.filterMap_cons, looked]
    exact .cons fits (ih fun other member => each other (List.mem_cons_of_mem _ member))

/-- A query whose rows are rows of a table with keys is answered with the nodes of its rows. -/
theorem answers_of_rows {kind : KeyKind} (keyed : session.table.IsKeyed kind)
    (bound : query.bound = true) (clean : session.isClean = true) (sound : session.broken = false)
    (accepted : TreeQuery.checkParameters query.parameters = .ok ())
    (found : query.rows? session.table = some rows)
    (members : ∀ treeRow ∈ rows, treeRow.row ∈ session.table) : session.Answers query rows := by
  have same : ∀ treeRow ∈ rows, ∀ other ∈ rows, other.row.key = treeRow.row.key →
      other.row = treeRow.row := fun treeRow member other otherMember =>
    keyed.eq_of_key (members other otherMember) (members treeRow member)
  have ran : (Session.rows query).run.run session = (.ok rows, session) := by
    rw [run_rows_of_prepare (run_prepare_of_clean bound clean sound accepted), found]
    rfl
  unfold Answers all
  rw [run_bind_of_ok ran]
  unfold take
  cases recursive : query.expression with
  | none =>
    simp only [Option.isSome_none, Bool.false_eq_true, if_false]
    rw [run_bind_of_ok (run_modify _ _), run_bind_of_ok (run_get _)]
    refine ⟨_, _, rfl, table_learn rows session, forall₂_filterMap fun treeRow member => ?_⟩
    cases known : session.entity? treeRow.row.key with
    | some entity =>
      exact ⟨entity, entity?_learn_of_known known, key_of_entity? known,
        fun unknown => by simp [recursive, known] at unknown,
        fun _ other knownOther => Option.some.inj (known.symm.trans knownOther)⟩
    | none =>
      exact ⟨_, exists_entity_learn member known (same treeRow member), rfl, fun _ => rfl,
        fun _ other knownOther => by simp [known] at knownOther⟩
  | some expression =>
    simp only [Option.isSome_some, if_true]
    rw [run_bind_of_ok (run_modify _ _), run_bind_of_ok (run_get _)]
    refine ⟨_, _, rfl, table_learnRows _ session, forall₂_filterMap fun treeRow member => ?_⟩
    obtain ⟨first, firstMember, sameKey, known⟩ := @exists_entity_overwrite session rows _ member
    have sameRow := same treeRow member first firstMember sameKey
    exact ⟨_, known, sameKey, fun _ => congrArg NodeFields.ofRow sameRow,
      fun base => by simp [recursive] at base⟩

end AdjacencyForest.Session
