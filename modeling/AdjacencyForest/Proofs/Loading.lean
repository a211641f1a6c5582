import AdjacencyForest.Proofs.Runs
import Mathlib.Data.List.Nodup

/-!
# Loading nodes

A session that has nothing to write runs a query of an expression on its rows and makes each row
known under its key, in place of what it knew.

Main statements: `entity?_learnRows`, what is known after rows were loaded; `run_all`, the nodes of a
query are those of its rows.
-/

namespace AdjacencyForest.Session

variable {session flushed : Session} {entity : Entity} {entities : List Entity} {key : Value}
  {rows : List TreeRow} {treeRow : TreeRow} {query : TreeQuery}

theorem find?_putEntity :
    (putEntity entity entities).find? (fun other => other.key == key) =
      if entity.key = key then some entity else entities.find? fun other => other.key == key := by
  induction entities with
  | nil => simp [putEntity]
  | cons first entities ih =>
    unfold putEntity
    by_cases same : first.key = entity.key
    · by_cases found : entity.key = key <;> simp [same, found]
    · have other : first.key = key → ¬ entity.key = key := fun found found' =>
        same (found.trans found'.symm)
      rw [if_neg same]
      by_cases found : first.key = key
      · simp [found, other found]
      · simp [found, ih]

theorem entity?_withEntity :
    (session.withEntity entity).entity? key =
      if entity.key = key then some entity else session.entity? key :=
  find?_putEntity

/-- The session with the rows made known in turn. -/
def learnRows (session : Session) (rows : List TreeRow) : Session :=
  rows.foldl (fun session treeRow => session.withEntity (.ofTreeRow treeRow)) session

theorem entity?_learnRows_of_not_mem (absent : ∀ treeRow ∈ rows, treeRow.row.key ≠ key) :
    (session.learnRows rows).entity? key = session.entity? key := by
  induction rows generalizing session with
  | nil => rfl
  | cons first rows ih =>
    have later := @ih (session.withEntity (.ofTreeRow first))
      (fun treeRow member => absent treeRow (by simp [member]))
    exact later.trans (entity?_withEntity.trans (if_neg (absent first (by simp))))

theorem entity?_learnRows (distinct : (rows.map fun treeRow => treeRow.row.key).Nodup)
    (member : treeRow ∈ rows) :
    (session.learnRows rows).entity? treeRow.row.key = some (.ofTreeRow treeRow) := by
  induction rows generalizing session with
  | nil => exact absurd member List.not_mem_nil
  | cons first rows ih =>
    obtain ⟨fresh, distinct⟩ := List.nodup_cons.mp distinct
    rcases List.mem_cons.mp member with rfl | member
    · have kept := @entity?_learnRows_of_not_mem (session.withEntity (.ofTreeRow treeRow))
        treeRow.row.key rows fun other found same => fresh (List.mem_map.mpr ⟨other, found, same⟩)
      exact kept.trans (entity?_withEntity.trans (if_pos rfl))
    · exact ih distinct member

theorem firstOfEachKey_eq (distinct : (rows.map fun treeRow => treeRow.row.key).Nodup) :
    firstOfEachKey rows = rows := by
  have kept : ∀ before : List TreeRow, ((before ++ rows).map fun treeRow => treeRow.row.key).Nodup →
      rows.foldl (fun (kept : List TreeRow) treeRow =>
        if kept.any fun other => other.row.key == treeRow.row.key then kept
        else kept ++ [treeRow]) before = before ++ rows := by
    clear distinct
    induction rows with
    | nil => simp
    | cons first rows ih =>
      intro before distinct
      have fresh : (before.any fun other => other.row.key == first.row.key) = false := by
        rw [List.any_eq_false]
        intro other found
        rw [List.map_append, List.nodup_append] at distinct
        simpa using distinct.2.2 _ (List.mem_map_of_mem found) first.row.key (by simp)
      rw [List.foldl_cons, fresh]
      simpa using ih (before ++ [first]) (by simpa using distinct)
  exact kept [] distinct

theorem overwrite_eq (distinct : (rows.map fun treeRow => treeRow.row.key).Nodup) :
    overwrite rows session = session.learnRows rows := by
  rw [overwrite, firstOfEachKey_eq distinct]
  rfl

theorem run_prepare_after_flush (bound : query.bound = true)
    (recursive : query.expression.isSome = true)
    (flushes : flush.run.run session = (.ok (), flushed)) (sound : flushed.broken = false)
    (accepted : TreeQuery.checkParameters query.parameters = .ok ()) :
    (prepare query).run.run session = (.ok (), flushed) := by
  rw [run_prepare_of_expression bound recursive, flushes]
  exact congrArg (·, flushed) (verdict_eq_ok.mpr ⟨sound, accepted⟩)

theorem run_prepare (bound : query.bound = true) (recursive : query.expression.isSome = true)
    (clean : session.isClean = true) (sound : session.broken = false)
    (accepted : TreeQuery.checkParameters query.parameters = .ok ()) :
    (prepare query).run.run session = (.ok (), session) :=
  run_prepare_after_flush bound recursive (run_flush clean) sound accepted

theorem run_rows (bound : query.bound = true) (recursive : query.expression.isSome = true)
    (clean : session.isClean = true) (sound : session.broken = false)
    (accepted : TreeQuery.checkParameters query.parameters = .ok ())
    (found : query.rows? session.table = some rows) :
    (Session.rows query).run.run session = (.ok rows, session) := by
  rw [run_rows_of_prepare (run_prepare bound recursive clean sound accepted), found]
  rfl

theorem run_take (recursive : query.expression.isSome = true)
    (distinct : (rows.map fun treeRow => treeRow.row.key).Nodup) :
    (take query rows).run.run session = (.ok (rows.map .ofTreeRow), session.learnRows rows) := by
  have known : rows.filterMap (fun treeRow =>
      (session.learnRows rows).entity? treeRow.row.key) = rows.map .ofTreeRow := by
    rw [← List.filterMap_eq_map]
    exact List.filterMap_congr fun treeRow member => entity?_learnRows distinct member
  unfold take
  rw [if_pos recursive]
  rw [run_bind_of_ok (run_modify _ _), run_bind_of_ok (run_get _), overwrite_eq distinct, known]
  rfl

theorem run_all (bound : query.bound = true) (recursive : query.expression.isSome = true)
    (clean : session.isClean = true) (sound : session.broken = false)
    (accepted : TreeQuery.checkParameters query.parameters = .ok ())
    (found : query.rows? session.table = some rows)
    (distinct : (rows.map fun treeRow => treeRow.row.key).Nodup) :
    (all query).run.run session = (.ok (rows.map .ofTreeRow), session.learnRows rows) := by
  unfold all
  rw [run_bind_of_ok (run_rows bound recursive clean sound accepted found),
    run_take recursive distinct]

end AdjacencyForest.Session
