import AdjacencyForest.Proofs.BaseQueries
import AdjacencyForest.Proofs.Counts
import AdjacencyForest.Proofs.Cycles

/-!
# What lies in a subtree

Whether a key is at a row or below it is always answered, and by the links alone: around a cycle the
walk is cut once it has met every row, and no setting of the service limits it any further.

Main statements: `exists_subtreeRows`, the rows of the subtree's query; `isAtOrBelow_spec`, what is
answered, to the service's question and by the nodes of a session.
-/

open Relation

namespace AdjacencyForest

open RecursiveExpression

namespace Table

variable {table : Table} {row other : Row} {key : Value}

theorem exists_below_iff (member : row ∈ table) :
    (∃ other, other.key = key ∧ ReflTransGen (table.Joined .down) row other) ↔
      row.key = key ∨ ∃ other ∈ table, other.key = key ∧ TransGen (table.Joined .up) other row := by
  constructor
  · rintro ⟨other, same, below⟩
    rcases reflTransGen_iff_eq_or_transGen.mp (reflTransGen_down_iff.mp below) with rfl | reached
    · exact .inl same
    · exact .inr ⟨other, mem_of_reachable below member, same, reached⟩
  · rintro (same | ⟨other, -, same, reached⟩)
    · exact ⟨row, same, .refl⟩
    · exact ⟨other, same, reflTransGen_down_iff.mpr reached.to_reflTransGen⟩

end Table

namespace Service

variable {settings : Settings} {table : Table} {row : Row}

/-- The rows of a subtree's query are all that lead up to the row: none is out of its reach. -/
theorem exists_subtreeRows (keyed : table.IsKeyed .integer) (stored : table.IsStored)
    (supported : settings.registry.grammarFor .sqlite = .ok .sqlite) (member : row ∈ table) :
    ∃ expression rows, subtreeQuery settings table row = .ok (.ofExpression expression) ∧
      TreeQuery.checkParameters expression.parameters = .ok () ∧
      expression.rows? table = some rows ∧
      ∀ other, (∃ treeRow ∈ rows, treeRow.row = other) ↔
        ReflTransGen (table.Joined .up) other row := by
  obtain ⟨id, key⟩ := KeyKind.admits_integer_iff.mp (keyed.key row member)
  have fits := stored.keys row member id key
  obtain ⟨expression, compiled⟩ : ∃ expression, compile settings.registry .sqlite .standard
      ⟨"nodes", none⟩ (subtreeTraversal table row) = .ok expression :=
    exists_compile fits_subtreeTraversal supported
  obtain ⟨walks, mem_walks, found⟩ := rows_subtree keyed stored.count compiled
  refine ⟨expression, _, subtreeQuery_eq_ok.mpr ⟨expression, compiled, rfl⟩,
    (checkParameters_subtree key compiled).mpr ⟨fits, stored.count⟩, found, fun other => ?_⟩
  rw [← Table.reflTransGen_down_iff, ← exists_walk_iff keyed member key fits]
  simp only [List.mem_map, exists_exists_and_eq_and, mem_walks]
  refine exists_congr fun walk => and_congr_right fun made => ?_
  rw [made.getLast?_eq, Option.some.injEq]
  rfl

theorem isAtOrBelow_eq {query : TreeQuery} {rows : List TreeRow} {candidate : Value}
    (queried : subtreeQuery settings table row = .ok query)
    (accepted : TreeQuery.checkParameters query.parameters = .ok ())
    (found : query.rows? table = some rows) :
    isAtOrBelow settings table row candidate =
      .ok (rows.any fun treeRow => treeRow.row.key == candidate) :=
  bind_eq_ok.mpr ⟨_, queried, bind_eq_ok.mpr ⟨_, queryRows_eq_ok.mpr ⟨accepted, found⟩, rfl⟩⟩

/-- The nodes of an expression have the keys of its rows. -/
theorem keys_of_shows {session : Session} {query : TreeQuery} {nodes : List Entity}
    {rows : List TreeRow} (recursive : query.expression.isSome = true)
    (shows : List.Forall₂ (session.Shows query) nodes rows) :
    nodes.map (fun node => node.current.key) = rows.map fun treeRow => treeRow.row.key.toJson := by
  induction shows with
  | nil => rfl
  | cons first _ ih =>
    rw [List.map_cons, List.map_cons, ih, first.current (.inl recursive)]
    rfl

theorem run_count_table {session : Session} {model : TreeModel} (sound : session.broken = false) :
    (Session.count (.ofModel model true)).run.run session =
      (.ok session.table.length, session) := by
  have accepted : TreeQuery.checkParameters (TreeQuery.ofModel model true).parameters = .ok () := rfl
  rw [Session.run_count_base rfl rfl sound accepted TreeQuery.rows?_ofModel, List.length_map]

/-- In any table, whether a key is at a row or below it is answered: it is iff it is the row's key or
that of a row from which parents lead up to the row. The rows that are looked at are all such rows,
and the limit of depth that the service has changes none of this. A session that has nothing to write
counts as many rows and finds the key among the nodes of the subtree that is that deep. -/
theorem isAtOrBelow_spec (keyed : table.IsKeyed .integer) (stored : table.IsStored)
    (supported : settings.registry.grammarFor .sqlite = .ok .sqlite) (member : row ∈ table)
    (candidate : Int) :
    ∃ (below : Bool) (rows : List TreeRow),
      (∀ limit,
        isAtOrBelow { settings with treeMaxDepth := limit } table row (.int candidate) = .ok below ∧
        ∃ query, subtreeQuery { settings with treeMaxDepth := limit } table row = .ok query ∧
          queryRows query table = .ok rows) ∧
      (∀ other, (∃ treeRow ∈ rows, treeRow.row = other) ↔ ReflTransGen (table.Joined .up) other row) ∧
      (below = true ↔ row.key = .int candidate ∨
        ∃ other ∈ table, other.key = .int candidate ∧ TransGen (table.Joined .up) other row) ∧
      ∀ session : Session, session.setting = settings.setting → session.table = table →
        session.isClean = true → session.broken = false →
        ∃ bound query nodes after,
          (Session.count (.ofModel .standard true)).run.run session = (.ok bound, session) ∧
          session.setting.related ⟨.descendants, true, .ofRow row, .int bound⟩ = .ok query ∧
          (Session.all query).run.run session = (.ok nodes, after) ∧ after.table = table ∧
          (below = true ↔ ∃ node ∈ nodes, node.current.key = .int candidate) := by
  obtain ⟨expression, rows, queried, accepted, found, reached⟩ :=
    exists_subtreeRows keyed stored supported member
  rw [← TreeQuery.parameters_ofExpression] at accepted
  rw [← TreeQuery.rows?_ofExpression] at found
  have answered : isAtOrBelow settings table row (.int candidate) =
      .ok (rows.any fun treeRow => treeRow.row.key == .int candidate) :=
    isAtOrBelow_eq queried accepted found
  refine ⟨_, rows, fun limit => ⟨answered, _, queried, queryRows_eq_ok.mpr ⟨accepted, found⟩⟩,
    reached, ?_, ?_⟩
  · rw [← Table.exists_below_iff member]
    exact isAtOrBelow_iff keyed member answered
  · rintro session given rfl clean sound
    have query : session.setting.related ⟨.descendants, true, .ofRow row, .int session.table.length⟩ =
        .ok (.ofExpression expression) := given ▸ queried
    have members : ∀ treeRow ∈ rows, treeRow.row ∈ session.table := fun treeRow shown =>
      Table.mem_of_reachable (Table.reflTransGen_down_iff.mpr
        ((reached treeRow.row).mp ⟨treeRow, shown, rfl⟩)) member
    obtain ⟨nodes, after, ran, kept, shows⟩ :=
      Session.answers_of_rows keyed rfl clean sound accepted found members
    refine ⟨_, _, nodes, after, run_count_table sound, query, ran, kept, ?_⟩
    have same : (∃ node ∈ nodes, node.current.key = .int candidate) ↔
        ∃ treeRow ∈ rows, treeRow.row.key.toJson = .int candidate := by
      rw [← List.mem_map, keys_of_shows rfl shows, List.mem_map]
    rw [List.any_eq_true, same]
    refine exists_congr fun treeRow => and_congr_right fun shown => ?_
    obtain ⟨i, key⟩ := KeyKind.admits_integer_iff.mp (keyed.key _ (members treeRow shown))
    simp [key, Value.toJson]

/-- Around a cycle each row is below the other. -/
theorem isAtOrBelow_mutualParents :
    isAtOrBelow {} mutualParents ⟨.int 1, .int 2, .text "one", none⟩ (.int 2) = .ok true := by
  have stored : mutualParents.IsStored :=
    ⟨by simp +contextual [mutualParents, fitsInt64], by decide⟩
  obtain ⟨below, rows, answered, -, found, -⟩ :=
    @isAtOrBelow_spec {} mutualParents ⟨.int 1, .int 2, .text "one", none⟩ isKeyed_mutualParents
      stored rfl List.mem_cons_self 2
  obtain rfl : below = true := found.mpr (.inr ⟨⟨.int 2, .int 1, .text "two", none⟩,
    List.mem_cons_of_mem _ List.mem_cons_self, rfl,
    .single ⟨List.mem_cons_of_mem _ List.mem_cons_self, List.mem_cons_self, rfl⟩⟩)
  exact (answered none).1

end Service
end AdjacencyForest
