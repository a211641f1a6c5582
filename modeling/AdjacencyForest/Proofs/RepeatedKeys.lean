import AdjacencyForest.Proofs.Compilation
import AdjacencyForest.Proofs.Transparency

/-!
# Keys that are repeated in a result

A session has one node for each key. So where a key occurs in several rows of an expression's result,
because anchors overlap or a bounded walk goes around a cycle, each of these rows is answered with the
same node, which shows depth and path of the first of them.

Main statements: `pairwise_noDeeper`, rows sorted by depth before all else never get less deep;
`all_shows_firsts`, which depth and path the nodes of a query show.
-/

namespace AdjacencyForest

/-- The depth of the first row is at most that of the second one. -/
def TreeRow.NoDeeper (left right : TreeRow) : Prop := left.depth.compareWith right.depth ≠ .gt

variable {kind : KeyKind} {table : Table} {query : TreeQuery} {rows : List TreeRow}

theorem TreeQuery.pairwise_noDeeper (keyed : table.IsKeyed kind) (labels : table.HasLabels)
    (breadth : query.orders.head? = some ⟨.depth, false⟩) (found : query.rows? table = some rows) :
    rows.Pairwise TreeRow.NoDeeper := by
  obtain ⟨source, yields, rfl⟩ := Option.map_eq_some_iff.mp found
  obtain ⟨keys, orders⟩ := List.head?_eq_some_iff.mp breadth
  have ordered : ∀ treeRow ∈ query.matching table source, treeRow.IsOrdered := fun treeRow member =>
    (TreeRow.yielded_of_sourceRows? yields treeRow (mem_matching.mp member).1).isOrdered keyed labels
  refine (pairwise_arranged ordered).imp fun {left right} inOrder deeper => inOrder ?_
  have first : compareBy ⟨.depth, false⟩ left right = .gt := deeper
  rw [orders, compareRows_cons, first]
  rfl

namespace Session

variable {session flushed : Session}

theorem firstOf_eq_self (distinct : (rows.map fun treeRow => treeRow.row.key).Nodup)
    {treeRow : TreeRow} (member : treeRow ∈ rows) : firstOf rows treeRow = treeRow := by
  have found := find?_eq_firstOf member
  exact List.inj_on_of_nodup_map distinct (List.mem_of_find?_eq_some found) member
    (by simpa using List.find?_some found)

/-- The first row of the key of some row stands where that row does or before it. -/
theorem exists_index_firstOf {i : Nat} (inside : i < rows.length) :
    ∃ k, ∃ before : k < rows.length, k ≤ i ∧ rows[k] = firstOf rows rows[i] := by
  obtain ⟨-, k, before, same, earlier⟩ := List.find?_eq_some_iff_getElem.mp
    (find?_eq_firstOf (List.getElem_mem inside))
  refine ⟨k, before, ?_, same⟩
  by_contra later
  simpa using earlier i (Nat.lt_of_not_le later)

/-- Beside rows that never get less deep, what is shown for them never does either, wherever a row is
shown with its own depth. -/
theorem pairwise_firstOf (sorted : rows.Pairwise TreeRow.NoDeeper) :
    ((rows.map (firstOf rows)).zip rows).Pairwise fun earlier later =>
      later.1.depth = later.2.depth → earlier.1.NoDeeper later.1 := by
  rw [List.pairwise_iff_getElem] at sorted ⊢
  intro i j iInside jInside before own
  simp only [List.length_zip, List.length_map, min_self] at iInside jInside
  simp only [List.getElem_zip, List.getElem_map] at own ⊢
  obtain ⟨k, kInside, notAfter, same⟩ := exists_index_firstOf iInside
  have inOrder := sorted k j kInside jInside (notAfter.trans_lt before)
  rw [TreeRow.NoDeeper, same] at inOrder
  rwa [TreeRow.NoDeeper, own]

theorem run_all_of_flush (bound : query.bound = true) (recursive : query.expression.isSome = true)
    (flushes : flush.run.run session = (.ok (), flushed)) (sound : flushed.broken = false)
    (accepted : TreeQuery.checkParameters query.parameters = .ok ())
    (found : query.rows? flushed.table = some rows) :
    (all query).run.run session =
      (.ok ((rows.map (firstOf rows)).map .ofTreeRow), flushed.overwrite rows) := by
  have prepared := run_prepare_after_flush bound recursive flushes sound accepted
  have read : (Session.rows query).run.run session = (.ok rows, flushed) := by
    rw [run_rows_of_prepare prepared, found]
    rfl
  unfold all
  rw [run_bind_of_ok read, run_take_of_expression recursive]

/-- A query of an expression answers, for each row of its result in turn, the node of the row's key,
with columns, depth and path of the first row that has this key. So each node shows its own row if no
key is repeated. If the rows are sorted by depth before all else, the depths never decrease, and what
the nodes show does not either where a node shows the depth of its own row. -/
theorem all_shows_firsts {expression : RecursiveExpression} {scopes : List Scope}
    (chain : (TreeQuery.ofExpression expression).applyAll scopes = .ok query)
    (flushes : flush.run.run session = (.ok (), flushed)) (sound : flushed.broken = false)
    (accepted : TreeQuery.checkParameters query.parameters = .ok ())
    (finite : query.rows? flushed.table = some rows) :
    ∃ firsts : List TreeRow,
      (all query).run.run session = (.ok (firsts.map .ofTreeRow), flushed.overwrite rows) ∧
      List.Forall₂ (fun first treeRow =>
        (rows.find? fun other => other.row.key == treeRow.row.key) = some first) firsts rows ∧
      ((rows.map fun treeRow => treeRow.row.key).Nodup → firsts = rows) ∧
      ∀ kind, flushed.table.IsKeyed kind → flushed.table.HasLabels →
        query.orders.head? = some ⟨.depth, false⟩ →
        rows.Pairwise TreeRow.NoDeeper ∧
        (firsts.zip rows).Pairwise fun earlier later =>
          later.1.depth = later.2.depth → earlier.1.NoDeeper later.1 := by
  have bound : query.bound = true := TreeQuery.bound_of_applyAll chain
  have recursive : query.expression.isSome = true := by
    obtain ⟨criteria, rfl, -⟩ := TreeQuery.applyAll_eq_ok chain
    rfl
  refine ⟨rows.map (firstOf rows), run_all_of_flush bound recursive flushes sound accepted finite,
    ?_, fun distinct => ?_, fun kind keyed labels breadth => ?_⟩
  · rw [List.forall₂_map_left_iff, List.forall₂_same]
    exact fun treeRow member => find?_eq_firstOf member
  · exact (List.map_congr_left fun treeRow member => firstOf_eq_self distinct member).trans
      (List.map_id rows)
  · have sorted := TreeQuery.pairwise_noDeeper keyed labels breadth finite
    exact ⟨sorted, pairwise_firstOf sorted⟩

/-- The descendants of a row on a cycle with the row itself, down to depth two. -/
def aroundOnce : Relation := ⟨.descendants, true, .ofRow ⟨.int 1, .int 2, .text "one", none⟩, .int 2⟩

theorem all_shows_firsts_aroundOnce :
    ∃ base query rows, ∃ firsts : List TreeRow,
      Setting.related { model := .standard } aroundOnce = .ok base ∧
      base.applyAll [.breadthFirst] = .ok query ∧
      query.rows? mutualParents = some rows ∧
      ((all query).run.run (Session.start { model := .standard } mutualParents)).1 =
        .ok (firsts.map .ofTreeRow) ∧
      (firsts.zip rows).Pairwise fun earlier later =>
        later.1.depth = later.2.depth → earlier.1.NoDeeper later.1 := by
  obtain ⟨expression, query, rows, built, chain, accepted, finite, breadth⟩ :
      ∃ expression query rows,
        Setting.related { model := .standard } aroundOnce = .ok (.ofExpression expression) ∧
        (TreeQuery.ofExpression expression).applyAll [.breadthFirst] = .ok query ∧
        TreeQuery.checkParameters query.parameters = .ok () ∧
        query.rows? mutualParents = some rows ∧
        query.orders.head? = some ⟨.depth, false⟩ :=
    ⟨_, _, _, rfl, rfl, rfl, rfl, rfl⟩
  have labels : mutualParents.HasLabels := by simp [Table.HasLabels, mutualParents]
  have flushes : flush.run.run (Session.start { model := .standard } mutualParents) =
      (.ok (), .start { model := .standard } mutualParents) := run_flush rfl
  obtain ⟨firsts, ran, -, -, ordered⟩ := all_shows_firsts chain flushes rfl accepted finite
  exact ⟨_, query, rows, firsts, built, chain, finite, by rw [ran],
    (ordered .integer isKeyed_mutualParents labels breadth).2⟩

/-- The last row is the first one again, two steps deeper, and is answered with its node: it shows
depth zero, after depth one. -/
theorem all_aroundOnce_ne_rows :
    ∃ base query rows entities after,
      Setting.related { model := .standard } aroundOnce = .ok base ∧
      base.applyAll [.breadthFirst] = .ok query ∧
      query.rows? mutualParents = some rows ∧
      (all query).run.run (Session.start { model := .standard } mutualParents) =
        (.ok entities, after) ∧
      rows.map (fun treeRow => (treeRow.depth.toJson, treeRow.path.toJson)) =
        [(.int 0, .str "1"), (.int 1, .str "1.2"), (.int 2, .str "1.2.1")] ∧
      entities.map (fun entity => (entity.depth, entity.path)) =
        [(.int 0, .str "1"), (.int 1, .str "1.2"), (.int 0, .str "1")] := by
  obtain ⟨base, query, built, chain, bound, recursive, accepted, finite⟩ :
      ∃ base query, Setting.related { model := .standard } aroundOnce = .ok base ∧
        base.applyAll [.breadthFirst] = .ok query ∧
        query.bound = true ∧ query.expression.isSome = true ∧
        TreeQuery.checkParameters query.parameters = .ok () ∧
        query.rows? mutualParents = some
          [⟨⟨.int 1, .int 2, .text "one", none⟩, .int 0, .text "1"⟩,
            ⟨⟨.int 2, .int 1, .text "two", none⟩, .int 1, .text "1.2"⟩,
            ⟨⟨.int 1, .int 2, .text "one", none⟩, .int 2, .text "1.2.1"⟩] := by
    refine ⟨_, _, rfl, rfl, rfl, rfl, rfl, congrArg some ?_⟩
    exact List.mergeSort_of_pairwise (by decide)
  exact ⟨base, query, _, _, _, built, chain, finite,
    run_all_of_flush bound recursive (run_flush rfl) rfl accepted finite, rfl, rfl⟩

end Session
end AdjacencyForest
