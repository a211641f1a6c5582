import AdjacencyForest.Proofs.RepeatedKeys

/-!
# All nodes, the first one, and how many

A query can be asked for all its nodes, for the first one and for their number. Asked in the same state
of a session these answers agree, also where keys are repeated and where work is pending: they fail
alike, or they are about the same rows. Rows that no sort key tells apart may stand in any order, and
then the first node may be another one of all.

Main statements: `exists_run_take`, the nodes of some rows; `Arranges.eq_of_untied`, there is one order
where no two rows are tied; `runs_agree`, the three answers together.
-/

namespace AdjacencyForest

namespace Value

/-- Two values compare the other way round in the other order, also where a number is none. -/
theorem compareWith_swap (a b : Value) : b.compareWith a = (a.compareWith b).swap := by
  by_cases ordered : a.IsOrdered ∧ b.IsOrdered
  · rw [compareWith_eq ordered.1 ordered.2, compareWith_eq ordered.2 ordered.1]
    exact Std.OrientedCmp.eq_swap
  · -- A number that is none is compared as equal to every number.
    have none : a = .real .nan ∨ b = .real .nan := by
      simpa [IsOrdered, or_iff_not_imp_left] using ordered
    rcases none with rfl | rfl
    · cases b with
      | real x => cases x <;> rfl
      | _ => rfl
    · cases a with
      | real x => cases x <;> rfl
      | _ => rfl

end Value

namespace TreeQuery

variable {keys : List SortKey} {rows listed other : List TreeRow}

theorem compareBy_swap (key : SortKey) (left right : TreeRow) :
    compareBy key right left = (compareBy key left right).swap := by
  unfold compareBy
  rw [Value.compareWith_swap]
  split <;> rfl

theorem compareRows_swap (keys : List SortKey) (left right : TreeRow) :
    compareRows keys right left = (compareRows keys left right).swap := by
  induction keys with
  | nil => rfl
  | cons key keys ih => rw [compareRows_cons, compareRows_cons, compareBy_swap, ih, Ordering.swap_then]

/-- Some rows in an order that the sort keys allow: those that no key tells apart stand anyhow. -/
structure Arranges (keys : List SortKey) (rows listed : List TreeRow) : Prop where
  perm : listed.Perm rows
  sorted : listed.Pairwise fun left right => compareRows keys left right ≠ .gt

/-- Some sort key tells any two of the rows apart. -/
def Untied (keys : List SortKey) (rows : List TreeRow) : Prop :=
  rows.Pairwise fun left right => compareRows keys left right ≠ .eq

theorem Untied.perm (untied : Untied keys rows) (perm : listed.Perm rows) : Untied keys listed := by
  refine (perm.pairwise_iff fun {left right} apart tied => apart ?_).mpr untied
  rw [compareRows_swap, tied]
  rfl

theorem Arranges.eq_of_untied (arranges : Arranges keys rows listed)
    (otherArranges : Arranges keys rows other) (untied : Untied keys rows) : listed = other := by
  have strict {listed : List TreeRow} (arranges : Arranges keys rows listed) :
      listed.Pairwise fun left right => compareRows keys left right = .lt := by
    refine (arranges.sorted.and (untied.perm arranges.perm)).imp fun {left right} both => ?_
    cases order : compareRows keys left right with
    | lt => rfl
    | eq => exact absurd order both.2
    | gt => exact absurd order both.1
  refine List.Perm.eq_of_pairwise (fun left right _ _ less greater => ?_) (strict arranges)
    (strict otherArranges) (arranges.perm.trans otherArranges.perm.symm)
  rw [compareRows_swap, less] at greater
  cases greater

end TreeQuery

namespace Session

open TreeQuery

variable {session prepared : Session} {query : TreeQuery} {rows listed other : List TreeRow}
  {treeRow : TreeRow} {key : Value} {fault : Fault} {nodes : List Entity}

/-! ## The nodes of some rows -/

/-- The node that a query answers for one of some rows. -/
def nodeAmong (session : Session) (query : TreeQuery) (rows : List TreeRow) (treeRow : TreeRow) :
    Entity :=
  if query.expression.isSome then .ofTreeRow (firstOf rows treeRow)
  else (session.entity? treeRow.row.key).getD (.ofRow (firstOf rows treeRow).row)

theorem key_firstOf (member : treeRow ∈ rows) : (firstOf rows treeRow).row.key = treeRow.row.key := by
  simpa using List.find?_some (find?_eq_firstOf member)

theorem key_nodeAmong (member : treeRow ∈ rows) :
    (session.nodeAmong query rows treeRow).key = treeRow.row.key := by
  unfold nodeAmong
  split
  · exact key_firstOf member
  · cases known : session.entity? treeRow.row.key with
    | some entity => exact key_of_entity? known
    | none => exact key_firstOf member

theorem exists_run_take (query : TreeQuery) (rows : List TreeRow) (session : Session) :
    ∃ after, (take query rows).run.run session =
      (.ok (rows.map (session.nodeAmong query rows)), after) := by
  cases recursive : query.expression.isSome with
  | true =>
    rw [run_take_of_expression recursive, List.map_map]
    refine ⟨_, congrArg (fun nodes => (Except.ok nodes, _)) (List.map_congr_left fun treeRow _ => ?_)⟩
    simp [nodeAmong, recursive]
  | false =>
    have known : rows.filterMap (fun treeRow => (session.learn rows).entity? treeRow.row.key) =
        rows.map (session.nodeAmong query rows) := by
      rw [← List.filterMap_eq_map]
      refine List.filterMap_congr fun treeRow member => ?_
      rw [entity?_learn, find?_eq_firstOf member]
      cases found : session.entity? treeRow.row.key <;> simp [nodeAmong, recursive, found]
    unfold take
    rw [if_neg (by simp [recursive]), run_bind_of_ok (run_modify _ _), run_bind_of_ok (run_get _), known]
    exact ⟨_, rfl⟩

/-- The first of some rows is answered with the same node whether or not the others are. -/
theorem nodeAmong_take_one :
    (rows.take 1).map (session.nodeAmong query (rows.take 1)) =
      (rows.map (session.nodeAmong query rows)).take 1 := by
  cases rows with
  | nil => rfl
  | cons first rows => simp [nodeAmong, firstOf]

/-- In a table with keys the node shows the columns of its row, unless it was known to a base query. -/
theorem current_nodeAmong {kind : KeyKind} {table : Table} (keyed : table.IsKeyed kind)
    (members : ∀ treeRow ∈ rows, treeRow.row ∈ table) (member : treeRow ∈ rows) :
    (session.nodeAmong query rows treeRow).current =
      if query.expression.isSome then .ofRow treeRow.row
      else ((session.entity? treeRow.row.key).getD (.ofRow treeRow.row)).current := by
  have same : (firstOf rows treeRow).row = treeRow.row := keyed.eq_of_key
    (members _ (List.mem_of_find?_eq_some (find?_eq_firstOf member))) (members treeRow member)
    (key_firstOf member)
  unfold nodeAmong
  rw [← same]
  split <;> rfl

/-! ## The three answers -/

theorem run_all_of_prepare (ran : (prepare query).run.run session = (.ok (), prepared)) :
    ((all query).run.run session).1 = (query.rows? prepared.table).elim (.error .endlessWalk)
      fun rows => .ok (rows.map (prepared.nodeAmong query rows)) := by
  have read := run_rows_of_prepare ran
  unfold all
  cases found : query.rows? prepared.table with
  | none =>
    rw [found] at read
    rw [run_bind_of_error read]
    rfl
  | some rows =>
    rw [found] at read
    obtain ⟨after, taken⟩ := exists_run_take query rows prepared
    rw [run_bind_of_ok read, taken]
    rfl

theorem run_first_of_prepare (ran : (prepare query).run.run session = (.ok (), prepared)) :
    ((first query).run.run session).1 = (query.rows? prepared.table).elim (.error .endlessWalk)
      fun rows => .ok (rows.map (prepared.nodeAmong query rows)).head? := by
  have read := run_rows_of_prepare ran
  unfold first
  cases found : query.rows? prepared.table with
  | none =>
    rw [found] at read
    rw [run_bind_of_error read]
    rfl
  | some rows =>
    rw [found] at read
    obtain ⟨after, taken⟩ := exists_run_take query (rows.take 1) prepared
    rw [nodeAmong_take_one] at taken
    rw [run_bind_of_ok read, run_bind_of_ok taken]
    cases rows <;> rfl

theorem run_count_of_prepare (ran : (prepare query).run.run session = (.ok (), prepared)) :
    ((count query).run.run session).1 = (query.rows? prepared.table).elim (.error .endlessWalk)
      fun rows => .ok rows.length := by
  have counted : query.count? prepared.table = (query.rows? prepared.table).map List.length := by
    unfold count? TreeQuery.rows?
    rw [Option.map_map]
    exact congrArg (Option.map · _) (funext fun source => (length_arranged _ _).symm)
  rw [run_count_eq, ran]
  dsimp only
  rw [counted]
  cases query.rows? prepared.table <;> rfl

theorem arranges_rows {kind : KeyKind} {table : Table} (keyed : table.IsKeyed kind)
    (labels : table.HasLabels) (found : query.rows? table = some rows) :
    Arranges query.orders rows rows := by
  refine ⟨.refl rows, ?_⟩
  obtain ⟨source, yields, rfl⟩ := Option.map_eq_some_iff.mp found
  exact pairwise_arranged fun treeRow member =>
    (TreeRow.yielded_of_sourceRows? yields treeRow (mem_matching.mp member).1).isOrdered keyed labels

/-- Whatever orders the rows are listed in for all nodes and for the first one, the first node is there
iff there are nodes, and is one of them; if no two rows are tied, it is the first of them. -/
theorem exists_nodes_of_arranges (found : query.rows? prepared.table = some rows)
    (arranges : Arranges query.orders rows listed) (otherArranges : Arranges query.orders rows other) :
    ∃ shown first, ((take query listed).run.run prepared).1 = .ok shown ∧
      ((take query (other.take 1)).run.run prepared).1 = .ok first ∧
      shown.length = rows.length ∧ (first = [] ↔ shown = []) ∧
      (∀ node ∈ first, ∃ same ∈ shown, same.key = node.key ∧
        ∀ kind, prepared.table.IsKeyed kind → same.current = node.current) ∧
      (Untied query.orders rows → first = shown.take 1) := by
  obtain ⟨after, taken⟩ := exists_run_take query listed prepared
  obtain ⟨afterFirst, takenFirst⟩ := exists_run_take query (other.take 1) prepared
  refine ⟨_, _, by rw [taken], by rw [takenFirst], ?_, ?_, fun node member => ?_, fun untied => ?_⟩
  · rw [List.length_map, arranges.perm.length_eq]
  · have none : other = [] ↔ listed = [] := by
      rw [← List.length_eq_zero_iff, ← List.length_eq_zero_iff, otherArranges.perm.length_eq,
        arranges.perm.length_eq]
    simp [none]
  · obtain ⟨treeRow, head, rfl⟩ := List.mem_map.mp member
    have otherMember := List.mem_of_mem_take head
    have inListed := arranges.perm.symm.subset (otherArranges.perm.subset otherMember)
    refine ⟨_, List.mem_map_of_mem inListed, (key_nodeAmong inListed).trans (key_nodeAmong head).symm,
      fun kind keyed => ?_⟩
    have members := mem_of_rows? found
    rw [current_nodeAmong keyed (fun row inside => members row (arranges.perm.subset inside)) inListed,
      current_nodeAmong keyed (fun row inside =>
        members row (otherArranges.perm.subset (List.mem_of_mem_take inside))) head]
  · rw [otherArranges.eq_of_untied arranges untied, nodeAmong_take_one]

/-- In any session a query for all nodes, for the first one and for their number fail alike, or they
agree: there is one node for each row of the query, as often as a key comes, and the first node is the
first of all. This rests on the order in which the rows are listed where sort keys leave it open; but in
any such order the first node is there iff there are nodes, and is one of them. -/
theorem runs_agree (session : Session) (query : TreeQuery) :
    (∀ fault, ((all query).run.run session).1 = .error fault →
      ((first query).run.run session).1 = .error fault ∧
        ((count query).run.run session).1 = .error fault) ∧
    ∀ nodes, ((all query).run.run session).1 = .ok nodes →
      ((count query).run.run session).1 = .ok nodes.length ∧
      ((first query).run.run session).1 = .ok nodes.head? ∧
      ∃ prepared rows, (prepare query).run.run session = (.ok (), prepared) ∧
        query.rows? prepared.table = some rows ∧
        nodes.map Entity.key = rows.map (fun treeRow => treeRow.row.key) ∧
        (∀ kind, prepared.table.IsKeyed kind → prepared.table.HasLabels →
          Arranges query.orders rows rows) ∧
        ∀ listed other, Arranges query.orders rows listed → Arranges query.orders rows other →
          ∃ shown first, ((take query listed).run.run prepared).1 = .ok shown ∧
            ((take query (other.take 1)).run.run prepared).1 = .ok first ∧
            shown.length = nodes.length ∧ (first = [] ↔ shown = []) ∧
            (∀ node ∈ first, ∃ same ∈ shown, same.key = node.key ∧
              ∀ kind, prepared.table.IsKeyed kind → same.current = node.current) ∧
            (Untied query.orders rows → first = shown.take 1) := by
  cases ran : (prepare query).run.run session with
  | mk result prepared =>
    cases result with
    | error fault =>
      have failed : (Session.rows query).run.run session = (.error fault, prepared) :=
        run_bind_of_error ran
      have failedAll : (all query).run.run session = (.error fault, prepared) :=
        run_bind_of_error failed
      have failedFirst : (first query).run.run session = (.error fault, prepared) :=
        run_bind_of_error failed
      have failedCount : (count query).run.run session = (.error fault, prepared) :=
        run_bind_of_error ran
      rw [failedAll, failedFirst, failedCount]
      exact ⟨fun _ same => by cases same; exact ⟨rfl, rfl⟩, fun _ answered => by cases answered⟩
    | ok done =>
      rw [run_all_of_prepare ran, run_first_of_prepare ran, run_count_of_prepare ran]
      cases found : query.rows? prepared.table with
      | none =>
        exact ⟨fun _ same => by cases same; exact ⟨rfl, rfl⟩, fun _ answered => by cases answered⟩
      | some rows =>
        refine ⟨fun _ failed => (by cases failed), fun nodes answered => ?_⟩
        obtain rfl : rows.map (prepared.nodeAmong query rows) = nodes := Except.ok.inj answered
        have length : (rows.map (prepared.nodeAmong query rows)).length = rows.length :=
          List.length_map _
        refine ⟨congrArg Except.ok length.symm, rfl, prepared, rows, rfl, found, ?_,
          fun kind keyed labels => arranges_rows keyed labels found, fun listed other => ?_⟩
        · rw [List.map_map]
          exact List.map_congr_left fun treeRow member => key_nodeAmong member
        · rw [length]
          exact exists_nodes_of_arranges found

/-- Around a cycle one key is counted twice, and the row that comes first by depth is answered first. -/
theorem runs_agree_aroundOnce :
    ∃ base query nodes, Setting.related { model := .standard } aroundOnce = .ok base ∧
      base.applyAll [.breadthFirst] = .ok query ∧
      ((all query).run.run (.start { model := .standard } mutualParents)).1 = .ok nodes ∧
      nodes.map Entity.key = [.int 1, .int 2, .int 1] ∧
      ((count query).run.run (.start { model := .standard } mutualParents)).1 = .ok 3 ∧
      ((first query).run.run (.start { model := .standard } mutualParents)).1 = .ok nodes.head? := by
  obtain ⟨base, query, rows, built, chain, prepared, finite, keys⟩ :
      ∃ base query rows, Setting.related { model := .standard } aroundOnce = .ok base ∧
        base.applyAll [.breadthFirst] = .ok query ∧
        (prepare query).run.run (.start { model := .standard } mutualParents) =
          (.ok (), .start { model := .standard } mutualParents) ∧
        query.rows? mutualParents = some rows ∧
        rows.map (fun treeRow => treeRow.row.key) = [.int 1, .int 2, .int 1] := by
    refine ⟨_, _, [⟨⟨.int 1, .int 2, .text "one", none⟩, .int 0, .text "1"⟩,
      ⟨⟨.int 2, .int 1, .text "two", none⟩, .int 1, .text "1.2"⟩,
      ⟨⟨.int 1, .int 2, .text "one", none⟩, .int 2, .text "1.2.1"⟩], rfl, rfl, rfl,
      congrArg some ?_, rfl⟩
    exact List.mergeSort_of_pairwise (by decide)
  obtain ⟨nodes, answered⟩ : ∃ nodes,
      ((all query).run.run (.start { model := .standard } mutualParents)).1 = .ok nodes := by
    have found : query.rows? (Session.start { model := .standard } mutualParents).table = some rows :=
      finite
    rw [run_all_of_prepare prepared, found]
    exact ⟨_, rfl⟩
  obtain ⟨counted, first, after, others, ran, found, same, -⟩ :=
    (runs_agree (.start { model := .standard } mutualParents) query).2 nodes answered
  obtain rfl : Session.start { model := .standard } mutualParents = after :=
    (Prod.mk.inj (prepared.symm.trans ran)).2
  obtain rfl : rows = others := Option.some.inj (finite.symm.trans found)
  rw [keys] at same
  have length : nodes.length = 3 := by simpa using congrArg List.length same
  exact ⟨base, query, nodes, built, chain, answered, same, length ▸ counted, first⟩

end Session
end AdjacencyForest
