import AdjacencyForest.Proofs.Compilation
import AdjacencyForest.Proofs.SourceRows

/-!
# Walks that end

An evaluation that ends has followed no cycle: around a cycle there would be walks of every length.
So the depths of its rows are counts of steps, which have 64 bits.

Main statements: `exists_generation_eq_nil`, a queue that is drained has run out of rows;
`avoidsCycles_of_rows?`, without a limit only walks that reach no cycle end; `isCounted_of_rows?`,
each row of a traversal that ends has an integer as its depth and a text as its path.
-/

open Relation

namespace AdjacencyForest

open RecursiveExpression

namespace RecursiveExpression

variable {next : TreeRow → List TreeRow} {turns levels : Nat} {queue others rows : List TreeRow}

theorem generation_append : generation next (queue ++ others) levels =
    generation next queue levels ++ generation next others levels := by
  induction levels with
  | zero => rfl
  | succ levels ih => rw [generation, ih, List.flatMap_append, ← generation, ← generation]

theorem exists_generation_eq_nil (complete : drain next turns queue = some rows) :
    ∃ levels, generation next queue levels = [] := by
  induction turns generalizing queue rows with
  | zero =>
    cases queue with
    | nil => exact ⟨0, rfl⟩
    | cons => cases complete
  | succ turns ih =>
    cases queue with
    | nil => exact ⟨0, rfl⟩
    | cons first rest =>
      rw [drain_succ] at complete
      obtain ⟨later, drained, -⟩ := Option.map_eq_some_iff.mp complete
      obtain ⟨levels, ended⟩ := ih drained
      rw [generation_append, List.append_eq_nil_iff] at ended
      -- What the first row leads to is one generation behind the row itself.
      have joined : generation next [first] (levels + 1) = generation next (next first) levels := by
        rw [← generation_flatMap, List.flatMap_singleton]
      have split : generation next (first :: rest) (levels + 1) =
          generation next [first] (levels + 1) ++ generation next rest (levels + 1) :=
        @generation_append next (levels + 1) [first] rest
      refine ⟨levels + 1, ?_⟩
      rw [split, joined, ended.2, generation, ended.1]
      rfl

end RecursiveExpression

namespace WalkPlan

variable {plan : WalkPlan} {table : Table} {levels steps : Nat} {row : Row}

theorem exists_walk_around (unlimited : plan.limit = none)
    (made : ∃ walk ∈ plan.walks table steps, walk.getLast? = some row)
    (around : TransGen (table.Joined plan.direction) row row) (more : Nat) :
    ∃ walk last, walk ∈ plan.walks table (steps + more) ∧ walk.getLast? = some last ∧
      TransGen (table.Joined plan.direction) last last := by
  induction more with
  | zero =>
    obtain ⟨walk, found, last⟩ := made
    exact ⟨walk, row, found, last, around⟩
  | succ more ih =>
    obtain ⟨walk, last, found, reached, cycle⟩ := ih
    obtain ⟨next, joined, back⟩ := TransGen.head'_iff.mp cycle
    obtain ⟨made, length⟩ := mem_walks.mp found
    refine ⟨walk ++ [next], next, mem_walks.mpr ⟨?_, by simp [length]; omega⟩, by simp,
      TransGen.tail' back joined⟩
    refine (isWalk_append_singleton made.ne_nil).mpr ⟨made, joined.2.1, fun other same => ?_,
      allows_of_unlimited unlimited _⟩
    obtain rfl := Option.some.inj (reached.symm.trans same)
    exact joined.2.2

theorem avoidsCycles_of_walks_eq_nil (unlimited : plan.limit = none)
    (ends : plan.walks table levels = []) : plan.AvoidsCycles table := by
  intro anchor member selected row reached around
  obtain ⟨rest, chain, -, last⟩ := exists_simple_walk reached
  have members : ∀ next ∈ anchor :: rest, next ∈ table := fun next found =>
    Table.mem_of_reachable (reflTransGen_of_mem chain found) member
  have made : plan.IsWalk table (anchor :: rest) :=
    ⟨⟨anchor, rfl, selected⟩, members, chain.imp fun _ _ joined => joined.2.2,
      allows_of_unlimited unlimited _⟩
  obtain ⟨walk, _, found, -⟩ := exists_walk_around unlimited
    ⟨_, mem_walks.mpr ⟨made, List.length_cons⟩, last⟩ (Table.onCycle_iff.mp around) levels
  rw [walks_eq_nil_of_le ends (Nat.le_add_left _ _)] at found
  exact List.not_mem_nil found

end WalkPlan

theorem avoidsCycles_of_rows? {expression : RecursiveExpression} {plan : WalkPlan} {kind : KeyKind}
    {table : Table} {rows : List TreeRow} (follows : expression.Follows plan table)
    (keyed : table.IsKeyed kind) (unlimited : plan.limit = none)
    (complete : expression.rows? table = some rows) : plan.AvoidsCycles table := by
  obtain ⟨levels, ended⟩ := exists_generation_eq_nil complete
  rw [follows.generation_eq_walks keyed (follows.stopsWith_of_unlimited unlimited),
    List.map_eq_nil_iff] at ended
  exact WalkPlan.avoidsCycles_of_walks_eq_nil unlimited ended

/-! ## Depths and paths -/

/-- The depth of the row is an integer of the store, and its path is a text. -/
structure TreeRow.IsCounted (treeRow : TreeRow) : Prop where
  depth : ∃ i, treeRow.depth = .int i ∧ fitsInt64 i = true
  path : ∃ s, treeRow.path = .text s

variable {registry : Registry} {engine : Engine} {model : TreeModel} {source : Source}
  {spec : Traversal} {criterion : Criterion} {start : Int} {limit : Option Int}
  {expression : RecursiveExpression} {table : Table} {rows : List TreeRow} {treeRow : TreeRow}
  {row : Row}

theorem fits_of_near (near : -1 ≤ start ∧ start ≤ 1) : fitsInt64 start = true := by
  simp only [fitsInt64_iff]
  omega

/-- The condition to go on keeps the next depth in the range of the store. -/
theorem isCounted_extend {plan : WalkPlan} {bound : Int} (follows : expression.Follows plan table)
    (keyed : table.IsKeyed model.keyKind) (given : plan.limit = some bound)
    (bounded : match plan.direction with
      | .up => fitsInt64 (-bound) = true
      | .down => fitsInt64 bound = true)
    (counted : treeRow.IsCounted) (more : expression.continues treeRow = true)
    (member : row ∈ table) : (expression.extend treeRow row).IsCounted := by
  obtain ⟨i, depth, fits⟩ := counted.depth
  obtain ⟨s, path⟩ := counted.path
  have text := KeyKind.text?_key (keyed.key row member)
  -- The step was allowed because the depth was short of the limit, which fits.
  have further : fitsInt64 (i + plan.depthStep) = true := by
    unfold RecursiveExpression.continues at more
    rw [follows.guard, WalkPlan.guard, given, Option.map_some] at more
    unfold WalkPlan.depthStep
    cases direction : plan.direction with
    | up =>
      simp only [direction] at more bounded
      rw [TreeRow.satisfies_depth depth bounded] at more
      simp only [Comparison.holds, beq_iff_eq, Std.compare_eq_gt] at more
      simp only [fitsInt64_iff] at fits bounded ⊢
      omega
    | down =>
      simp only [direction] at more bounded
      rw [TreeRow.satisfies_depth depth bounded] at more
      simp only [Comparison.holds, beq_iff_eq, Std.compare_eq_lt] at more
      simp only [fitsInt64_iff] at fits bounded ⊢
      omega
  refine ⟨⟨i + plan.depthStep, ?_, further⟩,
    ⟨s ++ expression.spec.separator ++ row.keyText, ?_⟩⟩
  · rw [extend, depth, follows.depthStep_eq, Value.plus, if_pos further]
  · rw [extend, path, follows.keyColumn]
    exact Value.appendKey_text text

theorem isCounted_of_limit {plan : WalkPlan} {bound : Int} (follows : expression.Follows plan table)
    (keyed : table.IsKeyed model.keyKind) (given : plan.limit = some bound)
    (bounded : match plan.direction with
      | .up => fitsInt64 (-bound) = true
      | .down => fitsInt64 bound = true)
    (fits : fitsInt64 plan.start = true) (complete : expression.rows? table = some rows) :
    ∀ treeRow ∈ rows, treeRow.IsCounted := by
  refine drain_keeps TreeRow.IsCounted (fun treeRow anchor => ?_)
    (fun treeRow counted later joined => ?_) complete
  · obtain ⟨row, selected, rfl⟩ := List.mem_map.mp anchor
    have text := KeyKind.text?_key (keyed.key row (List.mem_filter.mp selected).1)
    refine ⟨⟨plan.start, ?_, fits⟩, ⟨row.keyText, ?_⟩⟩
    · rw [follows.start, Value.ofInt, if_pos fits]
    · simp [follows.keyColumn, Row.value, Value.asText, text]
  · unfold RecursiveExpression.successors at joined
    split at joined
    next more =>
      obtain ⟨row, selected, rfl⟩ := List.mem_map.mp joined
      exact isCounted_extend follows keyed given bounded counted more (List.mem_filter.mp selected).1
    next => cases joined

theorem isCounted_of_rows? (keyed : table.IsKeyed model.keyKind)
    (fits : spec.Fits model criterion start limit) (near : -1 ≤ start ∧ start ≤ 1)
    (compiled : compile registry engine model source spec = .ok expression)
    (accepted : TreeQuery.checkParameters expression.parameters = .ok ())
    (fitsLength : fitsInt64 table.length = true)
    (complete : expression.rows? table = some rows) : ∀ treeRow ∈ rows, treeRow.IsCounted := by
  have follows := follows_of_compile fits compiled table
  obtain ⟨-, bounded⟩ := (checkParameters_of_compile fits compiled).mp accepted
  cases limit with
  | some bound =>
    exact isCounted_of_limit follows keyed rfl (bounded bound rfl) (fits_of_near near) complete
  | none =>
    have free := avoidsCycles_of_rows? follows keyed rfl complete
    have range := WalkPlan.inRange_of_avoidsCycles rfl near free fitsLength
    obtain ⟨walks, -, mem_walks, found⟩ := follows.exists_walks keyed range fun _ => free
    obtain rfl := Option.some.inj (complete.symm.trans found)
    intro treeRow member
    obtain ⟨walk, listed, rfl⟩ := List.mem_map.mp member
    exact ⟨⟨_, rfl, range.depth walk ((mem_walks walk).mp listed)⟩, ⟨_, rfl⟩⟩

end AdjacencyForest
