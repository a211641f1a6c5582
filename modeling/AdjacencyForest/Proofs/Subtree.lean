import AdjacencyForest.Proofs.Compilation
import AdjacencyForest.Service.Forest

/-!
# Subtrees

Whether a key is that of a row or of one below it is asked by a walk down from the row, limited by
the count of rows of the table. That is as far as a walk without repetition can go, so the limit
leaves nothing out, also where rows lie on cycles.

Main statements: `isAtOrBelow_iff` says what an answer means, `exists_isAtOrBelow` when there is one.
-/

open Relation

namespace AdjacencyForest

open RecursiveExpression

namespace Table

variable {kind : KeyKind} {table : Table} {direction : Direction} {row next other : Row}

theorem exists_short_walk (reached : ReflTransGen (table.Joined direction) row other)
    (member : row ∈ table) :
    ∃ rest, (row :: rest).IsChain direction.Joins ∧ (∀ next ∈ row :: rest, next ∈ table) ∧
      (row :: rest).getLast? = some other ∧ (row :: rest).length ≤ table.length := by
  obtain ⟨rest, chain, nodup, last⟩ := exists_simple_walk reached
  have members : ∀ next ∈ row :: rest, next ∈ table := fun next found =>
    mem_of_reachable (reflTransGen_of_mem chain found) member
  exact ⟨rest, chain.imp fun _ _ joined => joined.2.2, members, last,
    length_le_of_nodup members nodup⟩

end Table

namespace TreeQuery

variable {expression : RecursiveExpression} {table : Table}

theorem parameters_ofExpression : (ofExpression expression).parameters = expression.parameters := by
  simp [parameters, ofExpression]

theorem rows?_ofExpression : (ofExpression expression).rows? table = expression.rows? table := by
  have unfiltered (source : List TreeRow) :
      (ofExpression expression).matching table source = source :=
    List.filter_eq_self.mpr fun _ _ => rfl
  have same : (ofExpression expression).rows? table =
      (expression.rows? table).map ((ofExpression expression).matching table) := rfl
  rw [same, funext unfiltered, Option.map_id']

end TreeQuery

namespace Service

variable {settings : Settings} {table : Table} {row : Row} {candidate : Value} {below : Bool}

/-- The traversal of a node and all below it, as deep as the table has rows. -/
def subtreeTraversal (table : Table) (row : Row) : Traversal :=
  .ofModel .standard .down (.criterion (.equals (.column .key) row.key.toJson)) (.int 0) true
    (.int table.length)

def subtreePlan (table : Table) (row : Row) : WalkPlan :=
  (subtreeTraversal table row).plan .standard table (.equals (.column .key) row.key.toJson) 0
    (some table.length)

theorem fits_subtreeTraversal : (subtreeTraversal table row).Fits .standard
    (.equals (.column .key) row.key.toJson) 0 (some table.length) :=
  Traversal.fits_ofModel .down true (some (table.length : Int))

theorem isAnchor_subtreePlan {id : Int} (key : row.key = .int id) (fits : fitsInt64 id = true)
    {other : Row} (admitted : KeyKind.integer.Admits other.key) :
    (subtreePlan table row).isAnchor other = true ↔ other.key = row.key := by
  have given : KeyKind.integer.Admits row.key := KeyKind.admits_integer_iff.mpr ⟨id, key⟩
  have bindable : row.key.IsBindable := by
    simp [Value.IsBindable, key, Value.toJson, Value.ofJson, fits]
  exact @TreeRow.satisfies_key .standard table.parents other row.key admitted given bindable

theorem subtreeQuery_eq_ok {query : TreeQuery} : subtreeQuery settings table row = .ok query ↔
    ∃ expression, compile settings.registry .sqlite .standard ⟨"nodes", none⟩
      (subtreeTraversal table row) = .ok expression ∧ query = .ofExpression expression := by
  have same : subtreeQuery settings table row =
      (compile settings.registry .sqlite .standard ⟨"nodes", none⟩
        (subtreeTraversal table row)).bind fun expression => .ok (.ofExpression expression) := rfl
  rw [same]
  cases compile settings.registry .sqlite .standard ⟨"nodes", none⟩
    (subtreeTraversal table row) with
  | error fault => simp [Except.bind]
  | ok expression => simp [Except.bind, eq_comm]

theorem queryRows_eq_ok {query : TreeQuery} {rows : List TreeRow} :
    queryRows query table = .ok rows ↔
      TreeQuery.checkParameters query.parameters = .ok () ∧ query.rows? table = some rows := by
  unfold queryRows
  cases TreeQuery.checkParameters query.parameters with
  | error fault => simp [bind, Except.bind]
  | ok done =>
    cases query.rows? table with
    | none => simp [bind, Except.bind, throw_ne_ok]
    | some found => simp [bind, Except.bind, pure_eq_ok]

theorem checkParameters_subtree {id : Int} (key : row.key = .int id) {registry : Registry}
    {expression : RecursiveExpression}
    (compiled : compile registry .sqlite .standard ⟨"nodes", none⟩ (subtreeTraversal table row) =
      .ok expression) :
    TreeQuery.checkParameters expression.parameters = .ok () ↔
      fitsInt64 id = true ∧ fitsInt64 table.length = true := by
  rw [checkParameters_of_compile fits_subtreeTraversal compiled, TreeQuery.checkParameters_eq_ok]
  by_cases fits : fitsInt64 id = true <;>
    simp [key, Value.toJson, Criterion.equals, Criterion.parameters, Value.ofParameter,
      Value.ofJson, fits, subtreeTraversal, Traversal.ofModel]

theorem rows_subtree (keyed : table.IsKeyed .integer) (fits : fitsInt64 table.length = true)
    {registry : Registry} {expression : RecursiveExpression}
    (compiled : compile registry .sqlite .standard ⟨"nodes", none⟩ (subtreeTraversal table row) =
      .ok expression) :
    ∃ walks : List (List Row), (∀ walk, walk ∈ walks ↔ (subtreePlan table row).IsWalk table walk) ∧
      expression.rows? table = some (walks.map (subtreePlan table row).rowOf) := by
  have fitsNegated : fitsInt64 (-(table.length : Int)) = true := by
    simp only [fitsInt64_iff] at *
    omega
  have range : (subtreePlan table row).InRange table :=
    WalkPlan.inRange_of_limit rfl rfl fits fitsNegated table
  have follows := follows_of_compile fits_subtreeTraversal compiled table
  obtain ⟨walks, -, mem_walks, rows⟩ :=
    follows.exists_walks keyed range fun unlimited => absurd unlimited (Option.some_ne_none _)
  exact ⟨walks, mem_walks, rows⟩

theorem exists_walk_iff (keyed : table.IsKeyed .integer) (member : row ∈ table) {id : Int}
    (key : row.key = .int id) (fits : fitsInt64 id = true) {other : Row} :
    (∃ walk, (subtreePlan table row).IsWalk table walk ∧ walk.getLast? = some other) ↔
      ReflTransGen (table.Joined .down) row other := by
  constructor
  · rintro ⟨walk, made, last⟩
    obtain ⟨first, head, anchor⟩ := made.anchored
    obtain ⟨rest, rfl⟩ := List.head?_eq_some_iff.mp head
    have firstMember := made.members first (by simp)
    have same := (isAnchor_subtreePlan key fits (keyed.key first firstMember)).mp anchor
    obtain rfl := keyed.eq_of_key firstMember member same
    exact reflTransGen_of_mem made.chain (List.mem_of_getLast? last)
  · intro reached
    obtain ⟨rest, chain, members, last, short⟩ := Table.exists_short_walk reached member
    refine ⟨row :: rest, ⟨⟨row, rfl, ?_⟩, members, chain, .inr fun limit given => ?_⟩, last⟩
    · exact (isAnchor_subtreePlan key fits (keyed.key row member)).mpr rfl
    · obtain rfl : (table.length : Int) = limit := Option.some.inj given
      change (0 : Int) + (((row :: rest).length - 1 : Nat) : Int) ≤ _
      omega

theorem isAtOrBelow_iff (keyed : table.IsKeyed .integer) (member : row ∈ table)
    (answered : isAtOrBelow settings table row candidate = .ok below) :
    below = true ↔
      ∃ other, other.key = candidate ∧ ReflTransGen (table.Joined .down) row other := by
  obtain ⟨id, key⟩ := KeyKind.admits_integer_iff.mp (keyed.key row member)
  unfold isAtOrBelow at answered
  obtain ⟨query, queried, answered⟩ := bind_eq_ok.mp answered
  obtain ⟨rows, found, answered⟩ := bind_eq_ok.mp answered
  obtain ⟨expression, compiled, rfl⟩ := subtreeQuery_eq_ok.mp queried
  obtain ⟨accepted, found⟩ := queryRows_eq_ok.mp found
  rw [TreeQuery.parameters_ofExpression, checkParameters_subtree key compiled] at accepted
  rw [TreeQuery.rows?_ofExpression] at found
  obtain ⟨walks, mem_walks, yielded⟩ := rows_subtree keyed accepted.2 compiled
  obtain rfl := Option.some.inj (yielded.symm.trans found)
  obtain rfl := pure_eq_ok.mp answered
  simp only [List.any_map, List.any_eq_true, mem_walks, Function.comp_apply, beq_iff_eq]
  constructor
  · rintro ⟨walk, made, same⟩
    have last := List.getLast?_eq_some_getLast made.ne_nil
    refine ⟨_, ?_, (exists_walk_iff keyed member key accepted.1).mp ⟨walk, made, last⟩⟩
    simpa [WalkPlan.rowOf, last] using same
  · rintro ⟨other, same, reached⟩
    obtain ⟨walk, made, last⟩ := (exists_walk_iff keyed member key accepted.1).mpr reached
    exact ⟨walk, made, by simpa [WalkPlan.rowOf, last] using same⟩

theorem exists_isAtOrBelow (keyed : table.IsKeyed .integer) {id : Int} (key : row.key = .int id)
    (fits : fitsInt64 id = true) (fitsLength : fitsInt64 table.length = true)
    (supported : settings.registry.grammarFor .sqlite = .ok .sqlite) (candidate : Value) :
    ∃ below, isAtOrBelow settings table row candidate = .ok below := by
  have compiles : ∃ expression, compile settings.registry .sqlite .standard ⟨"nodes", none⟩
      (subtreeTraversal table row) = .ok expression := exists_compile fits_subtreeTraversal supported
  obtain ⟨expression, compiled⟩ := compiles
  obtain ⟨walks, -, rows⟩ := rows_subtree keyed fitsLength compiled
  have accepted := (checkParameters_subtree key compiled).mpr ⟨fits, fitsLength⟩
  have queried := subtreeQuery_eq_ok.mpr ⟨expression, compiled, rfl⟩
  have found := queryRows_eq_ok.mpr (by
    rw [TreeQuery.parameters_ofExpression, TreeQuery.rows?_ofExpression]
    exact ⟨accepted, rows⟩)
  exact ⟨_, bind_eq_ok.mpr ⟨_, queried, bind_eq_ok.mpr ⟨_, found, rfl⟩⟩⟩

end Service
end AdjacencyForest
