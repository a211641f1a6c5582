import AdjacencyForest.Proofs.Enumeration
import AdjacencyForest.Traversal.Evaluation

/-!
# The rows of a recursive expression

The queue of an evaluation works through generations of rows: the anchor rows, the rows joined with
them, and so on. For an expression that follows a plan, a generation is the walks of one length.

Main statements: `drain_generations`, a queue whose generations end is drained by as many turns as
they have rows; `generation_eq_walks`; `rows?_eq`, the evaluation ends and yields one row for each
walk of the plan; `storedRow_eq`, its depth is the count of steps as long as that has 64 bits.
-/

namespace AdjacencyForest

namespace RecursiveExpression

variable {next : TreeRow → List TreeRow} {turns more levels : Nat} {queue rows : List TreeRow}

/-- The rows that a queue holds after so many rounds. -/
def generation (next : TreeRow → List TreeRow) (queue : List TreeRow) : Nat → List TreeRow
  | 0 => queue
  | round + 1 => (generation next queue round).flatMap next

theorem generation_flatMap (round : Nat) :
    generation next (queue.flatMap next) round = generation next queue (round + 1) := by
  induction round with
  | zero => rfl
  | succ round ih =>
    rw [generation, ih]
    rfl

theorem drain_round (next : TreeRow → List TreeRow) (turns : Nat) (queue rest : List TreeRow) :
    drain next (queue.length + turns) (queue ++ rest) =
      (drain next turns (rest ++ queue.flatMap next)).map (queue ++ ·) := by
  -- The queue is worked off from the front, and what it leads to gathers behind the rest.
  induction queue generalizing rest with
  | nil => simp
  | cons first queue ih =>
    have length : (first :: queue).length + turns = queue.length + turns + 1 := by
      rw [List.length_cons]
      omega
    rw [length, List.cons_append, drain_succ, List.append_assoc, ih, Option.map_map,
      List.flatMap_cons, List.append_assoc]
    rfl

theorem drain_of_le (enough : turns ≤ more) (complete : drain next turns queue = some rows) :
    drain next more queue = some rows := by
  induction enough with
  | refl => exact complete
  | step _ ih => exact drain_mono ih

theorem drain_generations (ends : generation next queue levels = [])
    (enough : ((List.range levels).flatMap (generation next queue)).length ≤ turns) :
    drain next turns queue = some ((List.range levels).flatMap (generation next queue)) := by
  refine drain_of_le enough ?_
  clear enough
  induction levels generalizing queue with
  | zero =>
    obtain rfl : queue = [] := ends
    exact drain_nil next 0
  | succ levels ih =>
    have later : (List.range (levels + 1)).flatMap (generation next queue) =
        queue ++ (List.range levels).flatMap (generation next (queue.flatMap next)) := by
      rw [List.range_succ_eq_map, List.flatMap_cons, List.flatMap_map, funext generation_flatMap]
      rfl
    rw [← generation_flatMap] at ends
    rw [later, List.length_append]
    have round := drain_round next
      ((List.range levels).flatMap (generation next (queue.flatMap next))).length queue []
    rw [List.append_nil, List.nil_append, ih ends, Option.map_some] at round
    exact round

end RecursiveExpression

/-- The text of a row's key. -/
def Row.keyText (row : Row) : String := row.key.text?.getD ""

theorem KeyKind.text?_key {kind : KeyKind} {row : Row} (admitted : kind.Admits row.key) :
    row.key.text? = some row.keyText := by
  unfold Row.keyText
  cases key : row.key <;> cases kind <;> simp_all [Admits, Value.text?]

theorem Value.appendKey_text {separator before after : String} {key : Value}
    (text : key.text? = some after) :
    (Value.text before).appendKey separator key = .text (before ++ separator ++ after) := by
  simp only [appendKey, text]
  rfl

theorem TreeRow.satisfies_whereDepth {treeRow : TreeRow} {model : TreeModel} {parents : List Value}
    {bound : Int} (known : treeRow.depth.isNull = false) (fits : fitsInt64 bound = true)
    (comparison : Comparison) :
    (treeRow.reading model parents).satisfies (.compare .depth comparison (.int bound)) =
      comparison.holds (treeRow.depth.compareWith (.int bound)) := by
  have stored : Value.ofParameter .depth (.int bound) = .ok (.int bound) := by
    simp [Value.ofParameter, Value.ofJson, fits]
  have given : (Value.int bound).isNull = false := rfl
  simp only [Reading.satisfies, Reading.truth, Reading.compares, Reading.operand, stored,
    TreeRow.reading, TreeRow.value, TreeRow.fieldAffinity, Value.comparand, known, given]
  simp

theorem TreeRow.satisfies_depth {treeRow : TreeRow} {model : TreeModel} {parents : List Value}
    {depth bound : Int} (shown : treeRow.depth = .int depth) (fits : fitsInt64 bound = true)
    (comparison : Comparison) :
    (treeRow.reading model parents).satisfies (.compare .depth comparison (.int bound)) =
      comparison.holds (compare depth bound) := by
  have known : treeRow.depth.isNull = false := by
    rw [shown]
    rfl
  rw [satisfies_whereDepth known fits, shown]
  rfl

/-- The store takes the value when it is handed back as data. -/
def Value.IsBindable (value : Value) : Prop := Value.ofJson value.toJson = .ok value

theorem TreeRow.satisfies_key {model : TreeModel} {parents : List Value} {row : Row} {key : Value}
    (admitted : model.keyKind.Admits row.key) (given : model.keyKind.Admits key)
    (bindable : key.IsBindable) :
    ((TreeRow.ofRow row).reading model parents).satisfies
      (.equals (.column .key) key.toJson) = true ↔ row.key = key := by
  have parameter : Value.ofParameter (.column .key) key.toJson = .ok key := bindable
  have asked : Criterion.equals (.column .key) key.toJson =
      .compare (.column .key) .equal key.toJson := by
    cases kind : model.keyKind <;> cases key <;>
      simp_all [KeyKind.Admits, Criterion.equals, Value.toJson]
  have same : key.comparand (model.affinity .key) = key := by
    unfold TreeModel.affinity
    cases kind : model.keyKind <;> cases key <;> simp_all [KeyKind.Admits, Value.comparand]
  rw [asked, ← KeyKind.equals_iff admitted (.inr given)]
  simp only [Reading.satisfies, Reading.truth, Reading.compares, Reading.operand, parameter,
    TreeRow.reading, TreeRow.value, TreeRow.fieldAffinity, TreeRow.ofRow, Row.value, same]
  cases kind : model.keyKind <;> cases key <;> cases rowKey : row.key <;>
    simp_all [KeyKind.Admits, Comparison.holds, Value.equals, Value.isNull]

namespace TreeRow

variable {model : TreeModel} {table : Table} {kind : KeyKind} {treeRow : TreeRow}
  (keyed : table.IsKeyed kind) (member : treeRow.row ∈ table)
include keyed member

theorem isParent_iff : (table.parents.any fun parent => treeRow.row.key.equals parent) = true ↔
    ∃ row ∈ table, row.parent = treeRow.row.key := by
  have admitted := keyed.key treeRow.row member
  simp only [List.any_eq_true, Table.parents, List.mem_filter, List.mem_map, Bool.not_eq_true']
  constructor
  · rintro ⟨_, ⟨⟨row, found, rfl⟩, -⟩, same⟩
    exact ⟨row, found, ((KeyKind.equals_iff admitted (keyed.parent row found)).mp same).symm⟩
  · rintro ⟨row, found, same⟩
    exact ⟨row.parent, ⟨⟨row, found, rfl⟩, same ▸ KeyKind.isNull_of_admits admitted⟩,
      (KeyKind.equals_iff admitted (keyed.parent row found)).mpr same.symm⟩

theorem satisfies_isParent :
    (treeRow.reading model table.parents).satisfies (.isParent (.column .key)) = true ↔
      ∃ row ∈ table, row.parent = treeRow.row.key := by
  have given := KeyKind.isNull_of_admits (keyed.key treeRow.row member)
  rw [← isParent_iff keyed member]
  simp only [Reading.satisfies, Reading.truth, reading, value, Row.value, given]
  by_cases none : table.parents = []
  · simp [none]
  · simp [none]

theorem satisfies_isNoParent :
    (treeRow.reading model table.parents).satisfies (.isNoParent (.column .key)) = true ↔
      ¬ ∃ row ∈ table, row.parent = treeRow.row.key := by
  have given := KeyKind.isNull_of_admits (keyed.key treeRow.row member)
  rw [← isParent_iff keyed member]
  simp only [Reading.satisfies, Reading.truth, reading, value, Row.value, given]
  by_cases none : table.parents = []
  · simp [none]
  · simp [none]

end TreeRow

namespace WalkPlan

/-- The row that a walk yields: the columns of its last row, the depth, and all its keys as a path. -/
def rowOf (plan : WalkPlan) (walk : List Row) : TreeRow where
  row := walk.getLast?.getD default
  depth := .int (plan.depthAfter (walk.length - 1))
  path := .text (plan.separator.intercalate (walk.map Row.keyText))

/-- The condition on the rows that are continued from. -/
def guard (plan : WalkPlan) : Option Criterion :=
  plan.limit.map fun limit => match plan.direction with
    | .up => .compare .depth .greater (.int (-limit))
    | .down => .compare .depth .less (.int limit)

/-- The limit and all depths are integers of the store. -/
structure InRange (plan : WalkPlan) (table : Table) : Prop where
  limit : ∀ limit, plan.limit = some limit → fitsInt64 limit = true ∧ fitsInt64 (-limit) = true
  depth : ∀ walk, plan.IsWalk table walk →
    fitsInt64 (plan.depthAfter (walk.length - 1)) = true

def depthStep (plan : WalkPlan) : Int :=
  match plan.direction with
  | .up => -1
  | .down => 1

/-- The depth after so many steps as the store computes it, which rounds beyond 64 bits. -/
def storedDepth (plan : WalkPlan) : Nat → Value
  | 0 => Value.ofInt plan.start
  | steps + 1 => (plan.storedDepth steps).plus plan.depthStep

/-- The row that the store makes of a walk. -/
def storedRow (plan : WalkPlan) (walk : List Row) : TreeRow :=
  { plan.rowOf walk with depth := plan.storedDepth (walk.length - 1) }

variable {plan : WalkPlan} {table : Table} {walk : List Row} {steps : Nat}

theorem depthAfter_zero : plan.depthAfter 0 = plan.start := by
  unfold depthAfter
  cases plan.direction <;> simp

theorem depthAfter_succ : plan.depthAfter (steps + 1) = plan.depthAfter steps + plan.depthStep := by
  unfold depthAfter depthStep
  cases plan.direction <;> simp <;> omega

theorem storedDepth_eq (start : fitsInt64 plan.start = true)
    (fits : fitsInt64 (plan.depthAfter steps) = true) :
    plan.storedDepth steps = .int (plan.depthAfter steps) := by
  induction steps with
  | zero => simp [storedDepth, Value.ofInt, start, depthAfter_zero]
  | succ steps ih =>
    -- What lies between two integers of 64 bits has 64 bits.
    have between : fitsInt64 (plan.depthAfter steps) = true := by
      unfold depthAfter at fits ⊢
      simp only [fitsInt64_iff] at start fits ⊢
      cases direction : plan.direction <;> simp only [direction] at fits ⊢ <;> omega
    rw [storedDepth, ih between, Value.plus, ← depthAfter_succ, if_pos fits]

theorem InRange.start (range : plan.InRange table) (made : plan.IsWalk table walk) :
    fitsInt64 plan.start = true := by
  obtain ⟨first, head, anchor⟩ := made.anchored
  have alone : plan.IsWalk table [first] :=
    ⟨⟨first, rfl, anchor⟩, by simpa using made.members first (List.mem_of_head? head),
      .singleton _, .inl rfl⟩
  rw [← depthAfter_zero]
  exact range.depth _ alone

theorem InRange.storedRow_eq (range : plan.InRange table) (made : plan.IsWalk table walk) :
    plan.storedRow walk = plan.rowOf walk := by
  rw [storedRow, storedDepth_eq (range.start made) (range.depth walk made)]
  rfl

end WalkPlan

/-- The expression makes the walks of the plan over a table. -/
structure RecursiveExpression.Follows (expression : RecursiveExpression) (plan : WalkPlan)
    (table : Table) : Prop where
  keyColumn : expression.keyColumn = .key
  parentColumn : expression.parentColumn = .parent
  direction : expression.spec.direction = plan.direction
  start : expression.initialDepth = plan.start
  separator : expression.spec.separator = plan.separator
  guard : expression.guard = plan.guard
  anchor : ∀ row ∈ table, ((TreeRow.ofRow row).reading expression.model table.parents).satisfies
    expression.anchor = plan.isAnchor row

/-- The store goes on from the rows of walks as far as the plan allows. -/
def RecursiveExpression.StopsWith (expression : RecursiveExpression) (plan : WalkPlan)
    (table : Table) : Prop :=
  ∀ walk, plan.IsWalk table walk →
    expression.continues (plan.storedRow walk) = plan.continues (walk.length - 1)

namespace RecursiveExpression.Follows

variable {expression : RecursiveExpression} {plan : WalkPlan} {kind : KeyKind} {table : Table}
  {walk : List Row} {row last : Row} {steps : Nat}

theorem stopsWith_of_unlimited (follows : expression.Follows plan table)
    (unlimited : plan.limit = none) : expression.StopsWith plan table := by
  intro walk _
  unfold RecursiveExpression.continues WalkPlan.continues
  rw [follows.guard, WalkPlan.guard, unlimited]
  rfl

/-- The store takes the limit in the form in which depths are compared with it. -/
theorem stopsWith_of_fits (follows : expression.Follows plan table)
    (bounded : ∀ limit, plan.limit = some limit → match plan.direction with
      | .up => fitsInt64 (-limit) = true
      | .down => fitsInt64 limit = true)
    (depths : ∀ walk, plan.IsWalk table walk → plan.storedRow walk = plan.rowOf walk) :
    expression.StopsWith plan table := by
  intro walk made
  rw [depths walk made]
  unfold RecursiveExpression.continues WalkPlan.continues
  rw [follows.guard, WalkPlan.guard]
  cases given : plan.limit with
  | none => rfl
  | some limit =>
    have fits := bounded limit given
    cases direction : plan.direction with
    | up =>
      simp only [direction] at fits
      simp only [Option.map_some]
      rw [TreeRow.satisfies_depth rfl fits]
      rw [Bool.eq_iff_iff]
      simp [Comparison.holds, Std.compare_eq_gt]
    | down =>
      simp only [direction] at fits
      simp only [Option.map_some]
      rw [TreeRow.satisfies_depth rfl fits]
      rw [Bool.eq_iff_iff]
      simp [Comparison.holds, Std.compare_eq_lt]

theorem stopsWith_of_inRange (follows : expression.Follows plan table)
    (range : plan.InRange table) : expression.StopsWith plan table := by
  refine follows.stopsWith_of_fits (fun limit given => ?_) fun _ => range.storedRow_eq
  obtain ⟨fits, fitsNegated⟩ := range.limit limit given
  cases plan.direction with
  | up => exact fitsNegated
  | down => exact fits

theorem joins_iff (follows : expression.Follows plan table) (keyed : table.IsKeyed kind)
    (lastMember : last ∈ table) (member : row ∈ table) :
    (last.value expression.linkFrom).equals (row.value expression.linkTo) = true ↔
      plan.direction.Joins last row := by
  simp only [linkFrom, linkTo, follows.direction, follows.keyColumn, follows.parentColumn]
  cases plan.direction with
  | up => exact KeyKind.equals_comm (keyed.key row member) (keyed.parent last lastMember)
  | down => exact KeyKind.equals_iff (keyed.key last lastMember) (keyed.parent row member)

theorem depthStep_eq (follows : expression.Follows plan table) :
    expression.depthStep = plan.depthStep := by
  unfold RecursiveExpression.depthStep WalkPlan.depthStep
  cases given : plan.direction <;> simp only [follows.direction, given]

theorem extend_storedRow (follows : expression.Follows plan table) (keyed : table.IsKeyed kind)
    (nonempty : walk ≠ []) (member : row ∈ table) :
    expression.extend (plan.storedRow walk) row = plan.storedRow (walk ++ [row]) := by
  have positive : 0 < walk.length := List.length_pos_iff.mpr nonempty
  have length : (walk ++ [row]).length - 1 = walk.length - 1 + 1 := by simp; omega
  have text := KeyKind.text?_key (keyed.key row member)
  unfold extend WalkPlan.storedRow WalkPlan.rowOf
  simp only [length, WalkPlan.storedDepth, follows.depthStep_eq, follows.keyColumn,
    follows.separator, Row.value, Value.appendKey_text text, List.map_append, List.map_cons,
    List.map_nil]
  rw [String.intercalate_append_of_ne_nil (by simpa using nonempty) (by simp)]
  simp

theorem successors_storedRow (follows : expression.Follows plan table) (keyed : table.IsKeyed kind)
    (stops : expression.StopsWith plan table) (made : plan.IsWalk table walk) :
    expression.successors table (plan.storedRow walk) =
      (plan.extensions table walk).map plan.storedRow := by
  unfold successors WalkPlan.extensions
  rw [stops walk made]
  split
  next more =>
    have found := List.getLast?_eq_some_getLast made.ne_nil
    have lastMember := made.members _ (List.getLast_mem made.ne_nil)
    have joined : List.filter (fun row => ((plan.storedRow walk).row.value expression.linkFrom).equals
        (row.value expression.linkTo)) table = plan.following table walk := by
      refine List.filter_congr fun row member => ?_
      rw [Bool.eq_iff_iff]
      simp only [WalkPlan.storedRow, WalkPlan.rowOf, found, Option.getD_some, decide_eq_true_eq,
        Option.mem_def, Option.some.injEq, forall_eq']
      exact follows.joins_iff keyed lastMember member
    rw [joined, List.map_map]
    refine List.map_congr_left fun row member => ?_
    exact follows.extend_storedRow keyed made.ne_nil (WalkPlan.mem_following.mp member).1
  next => rfl

theorem anchorRows_eq (follows : expression.Follows plan table) (keyed : table.IsKeyed kind) :
    expression.anchorRows table = (plan.walks table 0).map plan.storedRow := by
  simp only [anchorRows, WalkPlan.walks]
  rw [List.filter_congr follows.anchor, List.map_map]
  refine List.map_congr_left fun row found => ?_
  simp [WalkPlan.storedRow, WalkPlan.rowOf, WalkPlan.storedDepth, follows.start, follows.keyColumn,
    Row.value, Value.asText, KeyKind.text?_key (keyed.key row (List.mem_filter.mp found).1)]

theorem generation_eq_walks (follows : expression.Follows plan table) (keyed : table.IsKeyed kind)
    (stops : expression.StopsWith plan table) (steps : Nat) :
    generation (expression.successors table) (expression.anchorRows table) steps =
      (plan.walks table steps).map plan.storedRow := by
  induction steps with
  | zero => exact follows.anchorRows_eq keyed
  | succ steps ih =>
    rw [generation, ih, WalkPlan.walks, List.flatMap_map, List.map_flatMap]
    refine List.flatMap_congr fun walk made => ?_
    exact follows.successors_storedRow keyed stops (WalkPlan.mem_walks.mp made).1

theorem walks_levels (follows : expression.Follows plan table)
    (finite : plan.limit = none → plan.AvoidsCycles table) :
    plan.walks table (expression.levels table) = [] := by
  unfold levels
  rw [follows.guard, WalkPlan.guard, follows.start]
  cases given : plan.limit with
  | none => exact WalkPlan.walks_eq_nil_of_avoidsCycles (finite given)
  | some limit =>
    cases direction : plan.direction with
    | up =>
      simp only [Option.map_some, Json.toInteger]
      refine WalkPlan.walks_eq_nil_of_limit given ?_ (by omega)
      simp only [direction, WalkPlan.depthAfter]
      omega
    | down =>
      simp only [Option.map_some, Json.toInteger]
      refine WalkPlan.walks_eq_nil_of_limit given ?_ (by omega)
      simp only [direction, WalkPlan.depthAfter]
      omega

theorem rows?_eq (follows : expression.Follows plan table) (keyed : table.IsKeyed kind)
    (stops : expression.StopsWith plan table)
    (finite : plan.limit = none → plan.AvoidsCycles table) :
    expression.rows? table =
      some ((plan.enumeration table (expression.levels table)).map plan.storedRow) := by
  have generations : (List.range (expression.levels table)).flatMap
      (generation (expression.successors table) (expression.anchorRows table)) =
      (plan.enumeration table (expression.levels table)).map plan.storedRow := by
    rw [funext (follows.generation_eq_walks keyed stops), WalkPlan.enumeration, List.map_flatMap]
  have ends : generation (expression.successors table) (expression.anchorRows table)
      (expression.levels table) = [] := by
    rw [follows.generation_eq_walks keyed stops, follows.walks_levels finite, List.map_nil]
  have enough : ((List.range (expression.levels table)).flatMap
      (generation (expression.successors table) (expression.anchorRows table))).length ≤
      expression.turns table := by
    have bound : (plan.enumeration table (expression.levels table)).length ≤ _ :=
      WalkPlan.length_enumeration_le keyed (expression.levels table)
    have anchors : (expression.anchorRows table).length =
        (List.filter plan.isAnchor table).length := by
      rw [follows.anchorRows_eq keyed, WalkPlan.walks, List.length_map, List.length_map]
    rw [generations, List.length_map, turns, anchors]
    refine bound.trans ?_
    rw [Nat.mul_add, Nat.mul_one, Nat.mul_comm (expression.levels table), Nat.mul_assoc]
    exact Nat.le_add_left _ _
  rw [rows?, drain_generations ends enough, generations]

theorem exists_storedWalks (follows : expression.Follows plan table) (keyed : table.IsKeyed kind)
    (stops : expression.StopsWith plan table)
    (finite : plan.limit = none → plan.AvoidsCycles table) :
    ∃ walks : List (List Row), walks.Nodup ∧ (∀ walk, walk ∈ walks ↔ plan.IsWalk table walk) ∧
      expression.rows? table = some (walks.map plan.storedRow) :=
  ⟨plan.enumeration table (expression.levels table), WalkPlan.nodup_enumeration keyed _,
    fun _ => WalkPlan.mem_enumeration (follows.walks_levels finite),
    follows.rows?_eq keyed stops finite⟩

theorem exists_walks (follows : expression.Follows plan table) (keyed : table.IsKeyed kind)
    (range : plan.InRange table) (finite : plan.limit = none → plan.AvoidsCycles table) :
    ∃ walks : List (List Row), walks.Nodup ∧ (∀ walk, walk ∈ walks ↔ plan.IsWalk table walk) ∧
      expression.rows? table = some (walks.map plan.rowOf) := by
  obtain ⟨walks, nodup, mem_walks, rows⟩ :=
    follows.exists_storedWalks keyed (follows.stopsWith_of_inRange range) finite
  refine ⟨walks, nodup, mem_walks, rows.trans (congrArg some ?_)⟩
  exact List.map_congr_left fun walk made => range.storedRow_eq ((mem_walks walk).mp made)

end RecursiveExpression.Follows
end AdjacencyForest
