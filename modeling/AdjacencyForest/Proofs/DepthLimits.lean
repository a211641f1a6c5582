import AdjacencyForest.Proofs.DepthFirst
import AdjacencyForest.Proofs.Opposite

/-!
# Limits of depth

A limit cuts the walks of a plan at one length. So the rows of a query with a limit are a beginning
of the rows that it has with a greater one, or with none.

Main statements: `WalkPlan.walks_limited` and `walks_limited_eq_nil`, the walks of a length are there
all or not at all; `WalkPlan.filter_limited`, the walks with a limit are those without that are short
enough; `WalkPlan.isWithin_storedRow`, which the depth of a row tells, whatever its size;
`rows_of_limit`, the rows of the relations of a row and of the tree under a limit.
-/

open Relation

namespace AdjacencyForest

open RecursiveExpression

namespace WalkPlan

variable {plan : WalkPlan} {table : Table} {walk : List Row} {steps levels more near : Nat}
  {bound farther : Int}

/-! ## Walks under a limit -/

theorem enumeration_prefix (le : levels ≤ more) :
    plan.enumeration table levels <+: plan.enumeration table more := by
  obtain ⟨rest, rfl⟩ := Nat.exists_eq_add_of_le le
  rw [enumeration, enumeration, List.range_add, List.flatMap_append]
  exact List.prefix_append _ _

theorem enumeration_eq_of_le (ends : plan.walks table levels = []) (le : levels ≤ more) :
    plan.enumeration table more = plan.enumeration table levels := by
  induction le with
  | refl => rfl
  | step later ih =>
    rw [← ih, enumeration, List.range_succ, List.flatMap_append, List.flatMap_singleton,
      walks_eq_nil_of_le ends later, List.append_nil, enumeration]

theorem enumeration_eq_of_ends (ends : plan.walks table levels = [])
    (otherEnds : plan.walks table more = []) :
    plan.enumeration table levels = plan.enumeration table more := by
  rcases Nat.le_total levels more with le | le
  · exact (enumeration_eq_of_le ends le).symm
  · exact enumeration_eq_of_le otherEnds le

theorem filter_length_enumeration (most : Nat) :
    (plan.enumeration table levels).filter (fun walk => decide (walk.length - 1 ≤ most)) =
      plan.enumeration table (min levels (most + 1)) := by
  induction levels with
  | zero => simp [enumeration]
  | succ levels ih =>
    have last (steps : Nat) : plan.enumeration table (steps + 1) =
        plan.enumeration table steps ++ plan.walks table steps := by
      rw [enumeration, List.range_succ, List.flatMap_append, List.flatMap_singleton, enumeration]
    have length (walk : List Row) (made : walk ∈ plan.walks table levels) :
        walk.length - 1 = levels := by
      rw [(mem_walks.mp made).2, Nat.add_sub_cancel]
    rw [last, List.filter_append, ih]
    by_cases short : levels ≤ most
    · rw [List.filter_eq_self.mpr fun walk made => by simpa [length walk made] using short,
        Nat.min_eq_left (by omega), Nat.min_eq_left (by omega), last]
    · rw [List.filter_eq_nil_iff.mpr fun walk made => by simpa [length walk made] using short,
        Nat.min_eq_right (by omega), Nat.min_eq_right (by omega), List.append_nil]

def limited (plan : WalkPlan) (limit : Option Int) : WalkPlan := { plan with limit := limit }

/-- How many steps a limit leaves. -/
def room (plan : WalkPlan) (bound : Int) : Nat :=
  match plan.direction with
  | .up => (bound + plan.start).toNat
  | .down => (bound - plan.start).toNat

theorem allows_limited_iff :
    (plan.limited (some bound)).Allows steps ↔ steps ≤ plan.room bound := by
  unfold Allows room limited depthAfter
  cases plan.direction <;> simp only [Option.some.injEq, forall_eq'] <;> omega

theorem room_mono (le : bound ≤ farther) : plan.room bound ≤ plan.room farther := by
  unfold room
  cases plan.direction <;> simp only <;> omega

theorem walks_limited (within : steps ≤ plan.room bound) :
    (plan.limited (some bound)).walks table steps = (plan.limited none).walks table steps := by
  induction steps with
  | zero => rfl
  | succ steps ih =>
    rw [walks, walks, ih (by omega)]
    refine List.flatMap_congr fun walk made => ?_
    have length : walk.length - 1 = steps := by rw [(mem_walks.mp made).2, Nat.add_sub_cancel]
    have further : (plan.limited (some bound)).continues (walk.length - 1) = true := by
      rw [length]
      exact continues_iff.mpr (allows_limited_iff.mpr within)
    have unlimited : (plan.limited none).continues (walk.length - 1) = true := rfl
    rw [extensions, extensions, if_pos further, if_pos unlimited]
    rfl

theorem walks_limited_eq_nil (beyond : plan.room bound < steps) :
    (plan.limited (some bound)).walks table steps = [] := by
  refine List.eq_nil_iff_forall_not_mem.mpr fun walk made => ?_
  obtain ⟨made, length⟩ := mem_walks.mp made
  have allowed := made.allowed
  rw [length, Nat.add_sub_cancel] at allowed
  exact absurd (allows_limited_iff.mp allowed) (by omega)

theorem enumeration_limited (ends : (plan.limited (some bound)).walks table levels = []) :
    (plan.limited (some bound)).enumeration table levels =
      (plan.limited none).enumeration table (plan.room bound + 1) := by
  have beyond : (plan.limited (some bound)).walks table (plan.room bound + 1) = [] :=
    walks_limited_eq_nil (Nat.lt_succ_self _)
  rw [enumeration_eq_of_ends ends beyond]
  exact List.flatMap_congr fun steps found =>
    walks_limited (Nat.le_of_lt_succ (List.mem_range.mp found))

theorem filter_limited (ends : (plan.limited (some bound)).walks table levels = [])
    (unlimitedEnds : (plan.limited none).walks table more = []) :
    (plan.limited (some bound)).enumeration table levels =
      ((plan.limited none).enumeration table more).filter
        fun walk => decide (walk.length - 1 ≤ plan.room bound) := by
  rw [enumeration_limited ends, filter_length_enumeration]
  rcases Nat.le_total more (plan.room bound + 1) with le | le
  · rw [Nat.min_eq_left le, enumeration_eq_of_le unlimitedEnds le]
  · rw [Nat.min_eq_right le]

theorem prefix_limited (le : bound ≤ farther)
    (ends : (plan.limited (some bound)).walks table levels = [])
    (fartherEnds : (plan.limited (some farther)).walks table more = []) :
    (plan.limited (some bound)).enumeration table levels <+:
      (plan.limited (some farther)).enumeration table more := by
  rw [enumeration_limited ends, enumeration_limited fartherEnds]
  exact enumeration_prefix (Nat.succ_le_succ (room_mono le))

end WalkPlan

/-! ## Depths under a limit -/

/-- Whether a row is no farther away than a bound. -/
def TreeRow.isWithin (direction : Direction) (bound : Int) (treeRow : TreeRow) : Bool :=
  match direction with
  | .up => Comparison.greaterEqual.holds (treeRow.depth.compareWith (.int (-bound)))
  | .down => Comparison.lessEqual.holds (treeRow.depth.compareWith (.int bound))

namespace WalkPlan

variable {plan : WalkPlan} {table : Table} {walk : List Row} {steps near : Nat} {bound : Int}

theorem storedDepth_limited (limit : Option Int) :
    (plan.limited limit).storedDepth steps = plan.storedDepth steps := by
  induction steps with
  | zero => rfl
  | succ steps ih =>
    rw [storedDepth, ih]
    rfl

theorem storedRow_limited (limit : Option Int) :
    (plan.limited limit).storedRow walk = plan.storedRow walk := by
  rw [storedRow, storedDepth_limited]
  rfl

/-- Depths count on from that of the anchor rows as they would from zero. -/
theorem storedDepth_of_start (start : plan.start = plan.direction.sign * near)
    (fits : fitsInt64 plan.start = true) :
    plan.storedDepth steps =
      if fitsInt64 (plan.direction.sign * (near + steps : Nat)) then
        .int (plan.direction.sign * (near + steps : Nat)) else plan.direction.farthest := by
  have step : plan.depthStep = plan.direction.sign := by
    unfold depthStep
    cases plan.direction <;> rfl
  have counted : plan.storedDepth steps =
      (linePlan .standard plan.direction default none).storedDepth (near + steps) := by
    induction steps with
    | zero =>
      rw [storedDepth, Nat.add_zero, storedDepth_linePlan, ← start, if_pos fits, Value.ofInt,
        if_pos fits]
    | succ steps ih =>
      have same : (linePlan .standard plan.direction default none).depthStep = plan.depthStep := rfl
      rw [storedDepth, ih, ← Nat.add_assoc, storedDepth, same]
  rw [counted, storedDepth_linePlan]

theorem compareWith_storedDepth (start : plan.start = plan.direction.sign * near)
    (fits : fitsInt64 plan.start = true) :
    (plan.storedDepth steps).compareWith (.int bound) =
      compare (plan.direction.sign * min (near + steps : Nat) 0x8000000000000000) bound := by
  rw [storedDepth_of_start start fits]
  split
  next inside =>
    have short : plan.direction.sign * min (near + steps : Nat) 0x8000000000000000 =
        plan.direction.sign * (near + steps : Nat) := by
      simp only [fitsInt64_iff] at inside
      cases direction : plan.direction <;> simp only [direction, Direction.sign] at inside ⊢ <;> omega
    rw [short]
    rfl
  next outside =>
    have long : min (near + steps) 0x8000000000000000 = 0x8000000000000000 := by
      simp only [fitsInt64_iff] at outside
      cases direction : plan.direction <;> simp only [direction, Direction.sign] at outside <;> omega
    rw [long]
    exact Direction.compareWith_farthest

theorem isWithin_storedRow (start : plan.start = plan.direction.sign * near)
    (fits : fitsInt64 plan.start = true) (most : bound < 0x8000000000000000) :
    (plan.storedRow walk).isWithin plan.direction bound =
      decide ((near + (walk.length - 1) : Nat) ≤ bound) := by
  have depth : (plan.storedRow walk).depth = plan.storedDepth (walk.length - 1) := rfl
  unfold TreeRow.isWithin
  rw [depth, compareWith_storedDepth start fits, compareWith_storedDepth start fits,
    Bool.eq_iff_iff, decide_eq_true_iff]
  generalize near + (walk.length - 1) = steps
  cases plan.direction with
  | up =>
    simp only [Comparison.holds, bne_iff_ne, ne_eq, Std.compare_eq_lt, Direction.sign]
    omega
  | down =>
    simp only [Comparison.holds, bne_iff_ne, ne_eq, Std.compare_eq_gt, Direction.sign]
    omega

/-- The limit keeps depths in the range of the store, if the store takes it. -/
theorem storedRow_eq_of_limit (given : plan.limit = some bound)
    (start : fitsInt64 plan.start = true) (fits : fitsInt64 (plan.direction.sign * bound) = true)
    (made : plan.IsWalk table walk) : plan.storedRow walk = plan.rowOf walk := by
  have inside : fitsInt64 (plan.depthAfter (walk.length - 1)) = true := by
    have allowed := made.allowed
    generalize walk.length - 1 = steps at allowed ⊢
    unfold Allows depthAfter at *
    simp only [fitsInt64_iff] at start fits ⊢
    cases direction : plan.direction with
    | up =>
      simp only [direction, Direction.sign] at allowed fits ⊢
      rcases allowed with rfl | allowed
      · omega
      · have within := allowed bound given
        omega
    | down =>
      simp only [direction, Direction.sign] at allowed fits ⊢
      rcases allowed with rfl | allowed
      · omega
      · have within := allowed bound given
        omega
  rw [storedRow, storedDepth_eq start inside]
  rfl

end WalkPlan

/-! ## Queries under a limit -/

/-- A query that takes a limit of depth: what stands above or below a row, with the row or without
it, or all roots and what is below them. -/
inductive DepthQuery where
  | relatives (direction : Direction) (andSelf : Bool) (row : Row)
  | tree

namespace DepthQuery

def direction : DepthQuery → Direction
  | relatives direction _ _ => direction
  | tree => .down

/-- How far away the rows are from which the query starts. -/
def nearest : DepthQuery → Nat
  | relatives _ false _ => 1
  | relatives _ true _ | tree => 0

/-- The relation of the row to what stands above or below it. -/
def relation (direction : Direction) (andSelf : Bool) (row : Row) (limit : Option Int) : Relation where
  kinship := match direction with
    | .up => .ancestors
    | .down => .descendants
  andSelf := andSelf
  node := .ofRow row
  maxDepth := Json.ofOption Json.int limit

def start (limit : Option Int) : DepthQuery → QueryStart
  | relatives direction andSelf row => .related (relation direction andSelf row limit)
  | tree => .tree (Json.ofOption Json.int limit)

/-- The scope that keeps the rows that are no farther away than a bound. -/
def scope (bound : Int) (query : DepthQuery) : Scope :=
  match query.direction with
  | .up => .whereDepth (.str ">=") (.int (-bound))
  | .down => .whereDepth (.str "<=") (.int bound)

/-- The row is one of the table, and the store takes its links. -/
def IsAsked (table : Table) : DepthQuery → Prop
  | relatives _ _ row => row ∈ table ∧ row.key.IsBindable ∧ row.parent.IsBindable
  | tree => True

def criterion : DepthQuery → Criterion
  | relatives _ true row => .equals (.column .key) row.key.toJson
  | relatives .up false row => .equals (.column .key) row.parent.toJson
  | relatives .down false row => .equals (.column .parent) row.key.toJson
  | tree => .isNull (.column .parent)

def traversal (model : TreeModel) (limit : Option Int) : DepthQuery → Traversal
  | relatives direction andSelf row => (relation direction andSelf row limit).traversal model
  | tree => treeTraversal model limit

variable {model : TreeModel} {registry : Registry} {engine : Engine} {table : Table}
  {query : DepthQuery} {limit : Option Int}

theorem query_start : Setting.query ⟨model, registry, engine⟩ (query.start limit) =
    Setting.traverse ⟨model, registry, engine⟩ (query.traversal model limit) .table := by
  cases query <;> rfl

theorem fits_traversal (apart : model.NamesApart) :
    (query.traversal model limit).Fits model query.criterion (query.direction.sign * query.nearest)
      limit := by
  match query with
  | relatives .up false row | relatives .up true row | relatives .down false row
  | relatives .down true row | tree => exact Traversal.fits_ofModel_of_apart apart _ _ limit

theorem direction_traversal : (query.traversal model limit).direction = query.direction := by
  match query with
  | relatives .up _ _ | relatives .down _ _ | tree => rfl

theorem accepts_criterion (asked : query.IsAsked table) :
    TreeQuery.checkParameters query.criterion.parameters = .ok () := by
  match query with
  | relatives _ true row => exact checkParameters_equals (.inl rfl) asked.2.1
  | relatives .up false row => exact checkParameters_equals (.inl rfl) asked.2.2
  | relatives .down false row => exact checkParameters_equals (.inr rfl) asked.2.1
  | tree => rfl

/-- The walks of the query without a limit. -/
def plan (model : TreeModel) (table : Table) (query : DepthQuery) : WalkPlan where
  direction := query.direction
  start := query.direction.sign * query.nearest
  limit := none
  separator := model.separator
  isAnchor row := ((TreeRow.ofRow row).reading model table.parents).satisfies query.criterion

theorem plan_traversal :
    (query.traversal model limit).plan model table query.criterion
      (query.direction.sign * query.nearest) limit = (query.plan model table).limited limit := by
  match query with
  | relatives .up _ _ | relatives .down _ _ | tree => rfl

theorem nearest_le : query.nearest ≤ 1 := by
  match query with
  | relatives _ false _ => exact Nat.le_refl 1
  | relatives _ true _ | tree => exact Nat.zero_le 1

theorem fits_start : fitsInt64 (query.plan model table).start = true := by
  have near : query.nearest ≤ 1 := nearest_le
  have start : (query.plan model table).start = query.direction.sign * query.nearest := rfl
  simp only [start, fitsInt64_iff]
  cases query.direction <;> simp only [Direction.sign] <;> omega

/-- The store takes the limit in the form in which depths are compared with it. -/
def StoreTakes (query : DepthQuery) (limit : Option Int) : Prop :=
  ∀ bound, limit = some bound → fitsInt64 (query.direction.sign * bound) = true

theorem exists_query (apart : model.NamesApart)
    (supported : registry.grammarFor .sqlite = .ok .sqlite) (limit : Option Int) :
    ∃ expression, Setting.query ⟨model, registry, .sqlite⟩ (query.start limit) =
        .ok (.ofExpression expression) ∧
      compile registry .sqlite model ⟨model.tableName, none⟩ (query.traversal model limit) =
        .ok expression := by
  have fits : (query.traversal model limit).Fits model _ _ limit := fits_traversal apart
  obtain ⟨expression, compiled⟩ : ∃ expression, compile registry .sqlite model
      ⟨model.tableName, none⟩ (query.traversal model limit) = .ok expression :=
    exists_compile fits supported
  refine ⟨expression, ?_, compiled⟩
  rw [query_start]
  exact bind_eq_ok.mpr ⟨_, rfl, bind_eq_ok.mpr ⟨_, compiled, rfl⟩⟩

/-- The store is handed the limit in the form in which depths are compared with it. -/
theorem parameters_of_compile (apart : model.NamesApart) {source : Source}
    {expression : RecursiveExpression}
    (compiled : compile registry engine model source (query.traversal model limit) = .ok expression) :
    expression.parameters = query.criterion.parameters ++
      limit.toList.map fun bound => (.depth, .int (query.direction.sign * bound)) := by
  have fits : (query.traversal model limit).Fits model _ _ limit := fits_traversal apart
  obtain ⟨-, -, -, anchor, -, -, guard⟩ := compile_eq_ok compiled
  rw [fits.anchor] at anchor
  rw [guardOf_eq fits []] at guard
  rw [RecursiveExpression.parameters, ← Except.ok.inj anchor, ← Except.ok.inj guard]
  unfold WalkPlan.guard Traversal.plan
  rw [direction_traversal]
  cases limit with
  | none => rfl
  | some bound => cases query.direction <;> simp [Criterion.parameters, Direction.sign]

/-- What both comparisons with a limit ask of it: that its product with the sign fits. -/
theorem fits_of_sign {direction : Direction} {bound : Int} :
    fitsInt64 (direction.sign * bound) = true → match direction with
      | .up => fitsInt64 (-bound) = true
      | .down => fitsInt64 bound = true := by
  cases direction <;> simp [Direction.sign]

/-- The rows of the query where its walks end, whatever cycles the table has elsewhere. -/
theorem exists_rows_of_finite (keyed : table.IsKeyed model.keyKind) (apart : model.NamesApart)
    (supported : registry.grammarFor .sqlite = .ok .sqlite) (asked : query.IsAsked table)
    (takes : query.StoreTakes limit)
    (finite : limit = none → ((query.plan model table).limited limit).AvoidsCycles table) :
    ∃ expression levels,
      Setting.query ⟨model, registry, .sqlite⟩ (query.start limit) = .ok (.ofExpression expression) ∧
      TreeQuery.checkParameters expression.parameters = .ok () ∧
      ((query.plan model table).limited limit).walks table levels = [] ∧
      expression.rows? table = some ((((query.plan model table).limited limit).enumeration table
        levels).map (query.plan model table).storedRow) := by
  obtain ⟨expression, built, compiled⟩ :=
    @exists_query model registry query apart supported limit
  have fits : (query.traversal model limit).Fits model _ _ limit := fits_traversal apart
  have follows : expression.Follows ((query.plan model table).limited limit) table := by
    rw [← plan_traversal]
    exact follows_of_compile fits compiled table
  have start : fitsInt64 ((query.plan model table).limited limit).start = true :=
    @fits_start model table query
  have direction : ((query.plan model table).limited limit).direction = query.direction := rfl
  have stops : expression.StopsWith ((query.plan model table).limited limit) table := by
    cases given : limit with
    | none => exact given ▸ follows.stopsWith_of_unlimited given
    | some bound =>
      subst given
      have taken := takes bound rfl
      refine follows.stopsWith_of_fits (fun _ same => ?_) fun walk made =>
        WalkPlan.storedRow_eq_of_limit rfl start (direction ▸ taken) made
      obtain rfl := Option.some.inj same
      rw [direction]
      exact fits_of_sign taken
  refine ⟨expression, expression.levels table, built, ?_, follows.walks_levels finite, ?_⟩
  · refine (checkParameters_of_compile fits compiled).mpr
      ⟨accepts_criterion asked, fun bound given => ?_⟩
    rw [direction_traversal]
    exact fits_of_sign (takes bound given)
  · rw [follows.rows?_eq keyed stops finite]
    exact congrArg some (List.map_congr_left fun walk _ => WalkPlan.storedRow_limited limit)

/-- The limit is an integer of the store, as is its opposite. -/
def Takes (limit : Option Int) : Prop :=
  ∀ bound, limit = some bound → -0x8000000000000000 < bound ∧ bound < 0x8000000000000000

theorem exists_rows (keyed : table.IsKeyed model.keyKind) (apart : model.NamesApart)
    (supported : registry.grammarFor .sqlite = .ok .sqlite) (asked : query.IsAsked table)
    (takes : Takes limit) (free : limit = none → ∀ row, ¬ table.OnCycle row) :
    ∃ expression levels,
      Setting.query ⟨model, registry, .sqlite⟩ (query.start limit) = .ok (.ofExpression expression) ∧
      TreeQuery.checkParameters expression.parameters = .ok () ∧
      ((query.plan model table).limited limit).walks table levels = [] ∧
      expression.rows? table = some ((((query.plan model table).limited limit).enumeration table
        levels).map (query.plan model table).storedRow) := by
  refine exists_rows_of_finite keyed apart supported asked (fun bound given => ?_)
    fun unlimited _ _ _ row _ => free unlimited row
  have := takes bound given
  simp only [fitsInt64_iff]
  cases query.direction <;> simp only [Direction.sign] <;> omega

/-- The rows no farther away than a limit, or the nearest ones, are those of the walks that the limit
leaves. -/
theorem isWithin_storedRow_plan {walk : List Row} {bound : Int}
    (high : bound < 0x8000000000000000) :
    ((query.plan model table).storedRow walk).isWithin query.direction (max bound query.nearest) =
      decide (walk.length - 1 ≤ (query.plan model table).room bound) := by
  have near : query.nearest ≤ 1 := nearest_le
  have shown := @WalkPlan.isWithin_storedRow (query.plan model table) walk query.nearest
    (max bound query.nearest) rfl fits_start (by omega)
  refine shown.trans (decide_eq_decide.mpr ?_)
  simp only [WalkPlan.room, plan]
  cases query.direction <;> simp only [Direction.sign] <;> omega

end DepthQuery

/-! ## Rows under a limit -/

/-- The rows of a query with scopes, whose values the store takes. -/
def QueryStart.Yields (start : QueryStart) (scopes : List Scope) (setting : Setting) (table : Table)
    (rows : List TreeRow) : Prop :=
  ∃ base query, setting.query start = .ok base ∧ base.applyAll scopes = .ok query ∧
    TreeQuery.checkParameters query.parameters = .ok () ∧ query.rows? table = some rows

/-- The query is built, and the store refuses one of its values. -/
def QueryStart.IsRefused (start : QueryStart) (setting : Setting) (fault : Fault) : Prop :=
  ∃ query, setting.query start = .ok query ∧
    TreeQuery.checkParameters query.parameters = .error fault

theorem TreeQuery.rows?_filtered {expression : RecursiveExpression} {criterion : Criterion}
    {table : Table} :
    ((ofExpression expression).filtered criterion).rows? table =
      (expression.rows? table).map (List.filter fun treeRow =>
        (treeRow.reading expression.model table.parents).satisfies criterion) := by
  have single (treeRow : TreeRow) :
      ((ofExpression expression).filtered criterion).matchesRow table treeRow =
        (treeRow.reading expression.model table.parents).satisfies criterion := by
    simp [matchesRow, filtered, ofExpression]
  have same : ((ofExpression expression).filtered criterion).rows? table =
      (expression.rows? table).map
        (((ofExpression expression).filtered criterion).matching table) := rfl
  rw [same]
  congr 1
  funext source
  exact List.filter_congr fun treeRow _ => single treeRow

namespace DepthQuery

variable {model : TreeModel} {registry : Registry} {table : Table} {query : DepthQuery}
  {expression : RecursiveExpression} {rows : List TreeRow} {bound : Int}

/-- The comparison of the depth that keeps the rows no farther away than a bound. -/
def depthCriterion (bound : Int) : Direction → Criterion
  | .up => .compare .depth .greaterEqual (.int (-bound))
  | .down => .compare .depth .lessEqual (.int bound)

theorem apply_scope : (TreeQuery.ofExpression expression).apply (query.scope bound) =
    .ok ((TreeQuery.ofExpression expression).filtered (depthCriterion bound query.direction)) := by
  unfold scope depthCriterion
  cases query.direction <;> rfl

theorem fits_bound (positive : 0 ≤ bound) (high : bound < 0x8000000000000000) :
    fitsInt64 bound = true ∧ fitsInt64 (-bound) = true := by
  simp only [fitsInt64_iff]
  omega

theorem satisfies_depthCriterion {treeRow : TreeRow} {parents : List Value}
    (known : treeRow.depth.isNull = false) (positive : 0 ≤ bound)
    (high : bound < 0x8000000000000000) (direction : Direction) :
    (treeRow.reading model parents).satisfies (depthCriterion bound direction) =
      treeRow.isWithin direction bound := by
  have fits := fits_bound positive high
  cases direction with
  | up => exact TreeRow.satisfies_whereDepth known fits.2 .greaterEqual
  | down => exact TreeRow.satisfies_whereDepth known fits.1 .lessEqual

theorem accepts_depthCriterion (positive : 0 ≤ bound) (high : bound < 0x8000000000000000)
    (direction : Direction) :
    TreeQuery.checkParameters (depthCriterion bound direction).parameters = .ok () := by
  refine TreeQuery.checkParameters_eq_ok.mpr fun parameter found => ?_
  have fits := fits_bound positive high
  cases direction with
  | up =>
    obtain rfl := List.mem_singleton.mp found
    exact ⟨.int (-bound), by simp [Value.ofParameter, Value.ofJson, fits]⟩
  | down =>
    obtain rfl := List.mem_singleton.mp found
    exact ⟨.int bound, by simp [Value.ofParameter, Value.ofJson, fits]⟩

theorem yields_scope {setting : Setting}
    (built : setting.query (query.start none) = .ok (.ofExpression expression))
    (accepted : TreeQuery.checkParameters expression.parameters = .ok ())
    (found : expression.rows? table = some rows)
    (known : ∀ treeRow ∈ rows, treeRow.depth.isNull = false) (positive : 0 ≤ bound)
    (high : bound < 0x8000000000000000) :
    (query.start none).Yields [query.scope bound] setting table
      (rows.filter (TreeRow.isWithin query.direction bound)) := by
  refine ⟨_, _, built, bind_eq_ok.mpr ⟨_, apply_scope, rfl⟩, ?_, ?_⟩
  · have parameters : ((TreeQuery.ofExpression expression).filtered
        (depthCriterion bound query.direction)).parameters =
        expression.parameters ++ (depthCriterion bound query.direction).parameters := by
      simp [TreeQuery.parameters, TreeQuery.filtered, TreeQuery.ofExpression]
    rw [TreeQuery.checkParameters_eq_ok] at accepted ⊢
    rw [parameters, List.forall_mem_append]
    exact ⟨accepted, TreeQuery.checkParameters_eq_ok.mp
      (accepts_depthCriterion positive high query.direction)⟩
  · rw [TreeQuery.rows?_filtered, found, Option.map_some]
    exact congrArg some (List.filter_congr fun treeRow member =>
      satisfies_depthCriterion (known treeRow member) positive high query.direction)

theorem yields_ofExpression {setting : Setting} {limit : Option Int}
    (built : setting.query (query.start limit) = .ok (.ofExpression expression))
    (accepted : TreeQuery.checkParameters expression.parameters = .ok ())
    (found : expression.rows? table = some rows) :
    (query.start limit).Yields [] setting table rows := by
  refine ⟨_, _, built, rfl, ?_, ?_⟩
  · rwa [TreeQuery.parameters_ofExpression]
  · rwa [TreeQuery.rows?_ofExpression]

theorem isNull_depth_storedRow {walk : List Row} :
    ((query.plan model table).storedRow walk).depth.isNull = false := by
  have shown : ((query.plan model table).storedRow walk).depth =
      (query.plan model table).storedDepth (walk.length - 1) := rfl
  rw [shown, WalkPlan.storedDepth_of_start rfl fits_start]
  split
  · rfl
  · cases (query.plan model table).direction <;> rfl

end DepthQuery

/-- A limit of depth keeps the rows that are no farther away, and the nearest ones in any case: where
the query ends without the limit, its rows under the limit are those that a scope on the depth leaves.
And where it need not end, on cycles, what it has under a limit is the beginning of what it has under
a greater one. -/
theorem rows_of_limit {model : TreeModel} {registry : Registry} {table : Table} {bound : Int}
    (keyed : table.IsKeyed model.keyKind) (apart : model.NamesApart)
    (supported : registry.grammarFor .sqlite = .ok .sqlite) (query : DepthQuery)
    (asked : query.IsAsked table) (low : -0x8000000000000000 < bound)
    (high : bound < 0x8000000000000000) :
    ((∀ row, ¬ table.OnCycle row) → ∃ rows : List TreeRow,
      (query.start none).Yields [] ⟨model, registry, .sqlite⟩ table rows ∧
      (query.start (some bound)).Yields [] ⟨model, registry, .sqlite⟩ table
        (rows.filter (TreeRow.isWithin query.direction (max bound query.nearest))) ∧
      (query.start none).Yields [query.scope (max bound query.nearest)] ⟨model, registry, .sqlite⟩
        table (rows.filter (TreeRow.isWithin query.direction (max bound query.nearest)))) ∧
    ∀ farther, bound ≤ farther → farther < 0x8000000000000000 →
      ∃ rows more : List TreeRow,
        (query.start (some bound)).Yields [] ⟨model, registry, .sqlite⟩ table rows ∧
        (query.start (some farther)).Yields [] ⟨model, registry, .sqlite⟩ table more ∧
        rows <+: more := by
  have takes (limit : Int) (low : -0x8000000000000000 < limit) (high : limit < 0x8000000000000000) :
      DepthQuery.Takes (some limit) := by
    rintro _ ⟨⟩
    exact ⟨low, high⟩
  have ends (limit : Int) : some limit = none → ∀ row, ¬ table.OnCycle row :=
    fun unlimited => absurd unlimited (Option.some_ne_none limit)
  obtain ⟨expression, levels, built, accepted, ended, found⟩ :=
    DepthQuery.exists_rows keyed apart supported asked (takes bound low high) (ends bound)
  have near : query.nearest ≤ 1 := DepthQuery.nearest_le
  constructor
  · intro free
    obtain ⟨unlimited, more, unlimitedBuilt, unlimitedAccepted, unlimitedEnded, all⟩ :=
      @DepthQuery.exists_rows model registry table query none keyed apart supported asked
        (fun _ given => nomatch given) (fun _ => free)
    refine ⟨_, DepthQuery.yields_ofExpression unlimitedBuilt unlimitedAccepted all,
      DepthQuery.yields_ofExpression built accepted (found.trans (congrArg some ?_)),
      DepthQuery.yields_scope unlimitedBuilt unlimitedAccepted all (fun treeRow member => ?_)
        (by omega) (by omega)⟩
    · rw [WalkPlan.filter_limited ended unlimitedEnded, List.filter_map]
      exact congrArg _ (List.filter_congr fun walk _ =>
        (DepthQuery.isWithin_storedRow_plan high).symm)
    · obtain ⟨walk, -, rfl⟩ := List.mem_map.mp member
      exact DepthQuery.isNull_depth_storedRow
  · intro farther le short
    obtain ⟨longer, more, longerBuilt, longerAccepted, longerEnded, all⟩ :=
      DepthQuery.exists_rows keyed apart supported asked (takes farther (by omega) short)
        (ends farther)
    exact ⟨_, _, DepthQuery.yields_ofExpression built accepted found,
      DepthQuery.yields_ofExpression longerBuilt longerAccepted all,
      (WalkPlan.prefix_limited le ended longerEnded).map _⟩

/-- Below a row, with a limit that is nearer than its children: they are shown all the same. -/
theorem rows_of_limit_threeInARow :
    (∃ rows : List TreeRow,
      (QueryStart.related (DepthQuery.relation .down false
        ⟨.int 1, .null, .text "one", none⟩ none)).Yields [] { model := .standard } threeInARow rows ∧
      (QueryStart.related (DepthQuery.relation .down false
        ⟨.int 1, .null, .text "one", none⟩ (some (-5)))).Yields [] { model := .standard } threeInARow
        (rows.filter (TreeRow.isWithin .down 1))) ∧
    ∃ rows more : List TreeRow,
      (QueryStart.related (DepthQuery.relation .down false
        ⟨.int 1, .null, .text "one", none⟩ (some (-5)))).Yields [] { model := .standard } threeInARow
        rows ∧
      (QueryStart.related (DepthQuery.relation .down false
        ⟨.int 1, .null, .text "one", none⟩ (some 2))).Yields [] { model := .standard } threeInARow
        more ∧
      rows <+: more := by
  have keyed : threeInARow.IsKeyed TreeModel.standard.keyKind := isKeyed_threeInARow
  have apart : TreeModel.standard.NamesApart := by decide
  have supported : Registry.standard.grammarFor .sqlite = .ok .sqlite := rfl
  obtain ⟨filtered, longer⟩ := rows_of_limit keyed apart supported
    (.relatives .down false ⟨.int 1, .null, .text "one", none⟩)
    ⟨List.mem_cons_self, rfl, rfl⟩ (by decide : -0x8000000000000000 < -5) (by decide)
  obtain ⟨rows, unlimited, limited, -⟩ := filtered not_onCycle_threeInARow
  exact ⟨⟨rows, unlimited, limited⟩, longer 2 (by decide) (by decide)⟩

end AdjacencyForest
