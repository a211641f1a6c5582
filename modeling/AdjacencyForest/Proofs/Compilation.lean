import AdjacencyForest.Proofs.Evaluation
import AdjacencyForest.Proofs.Steps

/-!
# Compiled traversals

A traversal over a model's own links compiles to an expression that makes the walks it asks for.

Main statements: `follows_of_compile` for any registry in which the traversal compiles,
`exists_compile` for those that know the embedded engine, and `rows_of_traversal`: the rows of the
expression are the walks, each once.
-/

namespace AdjacencyForest

open RecursiveExpression

/-- The traversal is one over the links of a model, from the rows that a criterion selects. -/
structure Traversal.Fits (spec : Traversal) (model : TreeModel) (criterion : Criterion)
    (start : Int) (limit : Option Int) : Prop where
  localKey : model.column? spec.localKey = some .key
  parentKey : model.column? spec.parentKey = some .parent
  anchor : spec.anchor.onTable model = .ok criterion
  initialDepth : spec.initialDepth = .int start
  maxDepth : spec.maxDepth = Json.ofOption Json.int limit

def Traversal.plan (spec : Traversal) (model : TreeModel) (table : Table) (criterion : Criterion)
    (start : Int) (limit : Option Int) : WalkPlan where
  direction := spec.direction
  start := start
  limit := limit
  separator := spec.separator
  isAnchor row := ((TreeRow.ofRow row).reading model table.parents).satisfies criterion

variable {registry : Registry} {engine : Engine} {model : TreeModel} {source : Source}
  {spec : Traversal} {criterion : Criterion} {start : Int} {limit : Option Int}
  {expression : RecursiveExpression} {kind : KeyKind}

theorem columnNamed_eq_ok {name : String} {column : Column} :
    columnNamed model name = .ok column ↔ model.column? name = some column := by
  unfold columnNamed
  cases model.column? name <;> simp

theorem guardOf_eq (fits : spec.Fits model criterion start limit) (table : Table) :
    guardOf spec = .ok (spec.plan model table criterion start limit).guard := by
  unfold guardOf WalkPlan.guard Traversal.plan
  rw [fits.maxDepth]
  cases limit with
  | none => rfl
  | some limit => cases spec.direction <;> rfl

theorem compile_eq_ok (compiled : compile registry engine model source spec = .ok expression) :
    expression.model = model ∧ expression.spec = spec ∧
      spec.initialDepth.toInteger = .ok expression.initialDepth ∧
      spec.anchor.onTable model = .ok expression.anchor ∧
      model.column? spec.localKey = some expression.keyColumn ∧
      model.column? spec.parentKey = some expression.parentColumn ∧
      guardOf spec = .ok expression.guard := by
  unfold compile at compiled
  obtain ⟨grammar, -, compiled⟩ := bind_eq_ok.mp compiled
  obtain ⟨depth, initialDepth, compiled⟩ := bind_eq_ok.mp compiled
  obtain ⟨-, -, compiled⟩ := bind_eq_ok.mp compiled
  obtain ⟨anchor, selected, compiled⟩ := bind_eq_ok.mp compiled
  obtain ⟨-, -, compiled⟩ := bind_eq_ok.mp compiled
  obtain ⟨keyColumn, key, compiled⟩ := bind_eq_ok.mp compiled
  obtain ⟨parentColumn, parent, compiled⟩ := bind_eq_ok.mp compiled
  obtain ⟨guard, guarded, compiled⟩ := bind_eq_ok.mp compiled
  obtain rfl := pure_eq_ok.mp compiled
  exact ⟨rfl, rfl, initialDepth, selected, columnNamed_eq_ok.mp key, columnNamed_eq_ok.mp parent,
    guarded⟩

theorem follows_of_compile (fits : spec.Fits model criterion start limit)
    (compiled : compile registry engine model source spec = .ok expression) (table : Table) :
    expression.Follows (spec.plan model table criterion start limit) table := by
  obtain ⟨rfl, rfl, depth, anchor, key, parent, guard⟩ := compile_eq_ok compiled
  rw [fits.initialDepth] at depth
  rw [fits.anchor] at anchor
  rw [fits.localKey] at key
  rw [fits.parentKey] at parent
  rw [guardOf_eq fits table] at guard
  cases depth
  cases anchor
  exact {
    keyColumn := (Option.some.inj key).symm
    parentColumn := (Option.some.inj parent).symm
    direction := rfl
    start := rfl
    separator := rfl
    guard := (Except.ok.inj guard).symm
    anchor := fun _ _ => rfl }

theorem exists_compile (fits : spec.Fits model criterion start limit)
    (supported : registry.grammarFor .sqlite = .ok .sqlite) :
    ∃ expression, compile registry .sqlite model source spec = .ok expression := by
  have key := columnNamed_eq_ok.mpr fits.localKey
  have parent := columnNamed_eq_ok.mpr fits.parentKey
  unfold compile
  simp only [supported, fits.initialDepth, fits.anchor, key, parent, guardOf_eq fits [],
    Json.toInteger, PathGrammar.fragment, PathGrammar.fragment?, bind, Except.bind, pure,
    Except.pure]
  cases spec.direction with
  | up =>
    simp only [parent]
    exact ⟨_, rfl⟩
  | down =>
    simp only [key]
    exact ⟨_, rfl⟩

theorem checkParameters_of_compile (fits : spec.Fits model criterion start limit)
    (compiled : compile registry engine model source spec = .ok expression) :
    TreeQuery.checkParameters expression.parameters = .ok () ↔
      TreeQuery.checkParameters criterion.parameters = .ok () ∧
        ∀ bound, limit = some bound → match spec.direction with
          | .up => fitsInt64 (-bound) = true
          | .down => fitsInt64 bound = true := by
  obtain ⟨-, -, -, anchor, -, -, guard⟩ := compile_eq_ok compiled
  rw [fits.anchor] at anchor
  rw [guardOf_eq fits []] at guard
  have single (bound : Int) :
      (∃ value, Value.ofParameter .depth (.int bound) = .ok value) ↔ fitsInt64 bound = true := by
    by_cases fit : fitsInt64 bound = true <;> simp [Value.ofParameter, Value.ofJson, fit]
  rw [RecursiveExpression.parameters, ← Except.ok.inj anchor, ← Except.ok.inj guard]
  simp only [TreeQuery.checkParameters_eq_ok, List.forall_mem_append]
  refine and_congr_right fun _ => ?_
  unfold WalkPlan.guard Traversal.plan
  cases limit with
  | none => simp
  | some limit =>
    cases spec.direction <;> simp [Criterion.parameters, single]

/-- The columns of the model are told apart by their names. -/
def TreeModel.NamesApart (model : TreeModel) : Prop :=
  (model.columns.map model.columnName).Nodup

instance (model : TreeModel) : Decidable model.NamesApart :=
  inferInstanceAs (Decidable (List.Nodup _))

theorem TreeModel.NamesApart.column?_columnName (apart : model.NamesApart) (column : Column) :
    model.column? (model.columnName column) = some column := by
  have member : ∀ column, column ∈ model.columns := by
    intro column
    unfold TreeModel.columns
    cases column <;> split <;> decide
  unfold TreeModel.column?
  cases found : model.columns.find? fun other => model.columnName other == model.columnName column with
  | none => simpa using List.find?_eq_none.mp found column (member column)
  | some other =>
    have same : model.columnName other = model.columnName column := by
      simpa using List.find?_some found
    rw [List.inj_on_of_nodup_map apart (member other) (member column) same]

theorem Traversal.fits_ofModel_of_apart (apart : model.NamesApart) (direction : Direction)
    (andSelf : Bool) (limit : Option Int) :
    (ofModel model direction (.criterion criterion) (.int start) andSelf
      (Json.ofOption Json.int limit)).Fits model criterion start limit where
  localKey := apart.column?_columnName .key
  parentKey := apart.column?_columnName .parent
  anchor := rfl
  initialDepth := rfl
  maxDepth := rfl

theorem Traversal.fits_ofModel (direction : Direction) (andSelf : Bool) (limit : Option Int) :
    (ofModel .standard direction (.criterion criterion) (.int start) andSelf
      (Json.ofOption Json.int limit)).Fits .standard criterion start limit :=
  fits_ofModel_of_apart (by decide) direction andSelf limit

theorem WalkPlan.inRange_of_limit {plan : WalkPlan} {bound : Int} (given : plan.limit = some bound)
    (start : fitsInt64 plan.start = true) (fits : fitsInt64 bound = true)
    (fitsNegated : fitsInt64 (-bound) = true) (table : Table) : plan.InRange table where
  limit other same := by
    obtain rfl := Option.some.inj (given.symm.trans same)
    exact ⟨fits, fitsNegated⟩
  depth walk made := by
    have allowed := made.allowed
    generalize walk.length - 1 = steps at allowed ⊢
    unfold Allows depthAfter at *
    simp only [fitsInt64_iff] at *
    cases direction : plan.direction with
    | up =>
      simp only [direction] at allowed ⊢
      rcases allowed with rfl | allowed
      · omega
      · have within := allowed bound given
        omega
    | down =>
      simp only [direction] at allowed ⊢
      rcases allowed with rfl | allowed
      · omega
      · have within := allowed bound given
        omega

theorem RecursiveExpression.Follows.stopsWith_of_bounds {plan : WalkPlan} {table : Table}
    (follows : expression.Follows plan table) (start : fitsInt64 plan.start = true)
    (bounds : ∀ bound, plan.limit = some bound → fitsInt64 bound = true ∧ fitsInt64 (-bound) = true) :
    expression.StopsWith plan table := by
  cases given : plan.limit with
  | none => exact follows.stopsWith_of_unlimited given
  | some bound =>
    obtain ⟨fits, fitsNegated⟩ := bounds bound given
    exact follows.stopsWith_of_inRange
      (WalkPlan.inRange_of_limit given start fits fitsNegated table)

/-- Without a limit a walk that meets no row twice is no longer than the table. -/
theorem WalkPlan.inRange_of_avoidsCycles {plan : WalkPlan} {table : Table}
    (unlimited : plan.limit = none) (start : -1 ≤ plan.start ∧ plan.start ≤ 1)
    (free : plan.AvoidsCycles table) (fitsLength : fitsInt64 table.length = true) :
    plan.InRange table where
  limit bound given := absurd (unlimited.symm.trans given) (Option.some_ne_none bound).symm
  depth walk made := by
    have length := made.length_le free
    have positive : 0 < walk.length := List.length_pos_iff.mpr made.ne_nil
    unfold depthAfter
    simp only [fitsInt64_iff] at fitsLength ⊢
    cases plan.direction <;> dsimp only <;> omega

theorem WalkPlan.inRange_of_bounds {plan : WalkPlan} {table : Table}
    (start : -1 ≤ plan.start ∧ plan.start ≤ 1)
    (bounds : ∀ bound, plan.limit = some bound → fitsInt64 bound = true ∧ fitsInt64 (-bound) = true)
    (free : plan.AvoidsCycles table) (fitsLength : fitsInt64 table.length = true) :
    plan.InRange table := by
  cases given : plan.limit with
  | none => exact inRange_of_avoidsCycles given start free fitsLength
  | some bound =>
    obtain ⟨fits, fitsNegated⟩ := bounds bound given
    refine inRange_of_limit given ?_ fits fitsNegated table
    simp only [fitsInt64_iff]
    omega

/-- A traversal whose depths need have 64 bits only if it has a limit: it compiles, and it yields one
row for each walk. -/
theorem exists_storedRows {table : Table} (keyed : table.IsKeyed kind)
    (supported : registry.grammarFor .sqlite = .ok .sqlite)
    (fits : spec.Fits model criterion start limit)
    (limited : ∀ bound, limit = some bound →
      (spec.plan model table criterion start limit).InRange table)
    (finite : limit = none → (spec.plan model table criterion start limit).AvoidsCycles table) :
    ∃ expression, compile registry .sqlite model source spec = .ok expression ∧
      ∃ walks : List (List Row), walks.Nodup ∧
        (∀ walk, walk ∈ walks ↔ (spec.plan model table criterion start limit).IsWalk table walk) ∧
        expression.rows? table =
          some (walks.map (spec.plan model table criterion start limit).storedRow) := by
  obtain ⟨expression, compiled⟩ : ∃ expression, compile registry .sqlite model source spec =
      .ok expression := exists_compile fits supported
  have follows := follows_of_compile fits compiled table
  have stops : expression.StopsWith (spec.plan model table criterion start limit) table := by
    cases given : limit with
    | none => exact given ▸ follows.stopsWith_of_unlimited given
    | some bound => exact given ▸ follows.stopsWith_of_inRange (limited bound given)
  exact ⟨expression, compiled, follows.exists_storedWalks keyed stops finite⟩

def mutualParents : Table :=
  [⟨.int 1, .int 2, .text "one", none⟩, ⟨.int 2, .int 1, .text "two", none⟩]

theorem isKeyed_mutualParents : mutualParents.IsKeyed .integer where
  key := by simp [mutualParents, KeyKind.Admits]
  parent := by simp [mutualParents, KeyKind.Admits]
  distinct := by decide

/-- The descendants of a row on a cycle, down to depth three. -/
def boundedDescent : Traversal :=
  .ofModel .standard .down (.criterion (.equals (.column .key) (.int 1))) (.int 0) true (.int 3)

end AdjacencyForest
