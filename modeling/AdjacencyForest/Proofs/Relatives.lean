import AdjacencyForest.Proofs.Answers
import AdjacencyForest.Proofs.DepthFirst
import AdjacencyForest.Proofs.Forest
import AdjacencyForest.Proofs.Sorting

/-!
# Relatives in a forest

The rows of the relations of a row in a forest: a relation makes one row for each walk from those
that are next to the row, upward, downward or sideways, and on the way down no two walks reach one
row.

Main statements: `exists_relatives`, the rows of a relation; `nodup_lastRows_below`, the rows below a
row come once; `orderedRows_perm`, an order of a walk loses and repeats no row whose key comes once.
-/

open Relation

namespace AdjacencyForest

open RecursiveExpression

namespace Table

variable {table : Table} {row : Row}

/-- The rows whose parent is the value. -/
def childRows (table : Table) (parent : Value) : List Row :=
  List.filter (fun other => other.parent == parent) table

/-- The rows that share the parent of a row, without the row itself. -/
def siblingRows (table : Table) (row : Row) : List Row :=
  List.filter (fun other => other.parent == row.parent && other.key != row.key) table

theorem mem_childRows {parent : Value} {other : Row} :
    other ∈ table.childRows parent ↔ other ∈ table ∧ other.parent = parent := by
  simp [childRows]

theorem mem_siblingRows {other : Row} :
    other ∈ table.siblingRows row ↔
      other ∈ table ∧ other.parent = row.parent ∧ other.key ≠ row.key := by
  simp [siblingRows]

theorem siblingRows_eq (table : Table) (row : Row) :
    table.siblingRows row = (table.childRows row.parent).filter fun other => other.key != row.key := by
  rw [siblingRows, childRows, List.filter_filter]
  exact List.filter_congr fun other _ => Bool.and_comm _ _

end Table

/-! ## Links as criteria -/

/-- A link that the store takes: null or an integer of 64 bits. -/
def Value.IsLink (value : Value) : Prop :=
  value = .null ∨ ∃ i, value = .int i ∧ fitsInt64 i = true

theorem Value.IsLink.ofJson_eq {value : Value} (link : value.IsLink) :
    Value.ofJson value.toJson = .ok value := by
  rcases link with rfl | ⟨i, rfl, fits⟩
  · rfl
  · simp [Value.toJson, Value.ofJson, fits]

variable {table : Table} {row other : Row} {value : Value} {parents : List Value}
  {column : Column}

theorem Column.affinity_of_link (link : column = .key ∨ column = .parent) :
    TreeModel.standard.affinity column = .numeric := by
  rcases link with rfl | rfl <;> rfl

theorem Column.parameter_of_link (link : column = .key ∨ column = .parent) (given : value.IsLink) :
    Value.ofParameter (.column column) value.toJson = .ok value := by
  rcases link with rfl | rfl <;> exact given.ofJson_eq

theorem TreeRow.satisfies_equals (link : column = .key ∨ column = .parent)
    (own : row.value column = .null ∨ KeyKind.integer.Admits (row.value column))
    (given : value.IsLink) :
    ((TreeRow.ofRow row).reading .standard parents).satisfies
      (.equals (.column column) value.toJson) = true ↔ row.value column = value := by
  have parameter := Column.parameter_of_link link given
  rcases given with rfl | ⟨i, rfl, fits⟩
  · simp [Value.toJson, Criterion.equals, Reading.satisfies, Reading.truth, TreeRow.reading,
      TreeRow.value, TreeRow.ofRow, Value.isNull_iff]
  · have asked : Criterion.equals (.column column) (Value.int i).toJson =
        .compare (.column column) .equal (Value.int i).toJson := rfl
    rw [asked]
    simp only [Reading.satisfies, Reading.truth, Reading.compares, Reading.operand, parameter,
      TreeRow.reading, TreeRow.value, TreeRow.fieldAffinity, TreeRow.ofRow,
      Column.affinity_of_link link, Value.comparand]
    rcases own with own | own
    · simp [own, Value.isNull]
    · obtain ⟨j, own⟩ := KeyKind.admits_integer_iff.mp own
      simp [own, Value.isNull, Comparison.holds, Value.compareWith]

theorem TreeRow.satisfies_differs {i : Int} (own : KeyKind.integer.Admits row.key)
    (fits : fitsInt64 i = true) :
    ((TreeRow.ofRow row).reading .standard parents).satisfies
      (.differs (.column .key) (.int i)) = true ↔ row.key ≠ .int i := by
  obtain ⟨j, own⟩ := KeyKind.admits_integer_iff.mp own
  simp [Criterion.differs, Reading.satisfies, Reading.truth, Reading.compares, Reading.operand,
    TreeRow.reading, TreeRow.value, TreeRow.fieldAffinity, TreeRow.ofRow, Row.value, own,
    Value.ofParameter, Value.ofJson, fits, TreeModel.affinity, TreeModel.standard,
    Value.comparand, Value.isNull, Comparison.holds, Value.compareWith]

/-! ## The walks of a relation -/

/-- The relation of a row to others without itself. -/
def kin (kinship : Kinship) (row : Row) (limit : Option Int) : Relation :=
  ⟨kinship, false, .ofRow row, Json.ofOption Json.int limit⟩

/-- Whether a relation of a row starts from another one. -/
def Kinship.startsFrom (kinship : Kinship) (row other : Row) : Bool :=
  match kinship with
  | .bare => false
  | .ancestors => other.key == row.parent
  | .descendants => other.parent == row.key
  | .siblings => other.parent == row.parent && other.key != row.key

/-- The limit of a relation: siblings have one of their own. -/
def Kinship.limitOf (kinship : Kinship) (limit : Option Int) : Option Int :=
  match kinship with
  | .siblings => some 0
  | _ => limit

/-- The walks of a relation of a row to others. -/
def kinPlan (kinship : Kinship) (row : Row) (limit : Option Int) : WalkPlan where
  direction := (kin kinship row limit).direction
  start := (kin kinship row limit).initialDepth
  limit := kinship.limitOf limit
  separator := TreeModel.standard.separator
  isAnchor := kinship.startsFrom row

def Kinship.criterion (kinship : Kinship) (row : Row) : Criterion :=
  match kinship with
  | .bare | .ancestors => .equals (.column .key) row.parent.toJson
  | .descendants => .equals (.column .parent) row.key.toJson
  | .siblings =>
    .both (.equals (.column .parent) row.parent.toJson) (.differs (.column .key) row.key.toJson)

variable {kinship : Kinship} {limit : Option Int} {walk walk' : List Row} {walks : List (List Row)}

theorem fits_kin (proper : kinship ≠ .bare) :
    ((kin kinship row limit).traversal .standard).Fits .standard (kinship.criterion row)
      (kin kinship row limit).initialDepth (kinship.limitOf limit) := by
  cases kinship with
  | bare => exact absurd rfl proper
  | ancestors | descendants => exact Traversal.fits_ofModel _ false limit
  | siblings => exact Traversal.fits_ofModel _ false (some 0)

/-- The links of a row of a stored forest. -/
structure Row.IsLinked (row : Row) : Prop where
  key : ∃ i, row.key = .int i ∧ fitsInt64 i = true
  parent : row.parent.IsLink

theorem Table.IsForest.isLinked (forest : table.IsForest) (stored : table.IsStored)
    (member : row ∈ table) : row.IsLinked where
  key := by
    obtain ⟨i, key⟩ := KeyKind.admits_integer_iff.mp (forest.keyed.key row member)
    exact ⟨i, key, stored.keys row member i key⟩
  parent := by
    by_cases root : row.parent = .null
    · exact .inl root
    · obtain ⟨above, found, same⟩ := Table.contains_iff.mp (forest.parents row member root)
      obtain ⟨i, key⟩ := KeyKind.admits_integer_iff.mp (forest.keyed.key above found)
      exact .inr ⟨i, same.symm.trans key, stored.keys above found i key⟩

theorem satisfies_criterion (keyed : table.IsKeyed .integer) (linked : row.IsLinked)
    (proper : kinship ≠ .bare) (member : other ∈ table) :
    ((TreeRow.ofRow other).reading .standard parents).satisfies (kinship.criterion row) =
      kinship.startsFrom row other := by
  obtain ⟨i, key, fits⟩ := linked.key
  have ownKey : KeyKind.integer.Admits other.key := keyed.key other member
  have keyLink : row.key.IsLink := .inr ⟨i, key, fits⟩
  rw [Bool.eq_iff_iff]
  cases kinship with
  | bare => exact absurd rfl proper
  | ancestors =>
    have asked := @TreeRow.satisfies_equals other row.parent parents .key (.inl rfl) (.inr ownKey)
      linked.parent
    simpa [Kinship.criterion, Kinship.startsFrom, Row.value] using asked
  | descendants =>
    have asked := @TreeRow.satisfies_equals other row.key parents .parent (.inr rfl)
      (keyed.parent other member) keyLink
    simpa [Kinship.criterion, Kinship.startsFrom, Row.value] using asked
  | siblings =>
    have beside := @TreeRow.satisfies_equals other row.parent parents .parent (.inr rfl)
      (keyed.parent other member) linked.parent
    have different := @TreeRow.satisfies_differs other parents i ownKey fits
    rw [Kinship.criterion, Reading.both_iff, beside, key, Value.toJson, different]
    simp [Kinship.startsFrom, Row.value, key]

theorem checkParameters_criterion (linked : row.IsLinked) :
    TreeQuery.checkParameters (kinship.criterion row).parameters = .ok () := by
  obtain ⟨i, key, fits⟩ := linked.key
  have bound (field : Column) (link : field = .key ∨ field = .parent) (value : Value)
      (given : value.IsLink) (parameter : Field × Json)
      (found : parameter ∈ (Criterion.equals (.column field) value.toJson).parameters) :
      ∃ value, Value.ofParameter parameter.1 parameter.2 = .ok value := by
    rcases given with rfl | ⟨j, rfl, inside⟩
    · exact absurd found List.not_mem_nil
    · obtain rfl := List.mem_singleton.mp found
      exact ⟨_, Column.parameter_of_link link (.inr ⟨j, rfl, inside⟩)⟩
  refine TreeQuery.checkParameters_eq_ok.mpr fun parameter found => ?_
  cases kinship with
  | bare | ancestors => exact bound .key (.inl rfl) _ linked.parent parameter found
  | descendants => exact bound .parent (.inr rfl) _ (.inr ⟨i, key, fits⟩) parameter found
  | siblings =>
    rcases List.mem_append.mp found with found | found
    · exact bound .parent (.inr rfl) _ linked.parent parameter found
    · rw [key] at found
      obtain rfl := List.mem_singleton.mp found
      exact ⟨.int i, by simp [Value.ofParameter, Value.toJson, Value.ofJson, fits]⟩

/-- The limits of depth that a service takes. -/
def IsDepthLimit (limit : Option Int) : Prop :=
  ∀ bound, limit = some bound → 1 ≤ bound ∧ bound < 0x8000000000000000

theorem IsDepthLimit.limitOf (bounds : IsDepthLimit limit) {bound : Int}
    (given : kinship.limitOf limit = some bound) :
    fitsInt64 bound = true ∧ fitsInt64 (-bound) = true := by
  have within : 0 ≤ bound ∧ bound < 0x8000000000000000 := by
    cases kinship with
    | siblings =>
      obtain rfl := Option.some.inj given
      decide
    | bare | ancestors | descendants =>
      obtain ⟨least, most⟩ := bounds bound given
      omega
  simp only [fitsInt64_iff]
  omega

theorem initialDepth_kin (kinship : Kinship) (row : Row) (limit : Option Int) :
    -1 ≤ (kin kinship row limit).initialDepth ∧ (kin kinship row limit).initialDepth ≤ 1 := by
  cases kinship <;> simp [kin, Relation.initialDepth]

theorem avoidsCycles_of_forest (forest : table.IsForest) (plan : WalkPlan) :
    plan.AvoidsCycles table :=
  fun _ _ _ reached _ => forest.acyclic reached

theorem inRange_kinPlan (forest : table.IsForest) (stored : table.IsStored)
    (bounds : IsDepthLimit limit) : (kinPlan kinship row limit).InRange table :=
  WalkPlan.inRange_of_bounds (initialDepth_kin kinship row limit) (fun _ => bounds.limitOf)
    (avoidsCycles_of_forest forest _) stored.count

/-- The rows of a relation in a stored forest: its query is built, its values are accepted, and it
yields one row for each walk. -/
theorem exists_relatives (forest : table.IsForest) (stored : table.IsStored)
    (bounds : IsDepthLimit limit) {registry : Registry}
    (supported : registry.grammarFor .sqlite = .ok .sqlite) (proper : kinship ≠ .bare)
    (member : row ∈ table) :
    ∃ expression, Setting.related ⟨.standard, registry, .sqlite⟩ (kin kinship row limit) =
        .ok (.ofExpression expression) ∧
      TreeQuery.checkParameters expression.parameters = .ok () ∧
      ∃ walks : List (List Row), walks.Nodup ∧
        (∀ walk, walk ∈ walks ↔ (kinPlan kinship row limit).IsWalk table walk) ∧
        expression.rows? table = some (walks.map (kinPlan kinship row limit).rowOf) := by
  have linked := forest.isLinked stored member
  have fits : ((kin kinship row limit).traversal .standard).Fits .standard _ _ _ := fits_kin proper
  obtain ⟨expression, compiled⟩ : ∃ expression, compile registry .sqlite .standard
      ⟨TreeModel.standard.tableName, none⟩ ((kin kinship row limit).traversal .standard) =
        .ok expression := exists_compile fits supported
  have follows : expression.Follows (kinPlan kinship row limit) table := by
    have follows := follows_of_compile fits compiled table
    refine { follows with anchor := fun other found => ?_ }
    rw [follows.anchor other found]
    exact satisfies_criterion forest.keyed linked proper found
  refine ⟨expression, bind_eq_ok.mpr ⟨_, rfl, bind_eq_ok.mpr ⟨_, compiled, rfl⟩⟩, ?_,
    follows.exists_walks forest.keyed (inRange_kinPlan forest stored bounds)
      fun _ => avoidsCycles_of_forest forest _⟩
  refine (checkParameters_of_compile fits compiled).mpr
    ⟨checkParameters_criterion linked, fun bound given => ?_⟩
  obtain ⟨fit, fitNegated⟩ := bounds.limitOf given
  cases direction : ((kin kinship row limit).traversal .standard).direction with
  | up => exact fitNegated
  | down => exact fit

/-! ## Walks of one step, and walks to one row -/

theorem isWalk_singleton {plan : WalkPlan} :
    plan.IsWalk table [other] ↔ other ∈ table ∧ plan.isAnchor other = true := by
  constructor
  · rintro ⟨⟨first, head, anchor⟩, members, -, -⟩
    obtain rfl : other = first := by simpa using head
    exact ⟨members other (by simp), anchor⟩
  · rintro ⟨member, anchor⟩
    exact ⟨⟨other, rfl, anchor⟩, by simpa using member, .singleton _, .inl rfl⟩

/-- There is a walk iff there is a row to start from. -/
theorem walks_eq_nil_iff {plan : WalkPlan}
    (mem_walks : ∀ walk, walk ∈ walks ↔ plan.IsWalk table walk) :
    walks = [] ↔ ∀ other ∈ table, plan.isAnchor other = false := by
  rw [List.eq_nil_iff_forall_not_mem]
  constructor
  · intro none other member
    by_contra anchor
    exact none [other] ((mem_walks _).mpr (isWalk_singleton.mpr ⟨member, by simpa using anchor⟩))
  · intro none walk found
    obtain ⟨first, head, anchor⟩ := ((mem_walks walk).mp found).anchored
    rw [none first (((mem_walks walk).mp found).members first (List.mem_of_head? head))] at anchor
    cases anchor

/-- The walks of no step, by the rows that they consist of. -/
theorem perm_anchors {plan : WalkPlan} (keyed : table.IsKeyed .integer) (nodup : walks.Nodup)
    (mem_walks : ∀ walk, walk ∈ walks ↔ plan.IsWalk table walk) :
    ((walks.filter fun walk => walk.length == 1).map WalkPlan.lastRow).Perm
      (List.filter plan.isAnchor table) := by
  have single (walk : List Row) (found : walk ∈ walks.filter fun walk => walk.length == 1) :
      ∃ other, walk = [other] ∧ other ∈ table ∧ plan.isAnchor other = true := by
    obtain ⟨found, length⟩ := List.mem_filter.mp found
    obtain ⟨other, rfl⟩ := List.length_eq_one_iff.mp (by simpa using length)
    exact ⟨other, rfl, isWalk_singleton.mp ((mem_walks _).mp found)⟩
  have distinct : ((walks.filter fun walk => walk.length == 1).map WalkPlan.lastRow).Nodup := by
    refine (nodup.filter _).map_on fun walk found walk' found' same => ?_
    obtain ⟨other, rfl, -⟩ := single walk found
    obtain ⟨other', rfl, -⟩ := single walk' found'
    exact congrArg (fun row => [row]) same
  refine (List.perm_ext_iff_of_nodup distinct (keyed.nodup.filter _)).mpr fun other => ?_
  rw [List.mem_map, List.mem_filter]
  constructor
  · rintro ⟨walk, found, rfl⟩
    obtain ⟨other, rfl, anchor⟩ := single walk found
    exact anchor
  · intro anchor
    exact ⟨[other], List.mem_filter.mpr ⟨(mem_walks _).mpr (isWalk_singleton.mpr anchor), rfl⟩, rfl⟩

section Below

variable (forest : table.IsForest) {plan : WalkPlan} (down : plan.direction = .down)
  (anchors : ∀ other ∈ table, plan.isAnchor other = true → other.parent = row.key)
  (member : row ∈ table)
include forest down anchors member

/-- Of two walks to one row the shorter is the end of the longer, and in front of it the longer would
have come down to the row from which both begin. -/
theorem eq_of_lastRow_below {walk other : List Row} (made : plan.IsWalk table walk)
    (otherMade : plan.IsWalk table other) (same : WalkPlan.lastRow walk = WalkPlan.lastRow other)
    (shorter : walk.length ≤ other.length) : walk = other := by
  have last : walk.getLast? = other.getLast? := by
    rw [made.getLast?_eq, otherMade.getLast?_eq, same]
  have chain := made.chain
  have otherChain := otherMade.chain
  rw [down] at chain otherChain
  obtain ⟨before, rfl⟩ := isSuffix_of_getLast forest.keyed.functional_down chain otherChain
    made.ne_nil last shorter
  cases before with
  | nil => rfl
  | cons first rest =>
    obtain ⟨start, head, anchor⟩ := made.anchored
    obtain ⟨otherStart, otherHead, otherAnchor⟩ := otherMade.anchored
    obtain rfl : first = otherStart := by simpa using otherHead
    have startMember := made.members start (List.mem_of_head? head)
    have firstMember := otherMade.members first (by simp)
    -- The row stands above the first row and, through it, above the start of the shorter walk,
    -- whose parent it is.
    have reached : ReflTransGen (table.Joined .down) first start :=
      reflTransGen_of_mem otherChain (by simp [List.mem_of_head? head])
    have above : table.Joined .down row start :=
      ⟨member, startMember, (anchors start startMember anchor).symm⟩
    have below : table.Joined .down row first :=
      ⟨member, firstMember, (anchors first firstMember otherAnchor).symm⟩
    rcases reached.cases_tail with rfl | ⟨middle, reached, joined⟩
    · have once := otherMade.nodup (avoidsCycles_of_forest forest plan)
      rw [List.cons_append, List.nodup_cons] at once
      exact absurd (List.mem_append_right rest (List.mem_of_head? head)) once.1
    · obtain rfl := forest.keyed.functional_down _ _ _ joined above
      exact absurd (Table.onCycle_iff.mpr (TransGen.head' below reached)) (forest.acyclic _)

/-- The rows below a row come once each. -/
theorem nodup_lastRows_below (nodup : walks.Nodup)
    (mem_walks : ∀ walk ∈ walks, plan.IsWalk table walk) :
    (walks.map WalkPlan.lastRow).Nodup := by
  refine nodup.map_on fun walk found other otherFound same => ?_
  have made := mem_walks walk found
  have otherMade := mem_walks other otherFound
  rcases Nat.le_total walk.length other.length with shorter | longer
  · exact eq_of_lastRow_below forest down anchors member made otherMade same shorter
  · exact (eq_of_lastRow_below forest down anchors member otherMade made same.symm longer).symm

end Below

/-! ## The order of a walk -/

namespace Service

variable {rows run : List TreeRow} {order : WalkOrder} {expression : RecursiveExpression}

theorem mem_of_mem_shownRows {treeRow : TreeRow} (member : treeRow ∈ shownRows rows) :
    treeRow ∈ rows := by
  obtain ⟨original, found, rfl⟩ := List.mem_map.mp member
  cases first : rows.find? fun other => other.row.key == original.row.key with
  | none => exact found
  | some other => exact List.mem_of_find?_eq_some first

theorem shownRows_eq_self (distinct : (rows.map fun treeRow => treeRow.row.key).Nodup) :
    shownRows rows = rows := by
  have same : ∀ treeRow ∈ rows,
      (rows.find? fun other => other.row.key == treeRow.row.key).getD treeRow = treeRow := by
    intro treeRow member
    cases first : rows.find? fun other => other.row.key == treeRow.row.key with
    | none => rfl
    | some other =>
      exact List.inj_on_of_nodup_map distinct (List.mem_of_find?_eq_some first) member
        (by simpa using List.find?_some first)
  exact (List.map_congr_left same).trans (List.map_id rows)

theorem settleRuns_perm (rows run : List TreeRow) : (settleRuns rows run).Perm (run ++ rows) := by
  induction rows generalizing run with
  | nil =>
    rw [settleRuns, List.append_nil]
    exact List.mergeSort_perm run _
  | cons treeRow rest ih =>
    rw [settleRuns]
    split
    · exact (ih (run ++ [treeRow])).trans (by simp)
    · exact (List.mergeSort_perm run _).append (ih [treeRow])

theorem apply_depthFirst {query : TreeQuery} (recursive : query.expression.isNone = false) :
    query.apply .depthFirst = .ok (query.sorted .path false) := by
  simp only [TreeQuery.apply, recursive, Bool.false_eq_true, if_false]

theorem apply_breadthFirst {query : TreeQuery} (recursive : query.expression.isNone = false) :
    query.apply .breadthFirst = .ok (query.sorted .depth false) := by
  simp only [TreeQuery.apply, recursive, Bool.false_eq_true, if_false]

theorem walkRows_of_unsorted {query : TreeQuery} {field : Field} (unsorted : query.orders = [])
    (accepted : TreeQuery.checkParameters query.parameters = .ok ())
    (found : query.rows? table = some rows) :
    walkRows table (query.sorted field false) =
      .ok (shownRows (TreeQuery.arranged [⟨field, false⟩] rows)) := by
  have queried : queryRows (query.sorted field false) table =
      .ok (TreeQuery.arranged [⟨field, false⟩] rows) := by
    refine queryRows_eq_ok.mpr ⟨accepted, ?_⟩
    rw [TreeQuery.rows?_sorted_of_unsorted unsorted, found, Option.map_some]
  exact bind_eq_ok.mpr ⟨_, queried, rfl⟩

/-- Either order of a walk has its keys, and each of its rows is one of the walk's; if no key comes
twice it has the walk's rows. -/
theorem exists_orderedRows_of_unsorted {query : TreeQuery} (order : WalkOrder)
    (recursive : query.expression.isNone = false) (unsorted : query.orders = [])
    (accepted : TreeQuery.checkParameters query.parameters = .ok ())
    (found : query.rows? table = some rows) :
    ∃ shown, orderedRows table query order = .ok shown ∧
      (∀ treeRow ∈ shown, treeRow ∈ rows) ∧
      (shown.map fun treeRow => treeRow.row.key).Perm (rows.map fun treeRow => treeRow.row.key) ∧
      ((rows.map fun treeRow => treeRow.row.key).Nodup → shown.Perm rows) := by
  -- Sorted rows are the same rows. If a key comes twice, its first row is shown at both places.
  have sorted (field : Field) :
      (∀ treeRow ∈ shownRows (TreeQuery.arranged [⟨field, false⟩] rows), treeRow ∈ rows) ∧
      ((shownRows (TreeQuery.arranged [⟨field, false⟩] rows)).map fun treeRow =>
        treeRow.row.key).Perm (rows.map fun treeRow => treeRow.row.key) ∧
      ((rows.map fun treeRow => treeRow.row.key).Nodup →
        (shownRows (TreeQuery.arranged [⟨field, false⟩] rows)).Perm rows) := by
    have arranged := TreeQuery.arranged_perm [⟨field, false⟩] rows
    refine ⟨fun treeRow member => arranged.subset (mem_of_mem_shownRows member), ?_,
      fun distinct => ?_⟩
    · rw [key_shownRows]
      exact arranged.map _
    · rwa [shownRows_eq_self ((arranged.map _).nodup_iff.mpr distinct)]
  have walked (field : Field) := @walkRows_of_unsorted table rows query field unsorted accepted found
  cases order with
  | depth =>
    exact ⟨_, bind_eq_ok.mpr ⟨_, apply_depthFirst recursive, walked .path⟩, sorted .path⟩
  | breadth =>
    obtain ⟨members, keys, same⟩ := sorted .depth
    have settled := settleRuns_perm (shownRows (TreeQuery.arranged [⟨.depth, false⟩] rows)) []
    refine ⟨settleRuns (shownRows (TreeQuery.arranged [⟨.depth, false⟩] rows)) [], bind_eq_ok.mpr
      ⟨_, apply_breadthFirst recursive, bind_eq_ok.mpr ⟨_, walked .depth, rfl⟩⟩, ?_, ?_, ?_⟩
    · exact fun treeRow member => members treeRow (settled.subset member)
    · exact (settled.map _).trans keys
    · exact fun distinct => settled.trans (same distinct)

theorem exists_orderedRows (order : WalkOrder)
    (accepted : TreeQuery.checkParameters expression.parameters = .ok ())
    (found : expression.rows? table = some rows) :
    ∃ shown, orderedRows table (.ofExpression expression) order = .ok shown ∧
      (∀ treeRow ∈ shown, treeRow ∈ rows) ∧
      (shown.map fun treeRow => treeRow.row.key).Perm (rows.map fun treeRow => treeRow.row.key) ∧
      ((rows.map fun treeRow => treeRow.row.key).Nodup → shown.Perm rows) := by
  rw [← TreeQuery.parameters_ofExpression] at accepted
  rw [← TreeQuery.rows?_ofExpression] at found
  exact exists_orderedRows_of_unsorted order rfl rfl accepted found

/-- A walk in either order is refused for its first value that the store refuses. -/
theorem orderedRows_of_refused {query : TreeQuery} {fault : Fault}
    (recursive : query.expression.isNone = false)
    (refused : TreeQuery.checkParameters query.parameters = .error fault) (order : WalkOrder) :
    orderedRows table query order = .error fault := by
  have walked (field : Field) : walkRows table (query.sorted field false) = .error fault := by
    have sameParameters : (query.sorted field false).parameters = query.parameters := rfl
    unfold walkRows queryRows
    rw [sameParameters, refused]
    rfl
  unfold orderedRows
  cases order with
  | depth =>
    dsimp only
    rw [apply_depthFirst recursive]
    exact walked .path
  | breadth =>
    dsimp only
    rw [apply_breadthFirst recursive]
    change (walkRows table (query.sorted .depth false) >>= _) = _
    rw [walked .depth]
    rfl

end Service
end AdjacencyForest
