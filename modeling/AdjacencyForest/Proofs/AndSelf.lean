import AdjacencyForest.Proofs.DepthLimits
import AdjacencyForest.Proofs.FiniteWalks
import AdjacencyForest.Proofs.Relatives

/-!
# Relations with the row itself

What a relation of a row shows with the row itself is the row alone, and behind it all that the
relation shows without it, with the row's key in front of each path. The walks from the row are one
step longer than those from the rows next to it, and begin one step nearer, so a limit ends both at
the same rows.

Main statements: `WalkPlan.Precedes.walks_succ`, the walks from a row; `exists_rows_with_self`, the
rows above or below a row with and without it; `reachesNoCycle_iff`, when there are such rows without a
limit; `yields_beside`, the rows beside it; `rows_and_self`, all of them together with a row's children
and its parent.
-/

open Relation

namespace AdjacencyForest

open RecursiveExpression

/-! ## Walks from a row -/

namespace WalkPlan

variable {plan next : WalkPlan} {table : Table} {row : Row} {walk : List Row} {steps levels : Nat}

/-- The one plan starts from a row, the other from the rows next to it. -/
structure Precedes (plan next : WalkPlan) (table : Table) (row : Row) : Prop where
  direction : next.direction = plan.direction
  limit : next.limit = plan.limit
  separator : next.separator = plan.separator
  start : plan.start = 0
  nextStart : next.start = plan.depthStep
  anchors : List.filter plan.isAnchor table = [row]
  nextAnchors : List.filter next.isAnchor table =
    List.filter (fun other => decide (plan.direction.Joins row other)) table
  /-- The limit leaves a first step. -/
  further : plan.Allows 1

theorem getLast?_cons_of_ne_nil (nonempty : walk ≠ []) : (row :: walk).getLast? = walk.getLast? :=
  List.getLast?_append_of_ne_nil [row] nonempty

theorem steps_cons (nonempty : walk ≠ []) : (row :: walk).length - 1 = walk.length - 1 + 1 := by
  have positive := List.length_pos_iff.mpr nonempty
  rw [List.length_cons]
  omega

namespace Precedes

variable (precedes : plan.Precedes next table row)
include precedes

theorem depthStep_eq : next.depthStep = plan.depthStep := by
  unfold depthStep
  rw [precedes.direction]

theorem depthAfter_succ : plan.depthAfter (steps + 1) = next.depthAfter steps := by
  have nextStart := precedes.nextStart
  unfold depthStep at nextStart
  unfold depthAfter
  rw [precedes.direction, precedes.start]
  cases direction : plan.direction <;> simp only [direction] at nextStart ⊢ <;> omega

theorem continues_succ : plan.continues (steps + 1) = next.continues steps := by
  unfold continues
  rw [precedes.limit, precedes.direction, precedes.depthAfter_succ]

theorem extensions_cons (nonempty : walk ≠ []) :
    plan.extensions table (row :: walk) = (next.extensions table walk).map (row :: ·) := by
  unfold extensions following
  rw [steps_cons nonempty, precedes.continues_succ, getLast?_cons_of_ne_nil nonempty,
    precedes.direction]
  split
  · rw [List.map_map]
    rfl
  · rfl

theorem walks_zero : plan.walks table 0 = [[row]] := by
  rw [walks, precedes.anchors, List.map_singleton]

/-- A walk from the row with one step more is one from a row next to it. -/
theorem walks_succ : plan.walks table (steps + 1) = (next.walks table steps).map (row :: ·) := by
  induction steps with
  | zero =>
    have further : plan.continues ([row].length - 1) = true := continues_iff.mpr precedes.further
    have joined : plan.following table [row] =
        List.filter (fun other => decide (plan.direction.Joins row other)) table := by
      simp [following]
    have first : plan.walks table (0 + 1) =
        (plan.walks table 0).flatMap (plan.extensions table) := rfl
    rw [first, precedes.walks_zero, List.flatMap_singleton, extensions, if_pos further, joined,
      ← precedes.nextAnchors, walks, List.map_map]
    rfl
  | succ steps ih =>
    rw [walks, ih, List.flatMap_map, walks, List.map_flatMap]
    exact List.flatMap_congr fun walk made =>
      precedes.extensions_cons (mem_walks.mp made).1.ne_nil

theorem enumeration_succ : plan.enumeration table (levels + 1) =
    [row] :: (next.enumeration table levels).map (row :: ·) := by
  unfold enumeration
  rw [List.range_succ_eq_map, List.flatMap_cons, precedes.walks_zero, List.flatMap_map, List.map_flatMap]
  exact congrArg ([row] :: ·) (List.flatMap_congr fun steps _ => precedes.walks_succ)

theorem storedDepth_succ : plan.storedDepth (steps + 1) = next.storedDepth steps := by
  induction steps with
  | zero =>
    rw [storedDepth, storedDepth, storedDepth, precedes.start, precedes.nextStart]
    unfold depthStep
    cases plan.direction <;> simp [Value.ofInt, Value.plus, fitsInt64]
  | succ steps ih => rw [storedDepth, ih, storedDepth, precedes.depthStep_eq]

end Precedes
end WalkPlan

/-! ## Rows from a row -/

/-- The row of a query that has only been started from. -/
def Row.alone (row : Row) : TreeRow := ⟨row, .int 0, row.key.asText⟩

/-- The row of a query as another row leads to it: the path has the key of that one in front. -/
def TreeRow.behind (separator : String) (row : Row) (treeRow : TreeRow) : TreeRow :=
  { treeRow with path := row.key.appendKey separator treeRow.path }

theorem Row.alone_eq {kind : KeyKind} {row : Row} (admitted : kind.Admits row.key) :
    row.alone = ⟨row, .int 0, .text row.keyText⟩ := by
  rw [alone, Value.asText, KeyKind.text?_key admitted]

theorem Value.appendKey_of_text {separator before after : String} {value : Value}
    (text : value.text? = some before) :
    value.appendKey separator (.text after) = .text (before ++ separator ++ after) := by
  rw [appendKey, text]
  rfl

theorem WalkPlan.storedRow_singleton {plan : WalkPlan} {row : Row} {kind : KeyKind}
    (start : plan.start = 0) (admitted : kind.Admits row.key) :
    plan.storedRow [row] = row.alone := by
  rw [row.alone_eq admitted]
  unfold storedRow rowOf
  simp only [List.length_singleton, Nat.sub_self, storedDepth, start]
  simp [Value.ofInt, fitsInt64]

namespace WalkPlan.Precedes

variable {plan next : WalkPlan} {table : Table} {row : Row} {walk : List Row} {kind : KeyKind}

theorem storedRow_cons (precedes : plan.Precedes next table row) (admitted : kind.Admits row.key)
    (nonempty : walk ≠ []) :
    plan.storedRow (row :: walk) = (next.storedRow walk).behind plan.separator row := by
  have joined : plan.separator.intercalate ((row :: walk).map Row.keyText) =
      row.keyText ++ plan.separator ++ plan.separator.intercalate (walk.map Row.keyText) := by
    rw [← List.singleton_append, List.map_append,
      String.intercalate_append_of_ne_nil (by simp) (by simpa using nonempty)]
    simp
  unfold storedRow rowOf TreeRow.behind
  rw [getLast?_cons_of_ne_nil nonempty, steps_cons nonempty, precedes.storedDepth_succ,
    precedes.separator, joined, Value.appendKey_of_text (KeyKind.text?_key admitted)]

/-- The rows from a row on are the row alone and those behind it. -/
theorem map_storedRow_enumeration (precedes : plan.Precedes next table row)
    (admitted : kind.Admits row.key) (levels : Nat) :
    (plan.enumeration table (levels + 1)).map plan.storedRow =
      row.alone :: ((next.enumeration table levels).map next.storedRow).map
        (TreeRow.behind plan.separator row) := by
  rw [precedes.enumeration_succ, List.map_cons, storedRow_singleton precedes.start admitted,
    List.map_map, List.map_map]
  refine congrArg (row.alone :: ·) (List.map_congr_left fun walk listed => ?_)
  obtain ⟨steps, -, made⟩ := List.mem_flatMap.mp listed
  exact precedes.storedRow_cons admitted (mem_walks.mp made).1.ne_nil

end WalkPlan.Precedes

/-! ## Links of any model -/

section Links

variable {model : TreeModel} {kind : KeyKind} {table : Table} {row : Row} {key value : Value}
  {parents : List Value} {column : Column}

theorem TreeModel.affinity_of_link (model : TreeModel) (link : column = .key ∨ column = .parent) :
    model.affinity column = model.affinity .key := by
  rcases link with rfl | rfl <;> rfl

theorem Value.comparand_of_admitted (given : model.keyKind.Admits value) :
    value.comparand (model.affinity .key) = value := by
  unfold TreeModel.affinity
  cases kind : model.keyKind <;> cases value <;> simp_all [KeyKind.Admits, comparand]

theorem TreeRow.satisfies_link (link : column = .key ∨ column = .parent)
    (own : row.value column = .null ∨ model.keyKind.Admits (row.value column))
    (given : value = .null ∨ model.keyKind.Admits value) (bindable : value.IsBindable) :
    ((TreeRow.ofRow row).reading model parents).satisfies
      (.equals (.column column) value.toJson) = true ↔ row.value column = value := by
  have parameter : Value.ofParameter (.column column) value.toJson = .ok value := by
    rcases link with rfl | rfl <;> exact bindable
  rcases given with rfl | given
  · simp [Value.toJson, Criterion.equals, Reading.satisfies, Reading.truth, TreeRow.reading,
      TreeRow.value, TreeRow.ofRow, Value.isNull_iff]
  · have asked : Criterion.equals (.column column) value.toJson =
        .compare (.column column) .equal value.toJson := by
      cases kind : model.keyKind <;> cases value <;>
        simp_all [KeyKind.Admits, Criterion.equals, Value.toJson]
    have same := (KeyKind.equals_comm given own).trans eq_comm
    rw [asked, ← same]
    simp only [Reading.satisfies, Reading.truth, Reading.compares, Reading.operand, parameter,
      TreeRow.reading, TreeRow.value, TreeRow.fieldAffinity, TreeRow.ofRow,
      model.affinity_of_link link, Value.comparand_of_admitted given]
    cases kind : model.keyKind <;> cases value <;> cases rowValue : row.value column <;>
      simp_all [KeyKind.Admits, Comparison.holds, Value.equals, Value.isNull]

theorem Criterion.differs_of_admitted (given : model.keyKind.Admits key) :
    Criterion.differs (.column .key) key.toJson =
      .compare (.column .key) .notEqual key.toJson := by
  cases kind : model.keyKind <;> cases key <;>
    simp_all [KeyKind.Admits, Criterion.differs, Value.toJson]

theorem TreeRow.satisfies_other_key (own : model.keyKind.Admits row.key)
    (given : model.keyKind.Admits key) (bindable : key.IsBindable) :
    ((TreeRow.ofRow row).reading model parents).satisfies
      (.differs (.column .key) key.toJson) = true ↔ row.key ≠ key := by
  have parameter : Value.ofParameter (.column .key) key.toJson = .ok key := bindable
  rw [Criterion.differs_of_admitted given, Ne, ← KeyKind.equals_iff own (.inr given)]
  simp only [Reading.satisfies, Reading.truth, Reading.compares, Reading.operand, parameter,
    TreeRow.reading, TreeRow.value, TreeRow.fieldAffinity, TreeRow.ofRow, Row.value,
    Value.comparand_of_admitted given]
  cases kind : model.keyKind <;> cases key <;> cases rowKey : row.key <;>
    simp_all [KeyKind.Admits, Comparison.holds, Value.equals, Value.isNull]

theorem Table.filter_key_eq (keyed : table.IsKeyed kind) (key : Value) :
    List.filter (fun other => decide (other.key = key)) table = (table.find? key).toList := by
  have nodup : (List.filter (fun other => decide (other.key = key)) table).Nodup :=
    keyed.nodup.filter _
  have members (other : Row) : other ∈ List.filter (fun other => decide (other.key = key)) table ↔
      other ∈ (table.find? key).toList := by
    rw [List.mem_filter, decide_eq_true_iff, Option.mem_toList]
    exact (Table.find?_iff keyed).symm
  cases found : table.find? key with
  | none =>
    rw [found] at members
    exact List.eq_nil_iff_forall_not_mem.mpr fun other member => by
      simpa using (members other).mp member
  | some row =>
    rw [found] at members
    exact List.perm_singleton.mp
      ((List.perm_ext_iff_of_nodup nodup (List.nodup_singleton row)).mpr members)

end Links

/-! ## Above and below a row -/

namespace DepthQuery

variable {model : TreeModel} {registry : Registry} {table : Table} {row : Row}
  {direction : Direction} {limit : Option Int}

section Anchors

variable (keyed : table.IsKeyed model.keyKind) (member : row ∈ table)
include keyed member

theorem isAnchor_relatives_self (bindable : row.key.IsBindable) {other : Row} (found : other ∈ table) :
    ((relatives direction true row).plan model table).isAnchor other = decide (other.key = row.key) := by
  rw [Bool.eq_iff_iff, decide_eq_true_iff]
  exact TreeRow.satisfies_key (keyed.key other found) (keyed.key row member) bindable

theorem isAnchor_relatives (keyBindable : row.key.IsBindable) (parentBindable : row.parent.IsBindable)
    {other : Row} (found : other ∈ table) :
    ((relatives direction false row).plan model table).isAnchor other =
      decide (direction.Joins row other) := by
  rw [Bool.eq_iff_iff, decide_eq_true_iff]
  cases direction with
  | up =>
    exact TreeRow.satisfies_link (.inl rfl) (.inr (keyed.key other found))
      (keyed.parent row member) parentBindable
  | down =>
    exact (TreeRow.satisfies_link (.inr rfl) (keyed.parent other found)
      (.inr (keyed.key row member)) keyBindable).trans eq_comm

theorem precedes_relatives (keyBindable : row.key.IsBindable)
    (parentBindable : row.parent.IsBindable) (farEnough : ∀ bound, limit = some bound → 1 ≤ bound) :
    (((relatives direction true row).plan model table).limited limit).Precedes
      (((relatives direction false row).plan model table).limited limit) table row where
  direction := rfl
  limit := rfl
  separator := rfl
  start := by cases direction <;> rfl
  nextStart := by cases direction <;> rfl
  anchors := by
    have same : table.find? row.key = some row := (Table.find?_iff keyed).mpr ⟨member, rfl⟩
    refine (List.filter_congr fun other found =>
      isAnchor_relatives_self keyed member keyBindable found).trans ?_
    rw [Table.filter_key_eq keyed, same]
    rfl
  nextAnchors := List.filter_congr fun other found =>
    isAnchor_relatives keyed member keyBindable parentBindable found
  further := by
    cases limit with
    | none => exact WalkPlan.allows_of_unlimited rfl 1
    | some bound =>
      have far := farEnough bound rfl
      rw [WalkPlan.allows_limited_iff]
      cases direction <;> simp only [WalkPlan.room, plan, DepthQuery.direction, nearest,
        Direction.sign] <;> omega

/-- The rows from the row on, and those from the rows next to it. -/
theorem map_storedRow_relatives (keyBindable : row.key.IsBindable)
    (parentBindable : row.parent.IsBindable) (farEnough : ∀ bound, limit = some bound → 1 ≤ bound)
    (levels : Nat) :
    ((((relatives direction true row).plan model table).limited limit).enumeration table
        (levels + 1)).map ((relatives direction true row).plan model table).storedRow =
      row.alone :: (((((relatives direction false row).plan model table).limited limit).enumeration
        table levels).map ((relatives direction false row).plan model table).storedRow).map
          (TreeRow.behind model.separator row) := by
  have unlimited (andSelf : Bool) :
      (((relatives direction andSelf row).plan model table).limited limit).storedRow =
        ((relatives direction andSelf row).plan model table).storedRow :=
    funext fun _ => WalkPlan.storedRow_limited limit
  rw [← unlimited true, ← unlimited false]
  exact (precedes_relatives keyed member keyBindable parentBindable farEnough).map_storedRow_enumeration
    (keyed.key row member) levels

end Anchors

/-- A limit that the store does not take is refused with whatever the query starts from. -/
theorem refuses_limit (apart : model.NamesApart)
    (supported : registry.grammarFor .sqlite = .ok .sqlite) {query : DepthQuery}
    (asked : query.IsAsked table) {bound : Int}
    (beyond : fitsInt64 (query.direction.sign * bound) = false) :
    (query.start (some bound)).IsRefused ⟨model, registry, .sqlite⟩ .integerOverflow := by
  obtain ⟨expression, built, compiled⟩ :=
    @exists_query model registry query apart supported (some bound)
  refine ⟨_, built, ?_⟩
  rw [TreeQuery.parameters_ofExpression, parameters_of_compile apart compiled]
  refine TreeQuery.checkParameters_of_tooLarge (accepts_criterion asked) ?_
  simp [Value.ofParameter, Value.ofJson, beyond]

/-- A row together with the rows one step away. -/
def nearby (direction : Direction) (row : Row) : QueryStart :=
  match direction with
  | .up => .parentAndSelf (.ofRow row)
  | .down => .childrenAndSelf (.ofRow row)

theorem yields_nearby {setting : Setting} {rows : List TreeRow}
    (yields : ((relatives direction true row).start none).Yields
      [(relatives direction true row).scope 1] setting table rows) :
    (nearby direction row).Yields [] setting table rows := by
  obtain ⟨base, query, built, applied, accepted, found⟩ := yields
  refine ⟨query, query, ?_, rfl, accepted, found⟩
  have narrowed : base.apply ((relatives direction true row).scope 1) = .ok query := by
    obtain ⟨next, first, rest⟩ := bind_eq_ok.mp applied
    rwa [pure_eq_ok.mp rest] at first
  cases direction <;> exact bind_eq_ok.mpr ⟨base, built, narrowed⟩

theorem behind_storedRow_singleton {other : Row} (admitted : model.keyKind.Admits other.key) :
    (((relatives direction false row).plan model table).storedRow [other]).behind model.separator row =
      ⟨other, .int direction.sign, row.key.appendKey model.separator other.key⟩ := by
  have start : Value.ofInt ((relatives direction false row).plan model table).start =
      .int direction.sign := by
    cases direction <;> simp [plan, DepthQuery.direction, nearest, Direction.sign, Value.ofInt, fitsInt64]
  have path : row.key.appendKey model.separator (.text other.keyText) =
      row.key.appendKey model.separator other.key := by
    rw [Value.appendKey, Value.appendKey, KeyKind.text?_key admitted]
    rfl
  simp [TreeRow.behind, WalkPlan.storedRow, WalkPlan.rowOf, WalkPlan.storedDepth, start, path]

/-- Of all walks that an ended enumeration has, those within one step are those of two levels. -/
theorem filter_isWithin_enumeration {levels : Nat}
    (ended : (((relatives direction true row).plan model table).limited none).walks table levels = []) :
    ((((relatives direction true row).plan model table).limited none).enumeration table
      levels).filter (TreeRow.isWithin direction 1 ∘
        ((relatives direction true row).plan model table).storedRow) =
      (((relatives direction true row).plan model table).limited none).enumeration table 2 := by
  have near (walk : List Row) :
      (((relatives direction true row).plan model table).storedRow walk).isWithin direction 1 =
        decide (walk.length - 1 ≤ 1) := by
    have room : ((relatives direction true row).plan model table).room 1 = 1 := by
      cases direction <;> rfl
    have shown := @isWithin_storedRow_plan model table (relatives direction true row) walk 1 (by decide)
    rwa [room] at shown
  have short : (((relatives direction true row).plan model table).limited none).enumeration table
      (min levels 2) =
        (((relatives direction true row).plan model table).limited none).enumeration table 2 := by
    rcases Nat.le_total levels 2 with le | le
    · rw [Nat.min_eq_left le, WalkPlan.enumeration_eq_of_le ended le]
    · rw [Nat.min_eq_right le]
  rw [← short, ← WalkPlan.filter_length_enumeration]
  exact List.filter_congr fun walk _ => near walk

/-- From a row no cycle can be reached in a direction. -/
def ReachesNoCycle (table : Table) (direction : Direction) (row : Row) : Prop :=
  ∀ other, ReflTransGen (table.Joined direction) row other → ¬ table.OnCycle other

variable (keyed : table.IsKeyed model.keyKind) (apart : model.NamesApart)
  (supported : registry.grammarFor .sqlite = .ok .sqlite) (member : row ∈ table)
  (keyBindable : row.key.IsBindable) (parentBindable : row.parent.IsBindable)
include keyed member keyBindable

theorem avoidsCycles_relatives_self (free : ReachesNoCycle table direction row) :
    (((relatives direction true row).plan model table).limited limit).AvoidsCycles table := by
  intro anchor found selected other reached
  have same := (isAnchor_relatives_self keyed member keyBindable found).symm.trans selected
  obtain rfl := keyed.eq_of_key found member (of_decide_eq_true same)
  exact free other reached

include parentBindable in
theorem avoidsCycles_relatives (free : ReachesNoCycle table direction row) :
    (((relatives direction false row).plan model table).limited limit).AvoidsCycles table := by
  intro anchor found selected other reached
  have joins := (isAnchor_relatives keyed member keyBindable parentBindable found).symm.trans selected
  exact free other (.head ⟨member, found, of_decide_eq_true joins⟩ reached)

include apart supported parentBindable in
/-- The rows above or below a row are counted out iff no cycle can be reached from it. -/
theorem reachesNoCycle_iff (andSelf : Bool) : ReachesNoCycle table direction row ↔
    ∃ rows : List TreeRow, (QueryStart.related (relation direction andSelf row none)).Yields []
      ⟨model, registry, .sqlite⟩ table rows := by
  constructor
  · intro free
    obtain ⟨expression, levels, built, accepted, -, found⟩ :=
      @exists_rows_of_finite model registry table (relatives direction andSelf row) none keyed apart
        supported ⟨member, keyBindable, parentBindable⟩ (fun _ given => nomatch given) fun _ => by
          cases andSelf with
          | true => exact avoidsCycles_relatives_self keyed member keyBindable free
          | false => exact avoidsCycles_relatives keyed member keyBindable parentBindable free
    exact ⟨_, yields_ofExpression built accepted found⟩
  · rintro ⟨rows, base, query, built, applied, -, complete⟩
    obtain ⟨expression, same, compiled⟩ :=
      @exists_query model registry (relatives direction andSelf row) apart supported none
    obtain rfl : base = .ofExpression expression := Except.ok.inj (built.symm.trans same)
    obtain rfl : TreeQuery.ofExpression expression = query := Except.ok.inj applied
    rw [TreeQuery.rows?_ofExpression] at complete
    have follows : expression.Follows
        (((relatives direction andSelf row).plan model table).limited none) table := by
      rw [← plan_traversal]
      exact follows_of_compile (fits_traversal apart) compiled table
    have avoids := avoidsCycles_of_rows? follows keyed rfl complete
    intro other reached around
    cases andSelf with
    | true =>
      refine avoids row member ?_ other reached around
      exact (isAnchor_relatives_self keyed member keyBindable member).trans (decide_eq_true rfl)
    | false =>
      -- The cycle is reached from a row next to this one, also if this one is on the cycle.
      obtain ⟨next, joined, rest⟩ := TransGen.head'_iff.mp
        (TransGen.trans_right reached (Table.onCycle_iff.mp around))
      refine avoids next joined.2.1 ?_ other rest around
      exact (isAnchor_relatives keyed member keyBindable parentBindable joined.2.1).trans
        (decide_eq_true joined.2.2)

include apart supported parentBindable in
/-- With the row itself a relation shows the row alone and, behind it, what it shows without the row. -/
theorem exists_rows_with_self (farEnough : ∀ bound, limit = some bound → 1 ≤ bound)
    (takes : (relatives direction true row).StoreTakes limit)
    (finite : limit = none → ReachesNoCycle table direction row) :
    ∃ rows : List TreeRow,
      (QueryStart.related (relation direction false row limit)).Yields [] ⟨model, registry, .sqlite⟩
        table rows ∧
      (QueryStart.related (relation direction true row limit)).Yields [] ⟨model, registry, .sqlite⟩
        table (row.alone :: rows.map (TreeRow.behind model.separator row)) := by
  have asked (andSelf : Bool) : (relatives direction andSelf row).IsAsked table :=
    ⟨member, keyBindable, parentBindable⟩
  obtain ⟨without, levels, built, accepted, ended, found⟩ :=
    @exists_rows_of_finite model registry table (relatives direction false row) limit keyed apart
      supported (asked false) takes fun unlimited =>
        avoidsCycles_relatives keyed member keyBindable parentBindable (finite unlimited)
  obtain ⟨withSelf, more, builtSelf, acceptedSelf, endedSelf, foundSelf⟩ :=
    @exists_rows_of_finite model registry table (relatives direction true row) limit keyed apart
      supported (asked true) takes fun unlimited =>
        avoidsCycles_relatives_self keyed member keyBindable (finite unlimited)
  have precedes := @precedes_relatives model table row direction limit keyed member keyBindable
    parentBindable farEnough
  have later : (((relatives direction true row).plan model table).limited limit).walks table
      (levels + 1) = [] := by rw [precedes.walks_succ, ended, List.map_nil]
  rw [WalkPlan.enumeration_eq_of_ends endedSelf later,
    map_storedRow_relatives keyed member keyBindable parentBindable farEnough] at foundSelf
  exact ⟨_, yields_ofExpression built accepted found,
    yields_ofExpression builtSelf acceptedSelf foundSelf⟩

/-- The row alone, and the rows one step away behind it. -/
def nearbyRows (table : Table) (separator : String) (direction : Direction) (row : Row) :
    List TreeRow :=
  row.alone :: (List.filter (fun other => decide (direction.Joins row other)) table).map fun other =>
    ⟨other, .int direction.sign, row.key.appendKey separator other.key⟩

include parentBindable in
theorem map_storedRow_two_levels :
    ((((relatives direction true row).plan model table).limited none).enumeration table 2).map
        ((relatives direction true row).plan model table).storedRow =
      nearbyRows table model.separator direction row := by
  have once : (((relatives direction false row).plan model table).limited none).enumeration table 1 =
      (List.filter (fun other => decide (direction.Joins row other)) table).map fun other => [other] := by
    rw [WalkPlan.enumeration, List.range_one, List.flatMap_singleton, WalkPlan.walks]
    exact congrArg _ (List.filter_congr fun other found =>
      isAnchor_relatives keyed member keyBindable parentBindable found)
  have levels := @map_storedRow_relatives model table row direction none keyed member keyBindable
    parentBindable (by simp) 1
  rw [levels, once, List.map_map, List.map_map, nearbyRows]
  exact congrArg (row.alone :: ·) (List.map_congr_left fun other listed =>
    behind_storedRow_singleton (keyed.key other (List.mem_filter.mp listed).1))

include keyed apart supported member keyBindable parentBindable in
theorem yields_nearbyRows (free : ReachesNoCycle table direction row) :
    (nearby direction row).Yields [] ⟨model, registry, .sqlite⟩ table
      (nearbyRows table model.separator direction row) := by
  obtain ⟨expression, levels, built, accepted, ended, found⟩ :=
    @exists_rows_of_finite model registry table (relatives direction true row) none keyed apart
      supported ⟨member, keyBindable, parentBindable⟩ (fun _ given => nomatch given)
      fun _ => avoidsCycles_relatives_self keyed member keyBindable free
  have yields := yields_scope built accepted found (fun treeRow listed => by
    obtain ⟨walk, -, rfl⟩ := List.mem_map.mp listed
    exact isNull_depth_storedRow) (by decide : (0 : Int) ≤ 1) (by decide)
  rw [← map_storedRow_two_levels keyed member keyBindable parentBindable,
    ← filter_isWithin_enumeration ended, ← List.filter_map]
  exact yields_nearby yields

end DepthQuery

/-! ## Beside a row -/

/-- The relation of a row to those with its parent. -/
def beside (andSelf : Bool) (row : Row) : Relation := ⟨.siblings, andSelf, .ofRow row, .null⟩

def besideCriterion (row : Row) : Bool → Criterion
  | true => .equals (.column .parent) row.parent.toJson
  | false =>
    .both (.equals (.column .parent) row.parent.toJson) (.differs (.column .key) row.key.toJson)

/-- The rows with the parent of a row, with or without the row itself. -/
def Table.besideRows (table : Table) (row : Row) : Bool → List Row
  | true => table.childRows row.parent
  | false => table.siblingRows row

section Beside

variable {model : TreeModel} {registry : Registry} {table : Table} {row : Row}
  (keyed : table.IsKeyed model.keyKind) (member : row ∈ table) (keyBindable : row.key.IsBindable)
  (parentBindable : row.parent.IsBindable)
include keyed member keyBindable parentBindable

theorem filter_besideCriterion (andSelf : Bool) :
    List.filter (fun other => ((TreeRow.ofRow other).reading model table.parents).satisfies
      (besideCriterion row andSelf)) table = table.besideRows row andSelf := by
  have parent (other : Row) (found : other ∈ table) :=
    @TreeRow.satisfies_link model other row.parent table.parents .parent (.inr rfl)
      (keyed.parent other found) (keyed.parent row member) parentBindable
  cases andSelf with
  | true =>
    refine List.filter_congr fun other found => ?_
    rw [Bool.eq_iff_iff]
    exact (parent other found).trans beq_iff_eq.symm
  | false =>
    refine List.filter_congr fun other found => ?_
    have key := @TreeRow.satisfies_other_key model other row.key table.parents
      (keyed.key other found) (keyed.key row member) keyBindable
    rw [Bool.eq_iff_iff, besideCriterion, Reading.both_iff, parent other found, key]
    simp [Row.value]

theorem accepts_besideCriterion (andSelf : Bool) :
    TreeQuery.checkParameters (besideCriterion row andSelf).parameters = .ok () := by
  have parent := checkParameters_equals (.inr rfl) parentBindable
  cases andSelf with
  | true => exact parent
  | false =>
    rw [besideCriterion, Criterion.differs_of_admitted (keyed.key row member)]
    refine TreeQuery.checkParameters_eq_ok.mpr fun parameter found => ?_
    rcases List.mem_append.mp found with found | found
    · exact TreeQuery.checkParameters_eq_ok.mp parent parameter found
    · obtain rfl : parameter = (.column .key, row.key.toJson) := by
        cases key : row.key <;> simpa [key, Value.toJson, Criterion.parameters] using found
      exact ⟨row.key, keyBindable⟩

/-- The limit of a relation to siblings lets no walk go on from its first row. -/
theorem yields_beside (apart : model.NamesApart)
    (supported : registry.grammarFor .sqlite = .ok .sqlite) (andSelf : Bool) :
    (QueryStart.related (beside andSelf row)).Yields [] ⟨model, registry, .sqlite⟩ table
      ((table.besideRows row andSelf).map Row.alone) := by
  have fits : ((beside andSelf row).traversal model).Fits model (besideCriterion row andSelf) 0
      (some 0) := by
    cases andSelf <;> exact Traversal.fits_ofModel_of_apart apart _ _ (some 0)
  obtain ⟨expression, compiled⟩ : ∃ expression, compile registry .sqlite model
      ⟨model.tableName, none⟩ ((beside andSelf row).traversal model) = .ok expression :=
    exists_compile fits supported
  have accepted : TreeQuery.checkParameters expression.parameters = .ok () := by
    refine (checkParameters_of_compile fits compiled).mpr
      ⟨accepts_besideCriterion keyed member keyBindable parentBindable andSelf, ?_⟩
    rintro _ ⟨⟩
    rfl
  have built : Setting.related ⟨model, registry, .sqlite⟩ (beside andSelf row) =
      .ok (.ofExpression expression) := bind_eq_ok.mpr ⟨_, rfl, bind_eq_ok.mpr ⟨_, compiled, rfl⟩⟩
  have follows := follows_of_compile fits compiled table
  have range := WalkPlan.inRange_of_limit
    (rfl : (((beside andSelf row).traversal model).plan model table (besideCriterion row andSelf) 0
      (some 0)).limit = some 0) (rfl : fitsInt64 0 = true) (by decide) (by decide) table
  have ended : (((beside andSelf row).traversal model).plan model table
      (besideCriterion row andSelf) 0 (some 0)).walks table 1 = [] :=
    WalkPlan.walks_eq_nil_of_limit rfl (by decide : (0 : Int) < 1) Nat.one_pos
  have found := follows.rows?_eq keyed (follows.stopsWith_of_inRange range) nofun
  rw [WalkPlan.enumeration_eq_of_ends (follows.walks_levels nofun) ended] at found
  refine ⟨_, _, built, rfl, ?_, ?_⟩
  · rwa [TreeQuery.parameters_ofExpression]
  · rw [TreeQuery.rows?_ofExpression, found, WalkPlan.enumeration, List.range_one,
      List.flatMap_singleton, WalkPlan.walks, List.map_map,
      ← filter_besideCriterion keyed member keyBindable parentBindable]
    refine congrArg some (List.map_congr_left fun other listed => ?_)
    exact WalkPlan.storedRow_singleton rfl (keyed.key other (List.mem_filter.mp listed).1)

end Beside

theorem Table.childRows_perm_siblingRows {table : Table} {row : Row} {kind : KeyKind}
    (keyed : table.IsKeyed kind) (member : row ∈ table) :
    (table.childRows row.parent).Perm (row :: table.siblingRows row) := by
  have itself : (table.childRows row.parent).filter (fun other => other.key == row.key) = [row] := by
    have found : table.find? row.key = some row := (Table.find?_iff keyed).mpr ⟨member, rfl⟩
    have alone : List.filter (fun other => other.key == row.key) table = [row] := by
      have single := Table.filter_key_eq keyed row.key
      rw [found] at single
      exact single
    rw [childRows, List.filter_filter, ← alone]
    refine List.filter_congr fun other listed => ?_
    by_cases same : other.key = row.key
    · obtain rfl := keyed.eq_of_key listed member same
      simp
    · simp [same]
  have parts := List.filter_append_perm (fun other => other.key == row.key)
    (table.childRows row.parent)
  rw [itself] at parts
  rw [siblingRows_eq]
  exact parts.symm

open DepthQuery in
/-- What a row's relations show with the row itself. Above and below it, under any limit from one on,
that is the row alone, and behind it what they show without it; a limit that the store does not take
is refused for both, and without a limit they show something iff no cycle can be reached. Its siblings
are shown alone, as is the row among them. Its children and its parent stand one step away from it. -/
theorem rows_and_self {model : TreeModel} {registry : Registry} {table : Table} {row : Row}
    (keyed : table.IsKeyed model.keyKind) (apart : model.NamesApart)
    (supported : registry.grammarFor .sqlite = .ok .sqlite) (member : row ∈ table)
    (keyBindable : row.key.IsBindable) (parentBindable : row.parent.IsBindable) :
    (∀ (direction : Direction) (limit : Option Int), (∀ bound, limit = some bound → 1 ≤ bound) →
      (relatives direction true row).StoreTakes limit →
      (limit = none → ReachesNoCycle table direction row) →
      ∃ rows : List TreeRow,
        (QueryStart.related (relation direction false row limit)).Yields [] ⟨model, registry, .sqlite⟩
          table rows ∧
        (QueryStart.related (relation direction true row limit)).Yields [] ⟨model, registry, .sqlite⟩
          table (row.alone :: rows.map (TreeRow.behind model.separator row))) ∧
    (∀ (direction : Direction) (bound : Int), fitsInt64 (direction.sign * bound) = false →
      ∀ andSelf, (QueryStart.related (relation direction andSelf row (some bound))).IsRefused
        ⟨model, registry, .sqlite⟩ .integerOverflow) ∧
    (∀ (direction : Direction) (andSelf : Bool), ReachesNoCycle table direction row ↔
      ∃ rows : List TreeRow, (QueryStart.related (relation direction andSelf row none)).Yields []
        ⟨model, registry, .sqlite⟩ table rows) ∧
    (∃ siblings together : List TreeRow,
      (QueryStart.related (beside false row)).Yields [] ⟨model, registry, .sqlite⟩ table siblings ∧
      (QueryStart.related (beside true row)).Yields [] ⟨model, registry, .sqlite⟩ table together ∧
      siblings = (table.siblingRows row).map Row.alone ∧
      together.Perm (row.alone :: siblings)) ∧
    (ReachesNoCycle table .down row →
      (QueryStart.childrenAndSelf (.ofRow row)).Yields [] ⟨model, registry, .sqlite⟩ table
        (row.alone :: (table.childRows row.key).map fun child =>
          ⟨child, .int 1, row.key.appendKey model.separator child.key⟩)) ∧
    (ReachesNoCycle table .up row →
      (QueryStart.parentAndSelf (.ofRow row)).Yields [] ⟨model, registry, .sqlite⟩ table
        (row.alone :: (table.find? row.parent).toList.map fun parent =>
          ⟨parent, .int (-1), row.key.appendKey model.separator parent.key⟩)) := by
  refine ⟨fun direction limit farEnough takes finite => ?_, fun direction bound beyond andSelf => ?_,
    fun direction andSelf => ?_, ?_, fun free => ?_, fun free => ?_⟩
  · exact exists_rows_with_self keyed apart supported member keyBindable parentBindable farEnough
      takes finite
  · have asked : (relatives direction andSelf row).IsAsked table :=
      ⟨member, keyBindable, parentBindable⟩
    exact refuses_limit apart supported asked beyond
  · exact reachesNoCycle_iff keyed apart supported member keyBindable parentBindable andSelf
  · have yields := yields_beside keyed member keyBindable parentBindable apart supported
    exact ⟨_, _, yields false, yields true, rfl,
      (Table.childRows_perm_siblingRows keyed member).map Row.alone⟩
  · have children : List.filter (fun other => decide (Direction.down.Joins row other)) table =
        table.childRows row.key :=
      List.filter_congr fun other _ => by
        rw [Bool.eq_iff_iff, decide_eq_true_iff]
        exact eq_comm.trans beq_iff_eq.symm
    rw [← children]
    exact yields_nearbyRows keyed apart supported member keyBindable parentBindable free
  · rw [← Table.filter_key_eq keyed row.parent]
    exact yields_nearbyRows keyed apart supported member keyBindable parentBindable free

open DepthQuery in
/-- The second of three rows in a row. -/
theorem rows_and_self_threeInARow :
    (∃ rows : List TreeRow,
      (QueryStart.related (relation .down false ⟨.int 2, .int 1, .text "two", none⟩ none)).Yields []
        ⟨.standard, .standard, .sqlite⟩ threeInARow rows ∧
      (QueryStart.related (relation .down true ⟨.int 2, .int 1, .text "two", none⟩ none)).Yields []
        ⟨.standard, .standard, .sqlite⟩ threeInARow
        (Row.alone ⟨.int 2, .int 1, .text "two", none⟩ ::
          rows.map (TreeRow.behind "." ⟨.int 2, .int 1, .text "two", none⟩))) ∧
    (QueryStart.related (relation .up true ⟨.int 2, .int 1, .text "two", none⟩
      (some 0x8000000000000001))).IsRefused ⟨.standard, .standard, .sqlite⟩ .integerOverflow ∧
    (QueryStart.parentAndSelf (.ofRow ⟨.int 2, .int 1, .text "two", none⟩)).Yields []
      ⟨.standard, .standard, .sqlite⟩ threeInARow
      [⟨⟨.int 2, .int 1, .text "two", none⟩, .int 0, .text "2"⟩,
        ⟨⟨.int 1, .null, .text "one", none⟩, .int (-1), .text "2.1"⟩] := by
  have keyed : threeInARow.IsKeyed TreeModel.standard.keyKind := isKeyed_threeInARow
  have apart : TreeModel.standard.NamesApart := by decide
  have supported : Registry.standard.grammarFor .sqlite = .ok .sqlite := rfl
  have member : ⟨.int 2, .int 1, .text "two", none⟩ ∈ threeInARow := by simp [threeInARow]
  have free (direction : Direction) : ReachesNoCycle threeInARow direction
      ⟨.int 2, .int 1, .text "two", none⟩ := fun other _ => not_onCycle_threeInARow other
  obtain ⟨further, refused, -, -, -, nearby⟩ :=
    rows_and_self keyed apart supported member rfl rfl
  exact ⟨further .down none (by rintro _ ⟨⟩) (by rintro _ ⟨⟩) fun _ => free .down,
    refused .up 0x8000000000000001 (by decide) true, nearby (free .up)⟩

end AdjacencyForest
