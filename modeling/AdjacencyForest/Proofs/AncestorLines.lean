import AdjacencyForest.Proofs.DepthLimits
import AdjacencyForest.Proofs.PathAnswers

/-!
# Lines of ancestors

The ancestors of a node, with the node or without it, are the end of its path that two limits of depth
leave: the service's own, at which the walk up stops, and that of the request, which only keeps rows
of the answer. In breadth order they come from the top, since depths fall on the way up; in depth
order from the node, since the paths of the walks up are beginnings of each other.

Main statements: `filter_climbs`, what a limit keeps; `isWalk_up_limited_iff`, the walks up from a row
with it or without it; `arranged_climbs_path`, their order by path; `exists_lineRows`, the rows of a
request; `exists_ancestorLines`, its answers.
-/

namespace AdjacencyForest

/-- The end of some items with no more steps than a limit allows; a negative limit allows no item. -/
def endWithin {α : Type} (limit : Option Int) (items : List α) : List α :=
  match limit with
  | none => items
  | some steps => items.rtake (steps + 1).toNat

/-- A line of items that ends with an item, with the item itself or without it. -/
def lineOf {α : Type} (andSelf : Bool) (items : List α) : List α :=
  if andSelf then items else items.dropLast

/-- Whether a limit allows so many steps. -/
def isAllowed (limit : Option Int) (steps : Int) : Bool := limit.all fun bound => decide (steps ≤ bound)

/-- How far away the first item of a line is, seen from the item with which the line ends. -/
def nearestOf : Bool → Nat
  | true => 0
  | false => 1

/-- The relation of a row to all that can be reached from it in a direction. -/
def Direction.kinship : Direction → Kinship
  | .up => .ancestors
  | .down => .descendants

variable {α β : Type} {items : List α} {limit : Option Int} {andSelf : Bool} {rows line walk : List Row}
  {walks : List (List Row)} {table : Table} {row other : Row} {plan : WalkPlan}

theorem map_endWithin (f : α → β) : (endWithin limit items).map f = endWithin limit (items.map f) := by
  cases limit with
  | none => rfl
  | some steps => simp [endWithin, List.rtake, List.map_drop]

theorem map_lineOf (f : α → β) : (lineOf andSelf items).map f = lineOf andSelf (items.map f) := by
  cases andSelf with
  | true => rfl
  | false => exact List.map_dropLast

@[simp] theorem lineOf_concat {last : α} : lineOf false (items ++ [last]) = items :=
  List.dropLast_concat

theorem endWithin_suffix : endWithin limit items <:+ items := by
  cases limit with
  | none => exact List.suffix_rfl
  | some steps => exact List.drop_suffix _ _

theorem dropLast_rtake (count : Nat) :
    (items.rtake count).dropLast = items.dropLast.rtake (count - 1) := by
  cases items using List.reverseRecOn with
  | nil => simp
  | append_singleton before last =>
    cases count with
    | zero => simp
    | succ count => simp

theorem lineOf_suffix_of_suffix {ending : List α} (inside : ending <:+ items) :
    lineOf andSelf ending <:+ lineOf andSelf items := by
  cases andSelf with
  | true => exact inside
  | false =>
    obtain ⟨before, rfl⟩ := inside
    cases ending using List.reverseRecOn with
    | nil => exact List.nil_suffix
    | append_singleton ending last =>
      rw [← List.append_assoc, lineOf_concat, lineOf_concat]
      exact List.suffix_append before ending

theorem lineOf_sublist : (lineOf andSelf items).Sublist items := by
  cases andSelf with
  | true => exact .refl items
  | false => exact List.dropLast_sublist items

theorem lineOf_endWithin_sublist (limit limit' : Option Int) :
    (lineOf andSelf (endWithin limit (endWithin limit' items))).Sublist items :=
  lineOf_sublist.trans (endWithin_suffix.trans endWithin_suffix).sublist

/-! ## Walks up under a limit -/

theorem filter_length_climbs (most : Nat) :
    (climbs rows).filter (fun walk => decide (walk.length ≤ most)) = climbs (rows.rtake most) := by
  induction rows with
  | nil => simp [climbs]
  | cons row rest ih =>
    rw [climbs, List.filter_cons, List.length_reverse, List.length_cons, ih]
    by_cases short : rest.length + 1 ≤ most
    · rw [if_pos (by simpa using short)]
      have whole : (row :: rest).rtake most = row :: rest := by
        rw [List.rtake, List.length_cons, Nat.sub_eq_zero_of_le short, List.drop_zero]
      have more : rest.rtake most = rest := by
        rw [List.rtake, Nat.sub_eq_zero_of_le (by omega), List.drop_zero]
      rw [whole, more, climbs]
    · rw [if_neg (by simpa using short)]
      have less : (row :: rest).rtake most = rest.rtake most := by
        rw [List.rtake, List.length_cons, Nat.succ_sub (by omega), List.drop_succ_cons, List.rtake]
      rw [less]

/-- What a limit keeps of the walks up are the walks up its end of the line. -/
theorem filter_climbs (limit : Option Int) :
    (climbs (lineOf andSelf rows)).filter (fun walk =>
        isAllowed limit (nearestOf andSelf + (walk.length - 1) : Nat)) =
      climbs (lineOf andSelf (endWithin limit rows)) := by
  cases limit with
  | none => exact List.filter_eq_self.mpr fun _ _ => rfl
  | some bound =>
    have kept : lineOf andSelf (endWithin (some bound) rows) =
        (lineOf andSelf rows).rtake ((bound + 1).toNat - nearestOf andSelf) := by
      cases andSelf with
      | true => rfl
      | false => exact dropLast_rtake _
    rw [kept, ← filter_length_climbs]
    refine List.filter_congr fun walk found => ?_
    have positive := List.length_pos_iff.mpr (mem_climbs.mp found).1
    simp only [isAllowed, Option.all_some, decide_eq_decide]
    cases andSelf <;> simp only [nearestOf] <;> omega

/-- The anchor rows of a plan are the last row of a line, if it has one. -/
def WalkPlan.StartsAtEnd (plan : WalkPlan) (table : Table) (line : List Row) : Prop :=
  ∀ other ∈ table, plan.isAnchor other = true ↔ line.getLast? = some other

theorem isWalk_up_iff_mem_climbs (keyed : table.IsKeyed .integer) (up : plan.direction = .up)
    (starts : plan.StartsAtEnd table line) (made : line = [] ∨ (treePlan ".").IsWalk table line) :
    plan.IsWalk table walk ↔ walk ∈ climbs line ∧ plan.Allows (walk.length - 1) := by
  rcases made with rfl | made
  · constructor
    · intro isWalk
      obtain ⟨first, head, anchor⟩ := isWalk.anchored
      cases (starts first (isWalk.members first (List.mem_of_head? head))).mp anchor
    · rintro ⟨found, -⟩
      cases found
  · have unlimited : IsStepLimit none := fun _ given => nomatch given
    have climb := @isWalk_up_iff none walk line table keyed unlimited made
    rw [lastSteps] at climb
    rw [← climb]
    have anchor (first : Row) (member : first ∈ table) : plan.isAnchor first = true ↔
        (linePlan .standard .up (WalkPlan.lastRow line) none).isAnchor first = true := by
      rw [starts first member, made.getLast?_eq, Option.some.injEq]
      simp only [linePlan, beq_iff_eq]
      exact ⟨fun same => congrArg Row.key same.symm,
        fun same => (keyed.eq_of_key member made.lastRow_mem same).symm⟩
    constructor
    · rintro ⟨⟨first, head, isAnchor⟩, members, joined, allowed⟩
      rw [up] at joined
      exact ⟨⟨⟨first, head, (anchor first (members first (List.mem_of_head? head))).mp isAnchor⟩,
        members, joined, WalkPlan.allows_of_unlimited rfl _⟩, allowed⟩
    · rintro ⟨⟨⟨first, head, isAnchor⟩, members, joined, -⟩, allowed⟩
      exact ⟨⟨first, head, (anchor first (members first (List.mem_of_head? head))).mpr isAnchor⟩,
        members, up ▸ joined, allowed⟩

theorem lineOf_isWalk (made : (treePlan ".").IsWalk table walk) (andSelf : Bool) :
    lineOf andSelf walk = [] ∨ (treePlan ".").IsWalk table (lineOf andSelf walk) := by
  cases andSelf with
  | true => exact .inr made
  | false =>
    cases walk using List.reverseRecOn with
    | nil => exact .inl rfl
    | append_singleton before last =>
      rw [lineOf_concat]
      by_cases none : before = []
      · exact .inl none
      · exact .inr ((WalkPlan.isWalk_append_singleton none).mp made).1

/-- The rows above a row start from the row's parent, and from the row itself if it is to be shown. -/
theorem startsAtEnd_relatives (forest : table.IsForest) (stored : table.IsStored)
    (made : (treePlan ".").IsWalk table walk) (andSelf : Bool) :
    (DepthQuery.plan .standard table (.relatives .up andSelf (WalkPlan.lastRow walk))).StartsAtEnd
      table (lineOf andSelf walk) := by
  intro other member
  have linked := forest.isLinked stored made.lastRow_mem
  have own : KeyKind.integer.Admits other.key := forest.keyed.key other member
  have same (above : Row) (found : above ∈ table) :
      other.key = above.key ↔ some above = some other := by
    rw [Option.some.injEq]
    exact ⟨fun key => (forest.keyed.eq_of_key member found key).symm,
      fun same => congrArg Row.key same.symm⟩
  cases andSelf with
  | true =>
    have link : (WalkPlan.lastRow walk).key.IsLink := .inr linked.key
    refine (@TreeRow.satisfies_equals other _ table.parents .key (.inl rfl) (.inr own) link).trans ?_
    rw [lineOf, if_pos rfl, made.getLast?_eq]
    exact same _ made.lastRow_mem
  | false =>
    refine (@TreeRow.satisfies_equals other _ table.parents .key (.inl rfl) (.inr own)
      linked.parent).trans ?_
    cases walk using List.reverseRecOn with
    | nil => exact absurd rfl made.ne_nil
    | append_singleton before last =>
      simp only [lineOf_concat, WalkPlan.lastRow, List.getLast?_concat, Option.getD_some, Row.value]
      by_cases none : before = []
      · subst none
        obtain ⟨root, head, anchor⟩ := made.anchored
        obtain rfl : last = root := by simpa using head
        rw [Value.isNull_iff.mp anchor]
        simpa using KeyKind.not_null_of_admits own
      · obtain ⟨earlier, -, joins, -⟩ := (WalkPlan.isWalk_append_singleton none).mp made
        have parent : (WalkPlan.lastRow before).key = last.parent := joins _ earlier.getLast?_eq
        rw [← parent, earlier.getLast?_eq]
        exact same _ earlier.lastRow_mem

theorem allows_relatives_iff {bound : Int} {steps : Nat} (least : 1 ≤ bound) :
    ((DepthQuery.plan .standard table (.relatives .up andSelf row)).limited (some bound)).Allows steps ↔
      isAllowed (some bound) (nearestOf andSelf + steps : Nat) = true := by
  rw [WalkPlan.allows_limited_iff, isAllowed, Option.all_some, decide_eq_true_iff]
  cases andSelf <;>
    simp only [WalkPlan.room, DepthQuery.plan, DepthQuery.direction, DepthQuery.nearest,
      Direction.sign, nearestOf] <;> omega

/-- The walks up from a row, with it or without it, that a limit of depth allows. -/
theorem isWalk_up_limited_iff (forest : table.IsForest) (stored : table.IsStored)
    (bounds : IsDepthLimit limit) (made : (treePlan ".").IsWalk table line) :
    ((DepthQuery.plan .standard table (.relatives .up andSelf (WalkPlan.lastRow line))).limited
        limit).IsWalk table walk ↔
      walk ∈ climbs (lineOf andSelf (endWithin limit line)) := by
  have starts : WalkPlan.StartsAtEnd ((DepthQuery.plan .standard table
      (.relatives .up andSelf (WalkPlan.lastRow line))).limited limit) table (lineOf andSelf line) :=
    startsAtEnd_relatives forest stored made andSelf
  have climb := @isWalk_up_iff_mem_climbs (lineOf andSelf line) walk table _ forest.keyed rfl starts
    (lineOf_isWalk made andSelf)
  rw [climb, ← filter_climbs, List.mem_filter]
  refine and_congr_right fun _ => ?_
  cases limit with
  | none => exact ⟨fun _ => rfl, fun _ => WalkPlan.allows_of_unlimited rfl _⟩
  | some bound => exact allows_relatives_iff (bounds bound rfl).1

/-! ## Orders -/

theorem pairwise_pathText_climbs {separator : String} (low : IsLowSeparator separator)
    (rows : List Row) :
    (climbs rows).Pairwise fun walk next =>
      Table.pathText separator next < Table.pathText separator walk := by
  induction rows with
  | nil => exact .nil
  | cons row rest ih =>
    refine .cons (fun walk found => ?_) ih
    obtain ⟨nonempty, before, whole⟩ := mem_climbs.mp found
    have longer : (row :: rest).reverse = walk ++ (row :: before).reverse := by
      rw [← whole, ← List.cons_append, List.reverse_append, List.reverse_reverse]
    rw [longer]
    exact Table.pathText_lt_append low nonempty (by simp)

theorem mergeSort_eq_reverse_climbs {separator : String} (low : IsLowSeparator separator)
    (perm : walks.Perm (climbs rows)) :
    (walks.mergeSort fun walk other =>
      decide (Table.pathText separator walk ≤ Table.pathText separator other)) =
      (climbs rows).reverse :=
  mergeSort_eq_of_texts (perm.trans (List.reverse_perm _).symm)
    (List.pairwise_reverse.mpr (pairwise_pathText_climbs low rows))

theorem arranged_climbs_path (low : IsLowSeparator plan.separator) (perm : walks.Perm (climbs rows)) :
    TreeQuery.arranged [⟨.path, false⟩] (walks.map plan.rowOf) =
      ((climbs rows).map plan.rowOf).reverse := by
  rw [← List.map_reverse, ← mergeSort_eq_reverse_climbs low perm]
  refine (List.map_mergeSort fun walk _ other _ => ?_).symm
  exact (TreeQuery.compareRows_path rfl rfl).symm

/-! ## Rows of requests -/

namespace Service

variable {settings : Settings} {query : TreeQuery} {expression : RecursiveExpression}
  {direction : Direction}
  {treeRows : List TreeRow} {order : WalkOrder} {n : Int} {path : List Int}

/-- The rows of an expression that the limit of a request keeps. -/
def narrowed (direction : Direction) (expression : RecursiveExpression) : Option Int → TreeQuery
  | none => .ofExpression expression
  | some bound =>
    (TreeQuery.ofExpression expression).filtered (DepthQuery.depthCriterion bound direction)

theorem recursive_narrowed : (narrowed direction expression limit).expression.isNone = false := by
  cases limit <;> rfl

theorem unsorted_narrowed : (narrowed direction expression limit).orders = [] := by
  cases limit <;> rfl

theorem parameters_narrowed : (narrowed direction expression limit).parameters =
    expression.parameters ++ (limit.toList.map (direction.sign * ·)).map fun i => (.depth, .int i) := by
  cases limit with
  | none => simp [narrowed, TreeQuery.parameters_ofExpression]
  | some bound =>
    cases direction <;> simp [narrowed, TreeQuery.parameters, TreeQuery.filtered,
      TreeQuery.ofExpression, DepthQuery.depthCriterion, Criterion.parameters, Direction.sign]

theorem relationQuery_narrowed
    (built : settings.setting.query ((DepthQuery.relatives direction andSelf row).start
      settings.treeMaxDepth) = .ok (.ofExpression expression)) :
    relationQuery settings direction.kinship ⟨n, andSelf, order, limit⟩ row =
      .ok (narrowed direction expression limit) := by
  have related : settings.setting.related (DepthQuery.relation direction andSelf row
      settings.treeMaxDepth) = .ok (.ofExpression expression) := built
  cases direction <;> refine bind_eq_ok.mpr ⟨_, related, ?_⟩ <;> cases limit <;> rfl

theorem accepts_depths {parameters : List (Field × Json)} {depths : List Int}
    (accepted : TreeQuery.checkParameters parameters = .ok ())
    (fits : ∀ i ∈ depths, fitsInt64 i = true) :
    TreeQuery.checkParameters (parameters ++ depths.map fun i => (.depth, .int i)) = .ok () := by
  rw [TreeQuery.checkParameters_eq_ok] at accepted ⊢
  rw [List.forall_mem_append, List.forall_mem_map]
  exact ⟨accepted, fun i found =>
    ⟨.int i, by simp [Value.ofParameter, Value.ofJson, fits i found]⟩⟩

theorem refuses_depths {parameters : List (Field × Json)} {depths : List Int}
    (accepted : TreeQuery.checkParameters parameters = .ok ())
    (beyond : ¬ ∀ i ∈ depths, fitsInt64 i = true) :
    TreeQuery.checkParameters (parameters ++ depths.map fun i => (.depth, .int i)) =
      .error .integerOverflow := by
  induction depths generalizing parameters with
  | nil => exact absurd (fun _ none => nomatch none) beyond
  | cons i rest ih =>
    rw [List.map_cons, List.append_cons]
    by_cases fits : fitsInt64 i = true
    · refine ih ?_ fun others => beyond (List.forall_mem_cons.mpr ⟨fits, others⟩)
      exact accepts_depths accepted (List.forall_mem_singleton.mpr fits)
    · refine TreeQuery.checkParameters_append_of_error
        (TreeQuery.checkParameters_of_tooLarge accepted ?_) _
      simp [Value.ofParameter, Value.ofJson, fits]

theorem exists_rows?_narrowed {rows : List TreeRow} (found : expression.rows? table = some rows) :
    ∃ kept, (narrowed direction expression limit).rows? table = some kept ∧ kept.Sublist rows := by
  cases limit with
  | none => exact ⟨rows, by rw [narrowed, TreeQuery.rows?_ofExpression, found], .refl rows⟩
  | some bound =>
    exact ⟨_, by rw [narrowed, TreeQuery.rows?_filtered, found, Option.map_some], List.filter_sublist⟩

theorem rows?_narrowed (fits : ∀ bound, limit = some bound → fitsInt64 (-bound) = true)
    (up : plan.direction = .up) (start : plan.start = -(nearestOf andSelf : Int))
    (found : expression.rows? table = some (walks.map plan.rowOf)) :
    (narrowed .up expression limit).rows? table = some ((walks.filter fun walk =>
      isAllowed limit (nearestOf andSelf + (walk.length - 1) : Nat)).map plan.rowOf) := by
  cases limit with
  | none =>
    rw [narrowed, TreeQuery.rows?_ofExpression, found]
    exact congrArg (fun walks => some (List.map plan.rowOf walks))
      (List.filter_eq_self.mpr fun _ _ => rfl).symm
  | some bound =>
    rw [narrowed, TreeQuery.rows?_filtered, found, Option.map_some, List.filter_map]
    refine congrArg (fun walks => some (List.map plan.rowOf walks)) (List.filter_congr fun walk _ => ?_)
    have depth : (plan.rowOf walk).depth = .int (plan.depthAfter (walk.length - 1)) := rfl
    refine (TreeRow.satisfies_depth depth (fits bound rfl) .greaterEqual).trans ?_
    simp only [Comparison.holds, isAllowed, Option.all_some, WalkPlan.depthAfter, up, start]
    rw [Bool.eq_iff_iff, bne_iff_ne, decide_eq_true_iff, Ne, Std.compare_eq_lt, not_lt]
    omega

theorem ClimbsUp.orderedRows_depth (climbsUp : ClimbsUp query table plan rows)
    (low : IsLowSeparator plan.separator) :
    orderedRows table query .depth = .ok ((climbs rows).map plan.rowOf).reverse := by
  obtain ⟨walks, perm, found⟩ := climbsUp.found
  have walked := @walkRows_of_unsorted table _ query .path climbsUp.unsorted climbsUp.accepted found
  have distinct : (((climbs rows).map plan.rowOf).reverse.map
      fun treeRow => treeRow.row.key).Nodup := by
    rw [List.map_reverse, List.nodup_reverse]
    exact climbsUp.distinct_rows
  rw [arranged_climbs_path low perm, shownRows_eq_self distinct] at walked
  exact bind_eq_ok.mpr ⟨_, apply_depthFirst climbsUp.recursive, walked⟩

theorem isAsked_relatives (forest : table.IsForest) (stored : table.IsStored) (member : row ∈ table) :
    (DepthQuery.relatives direction andSelf row).IsAsked table := by
  have linked := forest.isLinked stored member
  obtain ⟨i, key, inside⟩ := linked.key
  exact ⟨member, Value.IsLink.ofJson_eq (.inr ⟨i, key, inside⟩), linked.parent.ofJson_eq⟩

/-- The query of the ancestors of a row, with it or without it, to a depth: its rows are those of the
walks up the end of the row's line that both limits allow. -/
theorem exists_climbsUp (forest : table.IsForest) (stored : table.IsStored)
    (supported : settings.registry.grammarFor .sqlite = .ok .sqlite)
    (bounds : IsDepthLimit settings.treeMaxDepth) (made : (treePlan ".").IsWalk table line)
    (andSelf : Bool) (fits : ∀ bound, limit = some bound → fitsInt64 (-bound) = true) :
    ∃ query, ∃ plan : WalkPlan, plan.direction = .up ∧ plan.separator = "." ∧
      (∀ n order, relationQuery settings .ancestors ⟨n, andSelf, order, limit⟩
        (WalkPlan.lastRow line) = .ok query) ∧
      ClimbsUp query table plan
        (lineOf andSelf (endWithin limit (endWithin settings.treeMaxDepth line))) := by
  have stepBounds : IsStepLimit settings.treeMaxDepth := fun bound given =>
    ⟨Int.le_of_lt (Int.lt_of_lt_of_le Int.one_pos (bounds bound given).1), (bounds bound given).2⟩
  obtain ⟨expression, levels, built, accepted, ended, found⟩ :=
    @DepthQuery.exists_rows .standard settings.registry table _ settings.treeMaxDepth forest.keyed
      (by decide) supported (isAsked_relatives forest stored made.lastRow_mem)
      (fun bound given => ⟨by have := (stepBounds bound given).1; omega, (stepBounds bound given).2⟩)
      fun _ => forest.acyclic
  let plan := (DepthQuery.plan .standard table
    (.relatives .up andSelf (WalkPlan.lastRow line))).limited settings.treeMaxDepth
  have start : plan.start = -(nearestOf andSelf : Int) := by cases andSelf <;> rfl
  have range : plan.InRange table := by
    refine WalkPlan.inRange_of_bounds ?_ stepBounds.fits (avoidsCycles_of_forest forest _) stored.count
    rw [start]
    cases andSelf <;> simp [nearestOf]
  -- Both lists have the walks up within the settings' limit, each once.
  have perm : (plan.enumeration table levels).Perm
      (climbs (lineOf andSelf (endWithin settings.treeMaxDepth line))) :=
    (List.perm_ext_iff_of_nodup (WalkPlan.nodup_enumeration forest.keyed levels)
      (nodup_climbs _)).mpr fun walk =>
        (WalkPlan.mem_enumeration ended).trans (isWalk_up_limited_iff forest stored bounds made)
  have rows : expression.rows? table = some ((plan.enumeration table levels).map plan.rowOf) := by
    rw [found]
    refine congrArg some (List.map_congr_left fun walk made => ?_)
    rw [← WalkPlan.storedRow_limited settings.treeMaxDepth]
    exact range.storedRow_eq ((WalkPlan.mem_enumeration ended).mp made)
  -- The limit of the request cuts the climbs once more.
  have kept := perm.filter fun walk => isAllowed limit (nearestOf andSelf + (walk.length - 1) : Nat)
  rw [filter_climbs] at kept
  have taken : ∀ i ∈ limit.toList.map (Direction.up.sign * ·), fitsInt64 i = true := by
    simpa [Direction.sign] using fits
  have asks (n : Int) (order : WalkOrder) : relationQuery settings Direction.up.kinship
      ⟨n, andSelf, order, limit⟩ (WalkPlan.lastRow line) = .ok (narrowed .up expression limit) :=
    relationQuery_narrowed built
  exact ⟨narrowed .up expression limit, plan, rfl, rfl, asks, {
    recursive := recursive_narrowed
    unsorted := unsorted_narrowed
    accepted := by
      rw [parameters_narrowed]
      exact accepts_depths accepted taken
    found := ⟨_, kept, rows?_narrowed fits rfl start rows⟩
    distinct := (Table.nodup_keys forest.keyed made).sublist
      ((lineOf_endWithin_sublist limit settings.treeMaxDepth).map Row.key) }⟩

/-! ## Answers -/

/-- The ancestors of a node are told as some nodes in breadth order, and as the same nodes the other
way around in depth order. -/
structure TellsAncestors (settings : Settings) (table : Table) (n : Int) (includeSelf : Bool)
    (limit : Option Int) (nodes : List Json) : Prop where
  breadth : ∀ request key, request.Asks .ancestors key → request.body.isSendable = true →
    WalkRequest.ofRequest request key .breadth = .ok ⟨n, includeSelf, .breadth, limit⟩ →
    respond settings table request = (table, .ok (.json (.arr nodes)))
  depth : ∀ request key, request.Asks .ancestors key → request.body.isSendable = true →
    WalkRequest.ofRequest request key .breadth = .ok ⟨n, includeSelf, .depth, limit⟩ →
    respond settings table request = (table, .ok (.json (.arr nodes.reverse)))

/-- What a limit of a request may be: an integer whose opposite the store takes, as it takes the
integer itself. -/
def IsRequestLimit (limit : Option Int) : Prop :=
  ∀ bound, limit = some bound → -0x8000000000000000 < bound ∧ bound < 0x8000000000000000

theorem IsRequestLimit.fits (bounds : IsRequestLimit limit) (bound : Int) (given : limit = some bound) :
    fitsInt64 (-bound) = true := by
  obtain ⟨least, most⟩ := bounds bound given
  simp only [fitsInt64_iff]
  omega

theorem respond_ancestors {nodes : List Json} {request : Request} {key : String}
    (asks : request.Asks .ancestors key) (sendable : request.body.isSendable = true)
    (read : WalkRequest.ofRequest request key .breadth = .ok ⟨n, andSelf, order, limit⟩)
    (found : nodeOfKey table n = .ok row)
    (asked : relationQuery settings .ancestors ⟨n, andSelf, order, limit⟩ row = .ok query)
    (ordered : orderedRows table query order = .ok treeRows)
    (answered : answerWalk treeRows = .ok (.json (.arr nodes))) :
    respond settings table request = (table, .ok (.json (.arr nodes))) := by
  refine respond_of_perform asks sendable (reading_eq_ok ?_)
  exact bind_eq_ok.mpr ⟨_, orInvalid_eq_ok.mpr read, bind_eq_ok.mpr ⟨row, found, bind_eq_ok.mpr
    ⟨treeRows, orFault_eq_ok.mpr (bind_eq_ok.mpr ⟨query, asked, ordered⟩), answered⟩⟩⟩

theorem isShowable_climb (presentable : ∀ row ∈ table, IsPresentable row)
    (members : ∀ row ∈ rows, row ∈ table) :
    ∀ treeRow ∈ (climbs rows).map plan.rowOf, IsShowable treeRow := by
  intro treeRow found
  obtain ⟨walk, climb, rfl⟩ := List.mem_map.mp found
  obtain ⟨nonempty, inside⟩ := mem_climbs.mp climb
  refine ⟨presentable _ (members _ (inside.subset (List.mem_reverse.mpr ?_))), ⟨_, rfl⟩, ⟨_, rfl⟩⟩
  show walk.getLast?.getD default ∈ walk
  rw [List.getLast?_eq_some_getLast nonempty, Option.getD_some]
  exact List.getLast_mem nonempty

theorem answerWalk_reverse {views : List TreeNodeView}
    (shown : treeRows.map viewTreeRow = views.map .ok) :
    answerWalk treeRows.reverse = .ok (.json (.arr (views.map TreeNodeView.toJson).reverse)) := by
  rw [← List.map_reverse]
  refine answerWalk_of_map ?_
  rw [List.map_reverse, shown, List.map_reverse]

theorem exists_tellsAncestors (forest : table.IsForest) (stored : table.IsStored)
    (presentable : ∀ row ∈ table, IsPresentable row) (member : row ∈ table) (rowKey : row.key = .int n)
    (leads : table.IsRootPath n path)
    (supported : settings.registry.grammarFor .sqlite = .ok .sqlite)
    (bounds : IsDepthLimit settings.treeMaxDepth) (includeSelf : Bool) (takes : IsRequestLimit limit) :
    ∃ nodes, TellsAncestors settings table n includeSelf limit nodes ∧
      nodes.map (Json.integer? "id") =
        (lineOf includeSelf (endWithin limit (endWithin settings.treeMaxDepth path))).map some := by
  obtain ⟨line, made, rfl, keys⟩ := leads.exists_walk forest member rowKey "."
  have found := nodeOfKey_of_mem forest stored member rowKey
  obtain ⟨query, plan, up, separator, asked, climbsUp⟩ :=
    exists_climbsUp forest stored supported bounds made includeSelf takes.fits
  have low : IsLowSeparator plan.separator := separator ▸ ⟨'.', rfl, by decide⟩
  have inside : ∀ row ∈ lineOf includeSelf (endWithin limit (endWithin settings.treeMaxDepth line)),
      row ∈ table := fun row found =>
    made.members row ((lineOf_endWithin_sublist limit settings.treeMaxDepth).subset found)
  obtain ⟨views, shown, shows⟩ := exists_treeViews (@isShowable_climb _ _ plan presentable inside)
  refine ⟨views.map TreeNodeView.toJson, ⟨fun request key asks sendable read => ?_,
    fun request key asks sendable read => ?_⟩, ?_⟩
  · exact respond_ancestors asks sendable read found (asked n .breadth)
      (climbsUp.orderedRows_breadth up) (answerWalk_of_map shown)
  · exact respond_ancestors asks sendable read found (asked n .depth)
      (climbsUp.orderedRows_depth low) (answerWalk_reverse shown)
  · have ids := ids_of_shows shows
    rw [ids_views, map_key_climbs, map_lineOf, map_endWithin, map_endWithin, ← keys, ← map_endWithin,
      ← map_endWithin, ← map_lineOf] at ids
    rw [← List.map_injective_iff.mpr int_injective ids, List.map_map, List.map_map]
    rfl

theorem endWithin_of_negative {bound : Int} (negative : bound < 0) :
    endWithin (some bound) items = [] := by
  have none : (bound + 1).toNat = 0 := by omega
  rw [endWithin, none, List.rtake_zero]

def lineUpToFour (order : String) : Request where
  method := "GET"
  path := "/api/nodes/4/ancestors"
  parameters := [("include_self", ["true"]), ("order", [order]), ("max_depth", ["1"])]

end Service

end AdjacencyForest
