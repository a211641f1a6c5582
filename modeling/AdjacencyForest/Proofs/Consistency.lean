import AdjacencyForest.Proofs.Editing
import AdjacencyForest.Proofs.Relatives

/-!
# The answers about one forest agree

Children, descendants, ancestors, siblings, roots, leaves and the deletion of a node are answered in
ways that have little in common: by filters on links, by the values that are nobody's parent, by
walks up and down, by a count. On a forest each answer lists rows that the table determines, so the
answers fit together.

Main statements: `answerChildren_lists`, `answerScope_lists` and `exists_answerRelatives`, what the
answers list; `exists_consistent_readings`, how they fit together.
-/

namespace AdjacencyForest.Service

variable {settings : Settings} {table : Table} {request : Request} {row other : Row}
  {rows : List Row} {answer : Answer} {key : String} {n m : Int}

/-! ## What an answer lists -/

/-- The answer shows the keys of the rows, in any order. -/
def Answer.Lists (answer : Answer) (rows : List Row) : Prop :=
  (answer.ids.map Value.int).Perm (rows.map Row.key)

theorem int_injective : Function.Injective Value.int := fun _ _ => Value.int.inj

namespace Answer.Lists

theorem mem_ids_iff (lists : answer.Lists rows) : n ∈ answer.ids ↔ ∃ row ∈ rows, row.key = .int n := by
  rw [← List.mem_map, ← lists.mem_iff, List.mem_map_of_injective int_injective]

theorem ids_eq_nil_iff (lists : answer.Lists rows) : answer.ids = [] ↔ rows = [] := by
  rw [← List.length_eq_zero_iff, ← List.length_eq_zero_iff]
  simpa using congrArg (· = 0) lists.length_eq

theorem perm {other : Answer} (lists : answer.Lists rows) (otherLists : other.Lists rows) :
    answer.ids.Perm other.ids :=
  (List.map_perm_map_iff int_injective).mp (lists.trans otherLists.symm)

/-- Without one key an answer lists the rows without that key. -/
theorem perm_filter {other : Answer} (lists : answer.Lists rows)
    (otherLists : other.Lists (rows.filter fun row => row.key != .int n)) :
    other.ids.Perm (answer.ids.filter fun i => i != n) := by
  refine (List.map_perm_map_iff int_injective).mp (otherLists.trans ?_)
  have keys : (rows.filter fun row => row.key != .int n).map Row.key =
      (rows.map Row.key).filter fun key => key != .int n := by
    rw [List.filter_map]
    rfl
  have ids : (answer.ids.filter fun i => i != n).map Value.int =
      (answer.ids.map Value.int).filter fun key => key != .int n := by
    rw [List.filter_map]
    refine congrArg _ (List.filter_congr fun i _ => ?_)
    simp [bne, BEq.beq]
  rw [keys, ids]
  exact (lists.filter _).symm

end Answer.Lists

theorem exists_answerNodes (presentable : ∀ row ∈ table, IsPresentable row)
    (inside : ∀ row ∈ rows, row ∈ table) :
    ∃ answer, answerNodes rows = .ok answer ∧ answer.Lists rows := by
  obtain ⟨answer, answered, ids⟩ :=
    answerNodes_eq_ok fun row member => presentable row (inside row member)
  exact ⟨answer, answered, .of_eq ids⟩

/-! ## Filters on links -/

theorem childrenOf_eq_ok (keyed : table.IsKeyed .integer) (fits : fitsInt64 n = true) :
    childrenOf table n = .ok (table.childRows (.int n)) := by
  refine bind_eq_ok.mpr ⟨.int n, bindInteger_eq_ok.mpr ⟨fits, rfl⟩, ?_⟩
  refine congrArg Except.ok (List.filter_congr fun other member => ?_)
  rw [Bool.eq_iff_iff, beq_iff_eq, eq_comm (a := other.parent)]
  exact KeyKind.equals_comm (KeyKind.admits_integer_iff.mpr ⟨n, rfl⟩) (keyed.parent other member)

theorem answerChildren_lists (keyed : table.IsKeyed .integer)
    (presentable : ∀ row ∈ table, IsPresentable row) (fits : fitsInt64 n = true) :
    ∃ answer, (∀ key, pathKey key = .ok n → answerChildren table key = .ok answer) ∧
      answer.Lists (table.childRows (.int n)) := by
  have arranged : (byKey (table.childRows (.int n))).Perm (table.childRows (.int n)) :=
    List.mergeSort_perm _ _
  obtain ⟨answer, answered, lists⟩ := exists_answerNodes presentable fun row member =>
    (Table.mem_childRows.mp (arranged.subset member)).1
  refine ⟨answer, fun key address => ?_, lists.trans (arranged.map _)⟩
  exact bind_eq_ok.mpr ⟨n, orInvalid_eq_ok.mpr address, bind_eq_ok.mpr
    ⟨_, orFault_eq_ok.mpr (childrenOf_eq_ok keyed fits), answered⟩⟩

theorem answerScope_lists {scope : Scope} {criterion : Criterion} {selects : Row → Bool}
    (presentable : ∀ row ∈ table, IsPresentable row)
    (applied : (TreeQuery.ofModel .standard true).apply scope =
      .ok ((TreeQuery.ofModel .standard true).filtered criterion))
    (free : criterion.parameters = [])
    (meaning : ∀ row ∈ table,
      ((TreeRow.ofRow row).reading .standard table.parents).satisfies criterion = selects row) :
    ∃ answer, answerScope table scope = .ok answer ∧
      answer.Lists (List.filter selects table) := by
  let query := ((TreeQuery.ofModel .standard true).filtered criterion).sorted (.column .key) false
  have built : (TreeQuery.ofModel .standard true).applyAll [scope, .orderBy "id" false] =
      .ok query := by
    refine bind_eq_ok.mpr ⟨_, applied, bind_eq_ok.mpr ⟨query, ?_, rfl⟩⟩
    rfl
  have accepted : TreeQuery.checkParameters query.parameters = .ok () := by
    have none : query.parameters = [] := by
      simp [query, TreeQuery.parameters, TreeQuery.sorted, TreeQuery.filtered, TreeQuery.ofModel,
        free]
    rw [none]
    rfl
  have matching : query.matching table (table.map TreeRow.ofRow) =
      (List.filter selects table).map TreeRow.ofRow := by
    unfold TreeQuery.matching
    rw [List.filter_map]
    refine congrArg _ (List.filter_congr fun row member => ?_)
    simp [query, TreeQuery.matchesRow, TreeQuery.sorted, TreeQuery.filtered, TreeQuery.ofModel,
      meaning row member]
  have found : queryRows query table =
      .ok (TreeQuery.arranged query.orders ((List.filter selects table).map TreeRow.ofRow)) :=
    queryRows_eq_ok.mpr ⟨accepted, by rw [← matching]; rfl⟩
  have arranged := (TreeQuery.arranged_perm query.orders
    ((List.filter selects table).map TreeRow.ofRow)).map TreeRow.row
  rw [List.map_map] at arranged
  have same : (List.filter selects table).map (TreeRow.row ∘ TreeRow.ofRow) =
      List.filter selects table := List.map_id _
  rw [same] at arranged
  obtain ⟨answer, answered, lists⟩ := exists_answerNodes presentable fun row member =>
    (List.mem_filter.mp (arranged.subset member)).1
  refine ⟨answer, bind_eq_ok.mpr ⟨_, orFault_eq_ok.mpr (bind_eq_ok.mpr ⟨_, built, found⟩),
    answered⟩, ?_⟩
  exact lists.trans (arranged.map _)

theorem answerRoots_lists (presentable : ∀ row ∈ table, IsPresentable row) :
    ∃ answer, answerScope table .isRoot = .ok answer ∧ answer.Lists (table.childRows .null) := by
  refine answerScope_lists presentable rfl rfl fun row _ => ?_
  rw [Bool.eq_iff_iff]
  simp [Reading.satisfies, Reading.truth, TreeRow.reading, TreeRow.value, TreeRow.ofRow, Row.value,
    Value.isNull_iff]

theorem satisfies_isNoParent (keyed : table.IsKeyed .integer) (member : row ∈ table) :
    ((TreeRow.ofRow row).reading .standard table.parents).satisfies
      (.isNoParent (.column .key)) = true ↔ table.childRows row.key = [] := by
  rw [TreeRow.satisfies_isNoParent keyed member, Table.childRows, List.filter_eq_nil_iff]
  simp [TreeRow.ofRow]

theorem answerLeaves_lists (keyed : table.IsKeyed .integer)
    (presentable : ∀ row ∈ table, IsPresentable row) :
    ∃ answer, answerScope table .isLeaf = .ok answer ∧
      answer.Lists (List.filter (fun row => (table.childRows row.key).isEmpty) table) := by
  refine answerScope_lists presentable rfl rfl fun row member => ?_
  rw [Bool.eq_iff_iff, satisfies_isNoParent keyed member, List.isEmpty_iff]

/-! ## Walks -/

theorem isShowable_rowOf (presentable : ∀ row ∈ table, IsPresentable row) {plan : WalkPlan}
    {walk : List Row} (made : plan.IsWalk table walk) : IsShowable (plan.rowOf walk) :=
  ⟨presentable _ made.lastRow_mem, ⟨_, rfl⟩, ⟨_, rfl⟩⟩

/-- The answer to a relation of a row: it shows the rows that the walks reach and, if none is reached
twice, each at the depth of its walk. -/
theorem exists_answerRelatives {kinship : Kinship} {limit : Option Int} (forest : table.IsForest)
    (stored : table.IsStored) (presentable : ∀ row ∈ table, IsPresentable row)
    (bounds : IsDepthLimit limit) (supported : settings.registry.grammarFor .sqlite = .ok .sqlite)
    (proper : kinship ≠ .bare) (member : row ∈ table) (order : WalkOrder) :
    ∃ query shown answer, settings.setting.related (kin kinship row limit) = .ok query ∧
      orderedRows table query order = .ok shown ∧ answerWalk shown = .ok answer ∧
      ∃ walks : List (List Row), walks.Nodup ∧
        (∀ walk, walk ∈ walks ↔ (kinPlan kinship row limit).IsWalk table walk) ∧
        answer.Lists (walks.map WalkPlan.lastRow) ∧
        ((walks.map WalkPlan.lastRow).Nodup → ∀ depth,
          ((answer.idsAtDepth depth).map Value.int).Perm
            (((walks.filter fun walk =>
              (kinPlan kinship row limit).depthAfter (walk.length - 1) == depth).map
                WalkPlan.lastRow).map Row.key)) := by
  obtain ⟨expression, built, accepted, walks, nodup, mem_walks, found⟩ :=
    exists_relatives forest stored bounds supported proper member
  obtain ⟨shown, ordered, members, keys, same⟩ := exists_orderedRows order accepted found
  have showable : ∀ treeRow ∈ shown, IsShowable treeRow := by
    intro treeRow shownMember
    obtain ⟨walk, walkMember, rfl⟩ := List.mem_map.mp (members treeRow shownMember)
    exact isShowable_rowOf presentable ((mem_walks walk).mp walkMember)
  obtain ⟨answer, answered, ids, depths⟩ := answerWalk_eq_ok showable
  have reached : ∀ walks : List (List Row),
      (walks.map (kinPlan kinship row limit).rowOf).map (fun treeRow => treeRow.row.key) =
        (walks.map WalkPlan.lastRow).map Row.key := by
    intro walks
    rw [List.map_map, List.map_map]
    rfl
  refine ⟨_, shown, answer, built, ordered, answered, walks, nodup, mem_walks, ?_,
    fun once depth => ?_⟩
  · rw [Answer.Lists, ids, ← reached]
    exact keys
  · have distinct : ((walks.map (kinPlan kinship row limit).rowOf).map fun treeRow =>
        treeRow.row.key).Nodup := by
      rw [List.map_map]
      exact WalkPlan.nodup_lastKeys forest.keyed
        (fun walk found => ((mem_walks walk).mp found).lastRow_mem) once
    have atDepth := ((same distinct).filter fun treeRow =>
      treeRow.depth == .int depth).map fun treeRow => treeRow.row.key
    rw [List.filter_map, reached] at atDepth
    rw [depths]
    refine atDepth.trans (.of_eq ?_)
    refine congrArg (fun walks => (List.map WalkPlan.lastRow walks).map Row.key) ?_
    refine List.filter_congr fun walk _ => ?_
    simp [WalkPlan.rowOf]

theorem nodeOfKey_of_mem (forest : table.IsForest) (stored : table.IsStored) (member : row ∈ table)
    (rowKey : row.key = .int n) : nodeOfKey table n = .ok row :=
  nodeOfKey_eq_ok.mpr ⟨stored.keys row member n rowKey,
    (Table.find?_iff forest.keyed).mpr ⟨member, rowKey⟩⟩

/-- A request for an action that says nothing but its address. -/
structure Request.AsksPlainly (request : Request) (action : Action) (key : String) : Prop where
  asks : request.Asks action key
  sendable : request.body.isSendable = true
  parameters : request.parameters = []

theorem Request.parameter_of_none {α : Type} (plain : request.parameters = []) (name : String)
    (value : α) (check : Json → Check α) : request.parameter name (.ok value) check = .ok value := by
  unfold Request.parameter Request.parameter?
  rw [plain]
  rfl

theorem WalkRequest.ofRequest_plain (plain : request.parameters = []) (address : pathKey key = .ok n)
    (order : WalkOrder) : WalkRequest.ofRequest request key order = .ok ⟨n, false, order, none⟩ := by
  unfold WalkRequest.ofRequest
  simp only [Request.parameter_of_none plain, address]
  rfl

theorem reading_eq_ok {outcome : Outcome Answer} (answered : outcome = .ok answer) :
    reading table outcome = .ok (table, answer) := by
  rw [answered]
  rfl

theorem respond_of_perform {action : Action} (asked : request.Asks action key)
    (sendable : request.body.isSendable = true)
    (performed : perform settings table request key action = .ok (table, answer)) :
    respond settings table request = (table, .ok answer) := by
  rw [respond, outcome_of_asks sendable asked, performed]

/-- The answer to a plain request about the node of a key. -/
def Tells (settings : Settings) (table : Table) (action : Action) (n : Int) (answer : Answer) :
    Prop :=
  ∀ request key, request.AsksPlainly action key → pathKey key = .ok n →
    respond settings table request = (table, .ok answer)

section Node

variable (forest : table.IsForest) (stored : table.IsStored)
  (presentable : ∀ row ∈ table, IsPresentable row)
  (supported : settings.registry.grammarFor .sqlite = .ok .sqlite)
  (bounds : IsDepthLimit settings.treeMaxDepth) (member : row ∈ table) (rowKey : row.key = .int n)

include forest stored presentable member rowKey

theorem exists_children (settings : Settings) :
    ∃ answer, Tells settings table .children n answer ∧ answer.Lists (table.childRows row.key) := by
  obtain ⟨answer, answered, lists⟩ :=
    answerChildren_lists forest.keyed presentable (stored.keys row member n rowKey)
  refine ⟨answer, fun request key plain address => ?_, rowKey ▸ lists⟩
  exact respond_of_perform plain.asks plain.sendable (reading_eq_ok (answered key address))

include supported

theorem exists_siblings :
    ∃ answer, Tells settings table .siblings n answer ∧ answer.Lists (table.siblingRows row) := by
  have unlimited : IsDepthLimit none := fun bound given => absurd given.symm (Option.some_ne_none _)
  obtain ⟨query, shown, answer, built, ordered, answered, walks, nodup, mem_walks, lists, -⟩ :=
    exists_answerRelatives forest stored presentable unlimited supported
      (show Kinship.siblings ≠ .bare by decide) member .depth
  refine ⟨answer, fun request key plain address => ?_, lists.trans (List.Perm.map _ ?_)⟩
  · refine respond_of_perform plain.asks plain.sendable (reading_eq_ok ?_)
    refine bind_eq_ok.mpr ⟨(n, false), orInvalid_eq_ok.mpr ?_, bind_eq_ok.mpr
      ⟨row, nodeOfKey_of_mem forest stored member rowKey, bind_eq_ok.mpr ⟨shown, ?_, answered⟩⟩⟩
    · rw [address, Request.parameter_of_none plain.parameters]
      rfl
    · exact orFault_eq_ok.mpr (bind_eq_ok.mpr ⟨query, built, ordered⟩)
  · -- No walk goes on from a sibling, so all walks have one row.
    have single : ∀ walk ∈ walks, walk.length = 1 := by
      intro walk found
      have made := (mem_walks walk).mp found
      have positive := made.length_pos
      rcases made.allowed with none | allowed
      · omega
      · have within : (0 : Int) + ((walk.length - 1 : Nat) : Int) ≤ 0 := allowed 0 rfl
        omega
    have whole : walks.filter (fun walk => walk.length == 1) = walks :=
      List.filter_eq_self.mpr fun walk found => by simpa using single walk found
    have anchors := perm_anchors forest.keyed nodup mem_walks
    rwa [whole] at anchors

include bounds

theorem exists_answerRelation {kinship : Kinship} (proper : kinship ≠ .bare) (order : WalkOrder) :
    ∃ answer, answerRelation settings table kinship ⟨n, false, order, none⟩ = .ok answer ∧
      ∃ walks : List (List Row), walks.Nodup ∧
        (∀ walk, walk ∈ walks ↔
          (kinPlan kinship row settings.treeMaxDepth).IsWalk table walk) ∧
        answer.Lists (walks.map WalkPlan.lastRow) ∧
        ((walks.map WalkPlan.lastRow).Nodup → ∀ depth,
          ((answer.idsAtDepth depth).map Value.int).Perm
            (((walks.filter fun walk =>
              (kinPlan kinship row settings.treeMaxDepth).depthAfter (walk.length - 1) == depth).map
                WalkPlan.lastRow).map Row.key)) := by
  obtain ⟨query, shown, answer, built, ordered, answered, walks, facts⟩ :=
    exists_answerRelatives forest stored presentable bounds supported proper member order
  refine ⟨answer, bind_eq_ok.mpr ⟨row, nodeOfKey_of_mem forest stored member rowKey, bind_eq_ok.mpr
    ⟨shown, orFault_eq_ok.mpr (bind_eq_ok.mpr ⟨query, ?_, ordered⟩), answered⟩⟩, walks, facts⟩
  exact bind_eq_ok.mpr ⟨query, built, rfl⟩

theorem exists_descendants :
    ∃ answer, Tells settings table .descendants n answer ∧
      ((answer.idsAtDepth 1).map Value.int).Perm ((table.childRows row.key).map Row.key) ∧
      (answer.ids = [] ↔ table.childRows row.key = []) := by
  obtain ⟨answer, answered, walks, nodup, mem_walks, lists, depths⟩ :=
    exists_answerRelation forest stored presentable supported bounds member rowKey
      (show Kinship.descendants ≠ .bare by decide) .depth
  refine ⟨answer, fun request key plain address => ?_, ?_, ?_⟩
  · refine respond_of_perform plain.asks plain.sendable (reading_eq_ok ?_)
    exact bind_eq_ok.mpr
      ⟨_, orInvalid_eq_ok.mpr (WalkRequest.ofRequest_plain plain.parameters address _), answered⟩
  · have once : (walks.map WalkPlan.lastRow).Nodup :=
      nodup_lastRows_below forest rfl (fun other _ anchor => eq_of_beq anchor) member nodup
        fun walk => (mem_walks walk).mp
    have first : walks.filter (fun walk =>
        (kinPlan .descendants row settings.treeMaxDepth).depthAfter (walk.length - 1) == 1) =
        walks.filter fun walk => walk.length == 1 := by
      refine List.filter_congr fun walk found => ?_
      have positive := ((mem_walks walk).mp found).length_pos
      have depth : (kinPlan .descendants row settings.treeMaxDepth).depthAfter (walk.length - 1) =
          1 + ((walk.length - 1 : Nat) : Int) := rfl
      rw [depth, Bool.eq_iff_iff, beq_iff_eq, beq_iff_eq]
      omega
    have anchors := (perm_anchors forest.keyed nodup mem_walks).map Row.key
    rw [← first] at anchors
    exact (depths once 1).trans anchors
  · rw [lists.ids_eq_nil_iff, List.map_eq_nil_iff, walks_eq_nil_iff mem_walks]
    simp [Table.childRows, kinPlan, Kinship.startsFrom]

theorem exists_ancestors :
    ∃ answer, Tells settings table .ancestors n answer ∧
      (answer.ids = [] ↔ row.parent = .null) := by
  obtain ⟨answer, answered, walks, nodup, mem_walks, lists, -⟩ :=
    exists_answerRelation forest stored presentable supported bounds member rowKey
      (show Kinship.ancestors ≠ .bare by decide) .breadth
  refine ⟨answer, fun request key plain address => ?_, ?_⟩
  · refine respond_of_perform plain.asks plain.sendable (reading_eq_ok ?_)
    exact bind_eq_ok.mpr
      ⟨_, orInvalid_eq_ok.mpr (WalkRequest.ofRequest_plain plain.parameters address _), answered⟩
  · rw [lists.ids_eq_nil_iff, List.map_eq_nil_iff, walks_eq_nil_iff mem_walks]
    have absent : (∀ other ∈ table, (kinPlan .ancestors row settings.treeMaxDepth).isAnchor other =
        false) ↔ table.contains row.parent = false := by
      simp [Table.contains_eq_false_iff, kinPlan, Kinship.startsFrom]
    rw [absent]
    constructor
    · intro missing
      by_contra given
      rw [forest.parents row member given] at missing
      cases missing
    · rintro root
      rw [root, Table.contains_eq_false_iff]
      exact fun other found => KeyKind.not_null_of_admits (forest.keyed.key other found)

end Node

/-! ## Deletion -/

theorem answerDelete_cases (forest : table.IsForest) (stored : table.IsStored)
    (member : row ∈ table) (rowKey : row.key = .int n) (address : pathKey key = .ok n) :
    (table.childRows row.key ≠ [] ∧
        ∃ message, answerDelete table key = .error (.status 400 message)) ∨
      (table.childRows row.key = [] ∧ ∃ edit, answerDelete table key = .ok edit) := by
  have address : orInvalid (pathKey key) = .ok n := orInvalid_eq_ok.mpr address
  have found := nodeOfKey_of_mem forest stored member rowKey
  have children : orFault (childrenOf table n) = .ok (table.childRows row.key) :=
    orFault_eq_ok.mpr (rowKey ▸ childrenOf_eq_ok forest.keyed (stored.keys row member n rowKey))
  unfold answerDelete
  simp only [address, found, children, bind, Except.bind]
  cases table.childRows row.key with
  | nil => exact .inr ⟨rfl, _, rfl⟩
  | cons child rest => exact .inl ⟨List.cons_ne_nil child rest, _, rfl⟩

/-- A node is deleted iff it has no children; else that is refused with a status. -/
theorem respond_deleteNode (settings : Settings) (forest : table.IsForest) (stored : table.IsStored)
    (member : row ∈ table) (rowKey : row.key = .int n) (asked : request.Asks .deleteNode key)
    (sendable : request.body.isSendable = true) (address : pathKey key = .ok n) :
    ((∃ message, (respond settings table request).2 = .error (.status 400 message)) ↔
        table.childRows row.key ≠ []) ∧
      ((∃ answer, (respond settings table request).2 = .ok answer) ↔
        table.childRows row.key = []) := by
  have performed : outcome settings table request = answerDelete table key :=
    outcome_of_asks sendable asked
  rcases answerDelete_cases forest stored member rowKey address with
    ⟨some, message, refused⟩ | ⟨none, edit, deleted⟩
  · simp [respond, performed, refused, some]
  · simp [respond, performed, deleted, none]

/-! ## All answers together -/

/-- The answers about a table: those about the node of a key, and those about all nodes. -/
structure Readings where
  children : Int → Answer
  descendants : Int → Answer
  ancestors : Int → Answer
  siblings : Int → Answer
  roots : Answer
  leaves : Answer

/-- The readings are what plain requests are answered. -/
structure Readings.AreTold (readings : Readings) (settings : Settings) (table : Table) : Prop where
  children : ∀ n, table.contains (.int n) = true →
    Tells settings table .children n (readings.children n)
  descendants : ∀ n, table.contains (.int n) = true →
    Tells settings table .descendants n (readings.descendants n)
  ancestors : ∀ n, table.contains (.int n) = true →
    Tells settings table .ancestors n (readings.ancestors n)
  siblings : ∀ n, table.contains (.int n) = true →
    Tells settings table .siblings n (readings.siblings n)
  roots : ∀ request key, request.AsksPlainly .roots key →
    respond settings table request = (table, .ok readings.roots)
  leaves : ∀ request key, request.AsksPlainly .leaves key →
    respond settings table request = (table, .ok readings.leaves)

/-- What the readings list of the table. -/
structure Readings.Fit (readings : Readings) (table : Table) : Prop where
  children : ∀ row ∈ table, ∀ n, row.key = .int n →
    (readings.children n).Lists (table.childRows row.key)
  depthOne : ∀ row ∈ table, ∀ n, row.key = .int n →
    (((readings.descendants n).idsAtDepth 1).map Value.int).Perm
      ((table.childRows row.key).map Row.key)
  descendants : ∀ row ∈ table, ∀ n, row.key = .int n →
    ((readings.descendants n).ids = [] ↔ table.childRows row.key = [])
  ancestors : ∀ row ∈ table, ∀ n, row.key = .int n →
    ((readings.ancestors n).ids = [] ↔ row.parent = .null)
  siblings : ∀ row ∈ table, ∀ n, row.key = .int n →
    (readings.siblings n).Lists (table.siblingRows row)
  roots : readings.roots.Lists (table.childRows .null)
  leaves : readings.leaves.Lists
    (List.filter (fun row => (table.childRows row.key).isEmpty) table)

instance : Inhabited Answer := ⟨.json .null⟩

/-- Something is found for each key of a table if it is for each row. -/
theorem exists_forKeys {α : Type} [Inhabited α] {property : Int → Row → α → Prop}
    (keyed : table.IsKeyed .integer)
    (each : ∀ row ∈ table, ∀ n, row.key = .int n → ∃ a, property n row a) :
    ∃ found : Int → α, ∀ row ∈ table, ∀ n, row.key = .int n → property n row (found n) := by
  have some (n : Int) : ∃ a, ∀ row ∈ table, row.key = .int n → property n row a := by
    by_cases present : ∃ row ∈ table, row.key = .int n
    · obtain ⟨row, member, rowKey⟩ := present
      obtain ⟨a, holds⟩ := each row member n rowKey
      refine ⟨a, fun other otherMember otherKey => ?_⟩
      rwa [keyed.eq_of_key otherMember member (otherKey.trans rowKey.symm)]
    · exact ⟨default, fun row member rowKey => absurd ⟨row, member, rowKey⟩ present⟩
  choose found holds using some
  exact ⟨found, fun row member n rowKey => holds n row member rowKey⟩

theorem forKeys_of_rows {property : Int → Prop}
    (each : ∀ row ∈ table, ∀ n, row.key = .int n → property n) (n : Int)
    (present : table.contains (.int n) = true) : property n := by
  obtain ⟨row, member, rowKey⟩ := Table.contains_iff.mp present
  exact each row member n rowKey

theorem exists_readings (forest : table.IsForest) (stored : table.IsStored)
    (presentable : ∀ row ∈ table, IsPresentable row)
    (supported : settings.registry.grammarFor .sqlite = .ok .sqlite)
    (bounds : IsDepthLimit settings.treeMaxDepth) :
    ∃ readings : Readings, readings.AreTold settings table ∧ readings.Fit table := by
  obtain ⟨children, ofChildren⟩ := exists_forKeys forest.keyed fun row member n rowKey =>
    exists_children forest stored presentable member rowKey settings
  obtain ⟨descendants, ofDescendants⟩ := exists_forKeys forest.keyed fun row member n rowKey =>
    exists_descendants forest stored presentable supported bounds member rowKey
  obtain ⟨ancestors, ofAncestors⟩ := exists_forKeys forest.keyed fun row member n rowKey =>
    exists_ancestors forest stored presentable supported bounds member rowKey
  obtain ⟨siblings, ofSiblings⟩ := exists_forKeys forest.keyed fun row member n rowKey =>
    exists_siblings forest stored presentable supported member rowKey
  obtain ⟨roots, answeredRoots, rootsLists⟩ := answerRoots_lists presentable
  obtain ⟨leaves, answeredLeaves, leavesLists⟩ := answerLeaves_lists forest.keyed presentable
  exact ⟨⟨children, descendants, ancestors, siblings, roots, leaves⟩, {
    children := forKeys_of_rows fun row member n rowKey => (ofChildren row member n rowKey).1
    descendants := forKeys_of_rows fun row member n rowKey => (ofDescendants row member n rowKey).1
    ancestors := forKeys_of_rows fun row member n rowKey => (ofAncestors row member n rowKey).1
    siblings := forKeys_of_rows fun row member n rowKey => (ofSiblings row member n rowKey).1
    roots := fun request key plain =>
      respond_of_perform plain.asks plain.sendable (reading_eq_ok answeredRoots)
    leaves := fun request key plain =>
      respond_of_perform plain.asks plain.sendable (reading_eq_ok answeredLeaves)
  }, {
    children := fun row member n rowKey => (ofChildren row member n rowKey).2
    depthOne := fun row member n rowKey => (ofDescendants row member n rowKey).2.1
    descendants := fun row member n rowKey => (ofDescendants row member n rowKey).2.2
    ancestors := fun row member n rowKey => (ofAncestors row member n rowKey).2
    siblings := fun row member n rowKey => (ofSiblings row member n rowKey).2
    roots := rootsLists
    leaves := leavesLists
  }⟩

theorem Readings.Fit.symmetric_siblings {readings : Readings} (fit : readings.Fit table)
    (member : row ∈ table) (rowKey : row.key = .int n) (otherMember : other ∈ table)
    (otherKey : other.key = .int m) (keyed : table.IsKeyed .integer) :
    m ∈ (readings.siblings n).ids → n ∈ (readings.siblings m).ids := by
  rw [(fit.siblings row member n rowKey).mem_ids_iff,
    (fit.siblings other otherMember m otherKey).mem_ids_iff]
  rintro ⟨beside, found, besideKey⟩
  obtain ⟨besideMember, sameParent, different⟩ := Table.mem_siblingRows.mp found
  obtain rfl := keyed.eq_of_key besideMember otherMember (besideKey.trans otherKey.symm)
  exact ⟨row, Table.mem_siblingRows.mpr ⟨member, sameParent.symm, different.symm⟩, rowKey⟩

/-- The siblings of a node are the rows with its parent, without itself. -/
theorem Readings.Fit.siblings_perm {readings : Readings} (fit : readings.Fit table)
    (member : row ∈ table) (rowKey : row.key = .int n)
    (lists : answer.Lists (table.childRows row.parent)) :
    (readings.siblings n).ids.Perm (answer.ids.filter fun i => i != n) := by
  refine lists.perm_filter ?_
  have siblings := fit.siblings row member n rowKey
  rwa [Table.siblingRows_eq, rowKey] at siblings

/-- Two trees, one of them three levels deep. -/
def familyTable : Table :=
  [⟨.int 1, .null, .text "root", none⟩, ⟨.int 2, .int 1, .text "child", some (.obj [])⟩,
    ⟨.int 3, .int 1, .text "leaf", none⟩, ⟨.int 4, .int 2, .text "grandchild", some .null⟩,
    ⟨.int 5, .null, .text "lone", none⟩]

theorem isForest_familyTable : familyTable.IsForest where
  keyed := {
    key := by simp [familyTable, KeyKind.Admits]
    parent := by simp [familyTable, KeyKind.Admits]
    distinct := by decide }
  parents := by simp [familyTable, Table.contains]
  acyclic := by
    -- Each parent stands before its children.
    refine Table.not_onCycle_of_falls
      (fun row => List.findIdx (fun other => other.key == row.key) familyTable) ?_
    rintro row next ⟨member, nextMember, joined⟩
    simp only [familyTable, List.mem_cons, List.not_mem_nil, or_false] at member nextMember
    revert joined
    rcases member with rfl | rfl | rfl | rfl | rfl <;>
      rcases nextMember with rfl | rfl | rfl | rfl | rfl <;> decide

theorem isStored_familyTable : familyTable.IsStored where
  keys := by
    intro row member i rowKey
    simp only [familyTable, List.mem_cons, List.not_mem_nil, or_false] at member
    rcases member with rfl | rfl | rfl | rfl | rfl <;> obtain rfl := Value.int.inj rowKey <;> rfl
  count := by decide

theorem isPresentable_familyTable : ∀ row ∈ familyTable, IsPresentable row := by
  intro row member
  simp only [familyTable, List.mem_cons, List.not_mem_nil, or_false] at member
  rcases member with rfl | rfl | rfl | rfl | rfl <;>
    exact ⟨trivial, by simp [KeyKind.Admits], ⟨_, rfl⟩, by simp [IsObjectOrNull]⟩

end AdjacencyForest.Service
