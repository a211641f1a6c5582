import AdjacencyForest.Proofs.Loading
import AdjacencyForest.Proofs.PreOrder
import AdjacencyForest.Proofs.Subtree

/-!
# The whole tree, depth first

The walks down from all roots end, whatever else the table holds, since no cycle can be reached from
a root. Sorted by their paths they are the pre-order of the table, if keys are integers and the
separator is less than every digit.

Main statements: `mem_rootListing`, the walks of the listing; `mem_lastRows`, the rows that they
reach, and `nodup_lastRows`, each once; `all_depthFirst`, the nodes of a tree query.
-/

open Relation

namespace AdjacencyForest

open RecursiveExpression

/-- The walks down from all roots. -/
def treePlan (separator : String) : WalkPlan where
  direction := .down
  start := 0
  limit := none
  separator := separator
  isAnchor row := row.parent.isNull

theorem Value.isNull_iff {value : Value} : value.isNull = true ↔ value = .null := by
  cases value <;> simp [isNull]

variable {model : TreeModel} {separator : String} {kind : KeyKind} {table : Table}
  {row next root other : Row} {walk walk' : List Row} {walks : List (List Row)} {limit : Option Int}

/-! ## From the roots -/

namespace Table

theorem IsKeyed.not_joined_of_root (keyed : table.IsKeyed kind) (isRoot : root.parent = .null) :
    ¬ table.Joined .up root next := fun joined =>
  KeyKind.not_null_of_admits (keyed.key next joined.2.1) (joined.2.2.trans isRoot)

theorem IsKeyed.not_onCycle_of_root (keyed : table.IsKeyed kind) (isRoot : root.parent = .null) :
    ¬ table.OnCycle root := by
  intro around
  obtain ⟨next, joined, -⟩ := TransGen.head'_iff.mp around
  exact keyed.not_joined_of_root isRoot joined

theorem IsKeyed.onCycle_of_joined (keyed : table.IsKeyed kind) (around : table.OnCycle next)
    (joined : table.Joined .up next row) : table.OnCycle row := by
  -- The cycle leaves the child by its one link.
  obtain ⟨other, first, back⟩ := TransGen.head'_iff.mp around
  obtain rfl := keyed.functional_up next row other joined first
  exact TransGen.tail' back joined

end Table

theorem avoidsCycles_treePlan (keyed : table.IsKeyed kind) :
    (treePlan separator).AvoidsCycles table := by
  intro root _ anchor row reached
  have isRoot : root.parent = .null := Value.isNull_iff.mp anchor
  induction reached with
  | refl => exact keyed.not_onCycle_of_root isRoot
  | tail _ joined ih =>
    exact fun around => ih (keyed.onCycle_of_joined around (Table.joined_down_iff.mp joined))

/-- All walks down from the roots of a table in pre-order. -/
def Table.rootListing (table : Table) : List (List Row) :=
  table.listing table.length [] (table.childrenByText .null)

theorem mem_rootListing (keyed : table.IsKeyed kind) :
    walk ∈ table.rootListing ↔ (treePlan separator).IsWalk table walk := by
  rw [Table.rootListing, Table.mem_listing]
  constructor
  · rintro ⟨root, rest, rfl, found, members, chain, -⟩
    obtain ⟨member, isRoot⟩ := Table.mem_childrenByText.mp found
    refine ⟨⟨root, rfl, Value.isNull_iff.mpr isRoot⟩, ?_, chain, WalkPlan.allows_of_unlimited rfl _⟩
    simpa using ⟨member, members⟩
  · intro made
    obtain ⟨root, head, anchor⟩ := made.anchored
    obtain ⟨rest, rfl⟩ := List.head?_eq_some_iff.mp head
    have short := made.length_le (avoidsCycles_treePlan keyed)
    exact ⟨root, rest, rfl, Table.mem_childrenByText.mpr
      ⟨made.members root (by simp), Value.isNull_iff.mp anchor⟩,
      fun next member => made.members next (by simp [member]), made.joined, short⟩

theorem isSuffix_of_lastRow (keyed : table.IsKeyed kind)
    (made : (treePlan separator).IsWalk table walk) (chain : walk'.IsChain (table.Joined .down))
    (last : walk.getLast? = walk'.getLast?) (nonempty : walk' ≠ []) : walk' <:+ walk := by
  obtain ⟨root, head, anchor⟩ := made.anchored
  refine isSuffix_of_unreached keyed.functional_down made.chain chain head (fun row joined => ?_)
    last nonempty
  exact keyed.not_joined_of_root (Value.isNull_iff.mp anchor) (Table.joined_down_iff.mp joined)

theorem eq_of_lastRow (keyed : table.IsKeyed kind) (made : (treePlan separator).IsWalk table walk)
    (otherMade : (treePlan separator).IsWalk table walk')
    (same : WalkPlan.lastRow walk = WalkPlan.lastRow walk') : walk = walk' := by
  have last : walk.getLast? = walk'.getLast? := by rw [made.getLast?_eq, otherMade.getLast?_eq, same]
  have ending := isSuffix_of_lastRow keyed otherMade made.chain last.symm made.ne_nil
  have otherEnding := isSuffix_of_lastRow keyed made otherMade.chain last otherMade.ne_nil
  exact ending.eq_of_length_le otherEnding.length_le

theorem nodup_lastRows (keyed : table.IsKeyed kind) (nodup : walks.Nodup)
    (made : ∀ walk ∈ walks, (treePlan separator).IsWalk table walk) :
    (walks.map WalkPlan.lastRow).Nodup :=
  nodup.map_on fun walk member other otherMember =>
    eq_of_lastRow keyed (made walk member) (made other otherMember)

/-- A row from which the way up ends at a root. -/
def Table.IsRooted (table : Table) (row : Row) : Prop :=
  ∃ root ∈ table, root.parent = .null ∧ ReflTransGen (table.Joined .up) row root

theorem mem_lastRows (mem_walks : ∀ walk, walk ∈ walks ↔ (treePlan separator).IsWalk table walk) :
    row ∈ walks.map WalkPlan.lastRow ↔ table.IsRooted row := by
  rw [List.mem_map]
  constructor
  · rintro ⟨walk, found, rfl⟩
    have made := (mem_walks walk).mp found
    obtain ⟨root, head, anchor⟩ := made.anchored
    obtain ⟨rest, rfl⟩ := List.head?_eq_some_iff.mp head
    refine ⟨root, made.members root (by simp), Value.isNull_iff.mp anchor, ?_⟩
    exact Table.reflTransGen_down_iff.mp
      (reflTransGen_of_mem made.chain (List.mem_of_getLast? made.getLast?_eq))
  · rintro ⟨root, member, isRoot, reached⟩
    obtain ⟨rest, chain, members, last, -⟩ :=
      Table.exists_short_walk (Table.reflTransGen_down_iff.mpr reached) member
    refine ⟨root :: rest, (mem_walks _).mpr ⟨⟨root, rfl, Value.isNull_iff.mpr isRoot⟩, members,
      chain, WalkPlan.allows_of_unlimited rfl _⟩, ?_⟩
    rw [WalkPlan.lastRow, last, Option.getD_some]

theorem preOrder_rootListing (keyed : table.IsKeyed kind) :
    table.PreOrder (table.childrenByText .null) (table.rootListing.map WalkPlan.lastRow) := by
  refine Table.preOrder_listing fun root found rest members chain => ?_
  obtain ⟨member, isRoot⟩ := Table.mem_childrenByText.mp found
  have made : (treePlan "").IsWalk table (root :: rest) :=
    ⟨⟨root, rfl, Value.isNull_iff.mpr isRoot⟩, by simpa using ⟨member, members⟩, chain,
      WalkPlan.allows_of_unlimited rfl _⟩
  exact made.length_le (avoidsCycles_treePlan keyed)

/-! ## Sorting by path -/

theorem pairwise_rootListing (low : IsLowSeparator separator) (keyed : table.IsKeyed .integer) :
    table.rootListing.Pairwise fun walk other =>
      Table.pathText separator walk < Table.pathText separator other :=
  Table.pairwise_listing low keyed (fun _ found => (Table.mem_childrenByText.mp found).1)
    (Table.pairwise_childrenByText keyed .null)

theorem nodup_pathTexts (low : IsLowSeparator separator) (keyed : table.IsKeyed .integer) :
    (table.rootListing.map (Table.pathText separator)).Nodup := by
  refine List.pairwise_map.mpr ((pairwise_rootListing low keyed).imp fun less same => ?_)
  rw [same] at less
  exact String.lt_irrefl _ less

theorem mergeSort_eq_rootListing (low : IsLowSeparator separator) (keyed : table.IsKeyed .integer)
    (nodup : walks.Nodup) (mem_walks : ∀ walk, walk ∈ walks ↔ (treePlan separator).IsWalk table walk) :
    (walks.mergeSort fun walk other =>
      decide (Table.pathText separator walk ≤ Table.pathText separator other)) =
      table.rootListing := by
  have texts := nodup_pathTexts low keyed
  have perm : walks.Perm table.rootListing :=
    (List.perm_ext_iff_of_nodup nodup (.of_map _ texts)).mpr fun walk =>
      (mem_walks walk).trans (mem_rootListing keyed).symm
  exact mergeSort_eq_of_texts perm (pairwise_rootListing low keyed)

theorem TreeQuery.compareRows_path {left right : TreeRow} {s t : String}
    (path : left.path = .text s) (otherPath : right.path = .text t) :
    (compareRows [⟨.path, false⟩] left right != .gt) = decide (s ≤ t) := by
  have compared : compareRows [⟨.path, false⟩] left right = Value.compareText s t := by
    simp [compareRows, compareBy, TreeRow.value, path, otherPath, Value.compareWith]
  rw [compared, Value.compareText]
  by_cases less : s < t
  · simp [less, String.not_lt.mp (String.lt_asymm less)]
  · by_cases same : s = t
    · simp [same]
    · have greater : ¬ s ≤ t := fun le => same (String.le_antisymm le (String.not_lt.mp less))
      simp [less, same, greater]

theorem arranged_storedRow (plan : WalkPlan) :
    TreeQuery.arranged [⟨.path, false⟩] (walks.map plan.storedRow) =
      (walks.mergeSort fun walk other =>
        decide (Table.pathText plan.separator walk ≤ Table.pathText plan.separator other)).map
        plan.storedRow := by
  refine (List.map_mergeSort fun walk _ other _ => ?_).symm
  exact (TreeQuery.compareRows_path rfl rfl).symm

/-! ## The nodes of a tree query -/

/-- The walks down from all roots that a limit allows. -/
def limitedTreePlan (separator : String) (limit : Option Int) : WalkPlan :=
  { treePlan separator with limit := limit }

/-- All roots and what is below them, as far as a limit allows. -/
def treeTraversal (model : TreeModel) (limit : Option Int) : Traversal :=
  .ofModel model .down (.criterion (.isNull (.column .parent))) (.int 0) false
    (Json.ofOption Json.int limit)

theorem fits_treeTraversal (apart : model.NamesApart) :
    (treeTraversal model limit).Fits model (.isNull (.column .parent)) 0 limit :=
  Traversal.fits_ofModel_of_apart apart .down false limit

theorem follows_treeTraversal (apart : model.NamesApart) {registry : Registry} {engine : Engine}
    {source : Source} {expression : RecursiveExpression}
    (compiled : compile registry engine model source (treeTraversal model limit) = .ok expression) :
    expression.Follows (limitedTreePlan model.separator limit) table := by
  have follows := follows_of_compile (fits_treeTraversal apart) compiled table
  refine { follows with anchor := fun row member => ?_ }
  rw [follows.anchor row member]
  simp [Traversal.plan, limitedTreePlan, treePlan, Reading.satisfies, Reading.truth,
    TreeRow.reading, TreeRow.value, TreeRow.ofRow, Row.value]

theorem exists_limitedTree (keyed : table.IsKeyed kind) (apart : model.NamesApart)
    {registry : Registry} (supported : registry.grammarFor .sqlite = .ok .sqlite)
    (bounds : ∀ bound, limit = some bound → fitsInt64 bound = true ∧ fitsInt64 (-bound) = true) :
    ∃ expression, Setting.tree ⟨model, registry, .sqlite⟩ (Json.ofOption Json.int limit) =
        .ok (.ofExpression expression) ∧
      TreeQuery.checkParameters expression.parameters = .ok () ∧
      ∃ walks : List (List Row), walks.Nodup ∧
        (∀ walk, walk ∈ walks ↔ (limitedTreePlan model.separator limit).IsWalk table walk) ∧
        expression.rows? table = some (walks.map (limitedTreePlan model.separator limit).storedRow) := by
  have fits : (treeTraversal model limit).Fits model _ _ limit := fits_treeTraversal apart
  obtain ⟨expression, compiled⟩ : ∃ expression, compile registry .sqlite model
      ⟨model.tableName, none⟩ (treeTraversal model limit) = .ok expression :=
    exists_compile fits supported
  have follows : expression.Follows (limitedTreePlan model.separator limit) table :=
    follows_treeTraversal apart compiled
  have free : (treePlan model.separator).AvoidsCycles table := avoidsCycles_treePlan keyed
  refine ⟨expression, bind_eq_ok.mpr ⟨_, rfl, bind_eq_ok.mpr ⟨_, compiled, rfl⟩⟩, ?_,
    follows.exists_storedWalks keyed (follows.stopsWith_of_bounds rfl bounds) fun _ => free⟩
  exact (checkParameters_of_compile fits compiled).mpr ⟨rfl, fun bound given => (bounds bound given).1⟩

theorem exists_tree (keyed : table.IsKeyed kind) (apart : model.NamesApart) {registry : Registry}
    (supported : registry.grammarFor .sqlite = .ok .sqlite) :
    ∃ expression, Setting.tree ⟨model, registry, .sqlite⟩ .null = .ok (.ofExpression expression) ∧
      TreeQuery.checkParameters expression.parameters = .ok () ∧
      ∃ walks : List (List Row), walks.Nodup ∧
        (∀ walk, walk ∈ walks ↔ (treePlan model.separator).IsWalk table walk) ∧
        expression.rows? table = some (walks.map (treePlan model.separator).storedRow) :=
  @exists_limitedTree _ _ _ none keyed apart _ supported
    fun bound given => absurd given.symm (Option.some_ne_none bound)

theorem TreeQuery.rows?_sorted_of_unsorted {query : TreeQuery} (unsorted : query.orders = [])
    (field : Field) (descending : Bool) :
    (query.sorted field descending).rows? table =
      (query.rows? table).map (arranged [⟨field, descending⟩]) := by
  have same : (query.sorted field descending).rows? table =
      (query.sourceRows? table).map fun source =>
        arranged (query.orders ++ [⟨field, descending⟩]) (query.matching table source) := rfl
  have plain : query.rows? table = (query.sourceRows? table).map (query.matching table) := by
    rw [rows?, unsorted]
    rfl
  rw [same, plain, unsorted, List.nil_append, Option.map_map]
  rfl

theorem TreeQuery.rows?_sorted {expression : RecursiveExpression} (field : Field)
    (descending : Bool) :
    ((ofExpression expression).sorted field descending).rows? table =
      (expression.rows? table).map (arranged [⟨field, descending⟩]) := by
  rw [rows?_sorted_of_unsorted rfl, rows?_ofExpression]

/-- All nodes of the tree query in depth-first order, asked of a session that has nothing to write:
the rows that hang on a root in pre-order, each once. -/
theorem all_depthFirst {session : Session} (keyed : session.table.IsKeyed .integer)
    (apart : session.model.NamesApart) (low : IsLowSeparator session.model.separator)
    (embedded : session.setting.engine = .sqlite)
    (supported : session.setting.registry.grammarFor .sqlite = .ok .sqlite)
    (clean : session.isClean = true) (sound : session.broken = false) :
    ∃ tree query entities after, ∃ nodes : List Row,
      session.setting.tree .null = .ok tree ∧ tree.apply .depthFirst = .ok query ∧
      (Session.all query).run.run session = (.ok entities, after) ∧
      entities.map Entity.current = nodes.map NodeFields.ofRow ∧
      session.table.PreOrder (session.table.childrenByText .null) nodes ∧
      nodes.Nodup ∧ ∀ row, row ∈ nodes ↔ session.table.IsRooted row := by
  have setting : session.setting = ⟨session.model, session.setting.registry, .sqlite⟩ := by
    rw [← embedded]
    rfl
  obtain ⟨expression, built, accepted, walks, nodup, mem_walks, rows⟩ :=
    exists_tree keyed apart supported
  have mem_listing (walk : List Row) : walk ∈ session.table.rootListing ↔
      (treePlan session.model.separator).IsWalk session.table walk := mem_rootListing keyed
  have members : ∀ walk ∈ session.table.rootListing,
      (treePlan session.model.separator).IsWalk session.table walk := fun walk =>
    (mem_listing walk).mp
  have once : (session.table.rootListing.map WalkPlan.lastRow).Nodup :=
    nodup_lastRows keyed (.of_map _ (nodup_pathTexts low keyed)) members
  have sorted : ((TreeQuery.ofExpression expression).sorted .path false).rows? session.table =
      some (session.table.rootListing.map (treePlan session.model.separator).storedRow) := by
    rw [TreeQuery.rows?_sorted, rows, Option.map_some, arranged_storedRow]
    exact congrArg (fun walks => some (List.map _ walks))
      (mergeSort_eq_rootListing low keyed nodup mem_walks)
  have distinct : ((session.table.rootListing.map (treePlan session.model.separator).storedRow).map
      fun treeRow => treeRow.row.key).Nodup := by
    rw [List.map_map]
    refine (List.Nodup.of_map _ once).map_on fun walk found other otherFound same => ?_
    exact List.inj_on_of_nodup_map once found otherFound (keyed.eq_of_key
      (members walk found).lastRow_mem (members other otherFound).lastRow_mem same)
  have accepted : TreeQuery.checkParameters
      ((TreeQuery.ofExpression expression).sorted .path false).parameters = .ok () := by
    rwa [← TreeQuery.parameters_ofExpression] at accepted
  have loaded : (Session.all ((TreeQuery.ofExpression expression).sorted .path false)).run.run
      session = (_, _) := Session.run_all rfl rfl clean sound accepted sorted distinct
  refine ⟨.ofExpression expression, _, _, _, session.table.rootListing.map WalkPlan.lastRow, ?_, rfl,
    loaded, ?_, preOrder_rootListing keyed, once, fun row => mem_lastRows mem_listing⟩
  · rw [setting]
    exact built
  · simp only [List.map_map]
    rfl

/-- Keys that are the beginning of others and a negative one, a cycle, and a row whose parent is not
there. -/
def tangledTable : Table :=
  [⟨.int (-3), .int 10, .null, none⟩, ⟨.int 1, .int 10, .null, none⟩, ⟨.int 2, .null, .null, none⟩,
    ⟨.int 4, .int 5, .null, none⟩, ⟨.int 5, .int 4, .null, none⟩, ⟨.int 7, .int 99, .null, none⟩,
    ⟨.int 10, .null, .null, none⟩]

theorem isKeyed_tangledTable : tangledTable.IsKeyed .integer where
  key := by simp [tangledTable, KeyKind.Admits]
  parent := by simp [tangledTable, KeyKind.Admits]
  distinct := by decide

theorem all_tangledTable :
    ∃ tree query entities after, ∃ nodes : List Row,
      Setting.tree { model := .standard } .null = .ok tree ∧ tree.apply .depthFirst = .ok query ∧
      (Session.all query).run.run (.start { model := .standard } tangledTable) =
        (.ok entities, after) ∧
      entities.map Entity.current = nodes.map NodeFields.ofRow ∧
      tangledTable.PreOrder (tangledTable.childrenByText .null) nodes ∧
      nodes.Nodup ∧ ∀ row, row ∈ nodes ↔ tangledTable.IsRooted row :=
  @all_depthFirst (.start { model := .standard } tangledTable) isKeyed_tangledTable (by decide)
    ⟨'.', rfl, by decide⟩ rfl rfl rfl rfl

end AdjacencyForest
