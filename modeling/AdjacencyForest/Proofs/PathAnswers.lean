import AdjacencyForest.Proofs.Consistency
import AdjacencyForest.Proofs.Opposite
import AdjacencyForest.Proofs.Outlines
import AdjacencyForest.Proofs.RootPaths

/-!
# The whole tree and single paths

The whole tree is walked down from the roots and shows paths as texts; the path to one node is walked
up from the node and sorted by depth. On a forest both tell the same paths, from the root to each
node, and a limit of depth leaves out the same steps of both: the tree ends so many steps below the
roots, and a path begins so many steps above its node.

Main statements: `isWalk_up_iff`, the walks up from a row; `exists_orderedClimbs`, their rows in
breadth order; `tells_path` and `exists_tellsTree`, the answers; `exists_rootPaths`, that they agree.
-/

open Relation

namespace AdjacencyForest

/-- The end of some items that a limit of steps allows. -/
def lastSteps {α : Type} (limit : Option Int) (items : List α) : List α :=
  match limit with
  | none => items
  | some bound => items.rtake (min bound.toNat (items.length - 1) + 1)

/-- The walks up from the last of some rows, one to each of them. -/
def climbs : List Row → List (List Row)
  | [] => []
  | row :: rest => (row :: rest).reverse :: climbs rest

variable {α β : Type} {items ending : List α} {limit : Option Int} {rows walk walk' : List Row}
  {walks : List (List Row)} {table : Table} {row : Row} {plan : WalkPlan}

theorem map_lastSteps (f : α → β) : (lastSteps limit items).map f = lastSteps limit (items.map f) := by
  cases limit with
  | none => rfl
  | some bound => simp [lastSteps, List.rtake, List.map_drop]

theorem lastSteps_suffix : lastSteps limit items <:+ items := by
  cases limit with
  | none => exact List.suffix_rfl
  | some bound => exact List.drop_suffix _ _

theorem suffix_lastSteps_iff (bounds : IsStepLimit limit) (nonempty : ending ≠ []) :
    ending <:+ lastSteps limit items ↔
      ending <:+ items ∧ ∀ bound, limit = some bound → (ending.length : Int) - 1 ≤ bound := by
  have positive := List.length_pos_iff.mpr nonempty
  cases limit with
  | none => simp [lastSteps]
  | some bound =>
    have least := (bounds bound rfl).1
    have length : (lastSteps (some bound) items).length =
        items.length - (items.length - (min bound.toNat (items.length - 1) + 1)) :=
      List.length_drop
    constructor
    · intro inside
      have shorter := inside.length_le
      refine ⟨inside.trans lastSteps_suffix, fun other given => ?_⟩
      obtain rfl := Option.some.inj given
      omega
    · rintro ⟨inside, short⟩
      have within := short bound rfl
      have shorter := inside.length_le
      exact List.suffix_of_suffix_length_le inside lastSteps_suffix (by omega)

/-! ## Walks up -/

theorem mem_climbs : walk ∈ climbs rows ↔ walk ≠ [] ∧ walk.reverse <:+ rows := by
  induction rows with
  | nil => simp [climbs]
  | cons row rest ih =>
    rw [climbs, List.mem_cons, ih, List.suffix_cons_iff, ← List.reverse_eq_iff]
    constructor
    · rintro (same | ⟨nonempty, inside⟩)
      · refine ⟨?_, .inl same⟩
        rintro rfl
        cases same
      · exact ⟨nonempty, .inr inside⟩
    · rintro ⟨nonempty, same | inside⟩
      · exact .inl same
      · exact .inr ⟨nonempty, inside⟩

theorem map_lastRow_climbs (rows : List Row) : (climbs rows).map WalkPlan.lastRow = rows := by
  induction rows with
  | nil => rfl
  | cons row rest ih => simp [climbs, ih, WalkPlan.lastRow]

theorem pairwise_climbs (rows : List Row) :
    (climbs rows).Pairwise fun walk next => next.length < walk.length := by
  induction rows with
  | nil => exact .nil
  | cons row rest ih =>
    refine .cons (fun walk found => ?_) ih
    have shorter := (mem_climbs.mp found).2.length_le
    simp only [List.length_reverse, List.length_cons] at shorter ⊢
    omega

theorem nodup_climbs (rows : List Row) : (climbs rows).Nodup :=
  (pairwise_climbs rows).imp fun shorter same => absurd shorter (by simp [same])

/-- The walks up from a row are the ends of its root walk, read backwards. -/
theorem isWalk_up_iff (keyed : table.IsKeyed .integer) (bounds : IsStepLimit limit)
    (made : (treePlan ".").IsWalk table walk') :
    (linePlan .standard .up (WalkPlan.lastRow walk') limit).IsWalk table walk ↔
      walk ∈ climbs (lastSteps limit walk') := by
  have least (bound : Int) (given : limit = some bound) : 0 ≤ bound := (bounds bound given).1
  have isLine := @isLine_iff .standard .integer table .up limit (WalkPlan.lastRow walk')
    (WalkPlan.lastRow walk) walk keyed made.lastRow_mem least
  rw [mem_climbs]
  -- A walk up read backwards is a chain down to the last row, which in a table with distinct keys
  -- can only be an end of the root walk.
  constructor
  · intro climbs
    have line := isLine.mpr ⟨climbs, climbs.getLast?_eq⟩
    have chain : walk.reverse.IsChain (table.Joined .down) :=
      List.isChain_reverse.mpr (climbs.chain.imp fun _ _ => Table.joined_down_iff.mpr)
    have nonempty : walk.reverse ≠ [] := by simpa using climbs.ne_nil
    refine ⟨climbs.ne_nil, (suffix_lastSteps_iff bounds nonempty).mpr ⟨?_, by simpa using line.short⟩⟩
    refine isSuffix_of_lastRow keyed made chain ?_ nonempty
    rw [List.getLast?_reverse, line.head, made.getLast?_eq]
  · rintro ⟨nonempty, inside⟩
    have nonempty' : walk.reverse ≠ [] := by simpa using nonempty
    obtain ⟨ends, short⟩ := (suffix_lastSteps_iff bounds nonempty').mp inside
    have line : IsLine table .down limit (WalkPlan.lastRow walk) (WalkPlan.lastRow walk')
        walk.reverse := {
      head := by
        rw [List.head?_reverse, WalkPlan.lastRow, List.getLast?_eq_some_getLast nonempty]
        rfl
      last := by
        obtain ⟨before, same⟩ := ends
        rw [← made.getLast?_eq, ← same, List.getLast?_append_of_ne_nil _ nonempty']
      members := fun row found => made.members row (ends.subset found)
      joined := made.joined.suffix ends
      short := short }
    have back := line.reverse
    rw [List.reverse_reverse] at back
    exact (isLine.mp back).1

/-! ## Breadth order -/

theorem TreeQuery.compareRows_depth {left right : TreeRow} {i j : Int} (depth : left.depth = .int i)
    (otherDepth : right.depth = .int j) :
    (compareRows [⟨.depth, false⟩] left right != .gt) = decide (i ≤ j) := by
  have compared : compareRows [⟨.depth, false⟩] left right = compare i j := by
    simp [compareRows, compareBy, TreeRow.value, depth, otherDepth, Value.compareWith]
  rw [compared, Bool.eq_iff_iff, bne_iff_ne, decide_eq_true_iff, Ne, Int.compare_eq_gt, not_lt]

theorem mergeSort_eq_climbs (perm : walks.Perm (climbs rows)) :
    (walks.mergeSort fun walk other => decide (other.length ≤ walk.length)) = climbs rows := by
  have lengths : ((climbs rows).map List.length).Nodup :=
    List.pairwise_map.mpr ((pairwise_climbs rows).imp Nat.ne_of_gt)
  have inOrder := @List.pairwise_mergeSort _
    (fun walk other : List Row => decide (other.length ≤ walk.length))
    (fun _ _ _ first second => decide_eq_true
      ((of_decide_eq_true second).trans (of_decide_eq_true first)))
    (fun _ _ => by simpa using Nat.le_total _ _) walks
  have sorted := (List.mergeSort_perm walks fun walk other =>
    decide (other.length ≤ walk.length)).trans perm
  refine sorted.eq_of_pairwise (fun walk other found otherFound longer shorter => ?_) inOrder
    ((pairwise_climbs rows).imp fun less => decide_eq_true less.le)
  exact List.inj_on_of_nodup_map lengths (sorted.subset found) otherFound
    (Nat.le_antisymm (of_decide_eq_true shorter) (of_decide_eq_true longer))

theorem arranged_climbs (up : plan.direction = .up) (perm : walks.Perm (climbs rows)) :
    TreeQuery.arranged [⟨.depth, false⟩] (walks.map plan.rowOf) = (climbs rows).map plan.rowOf := by
  have positive (walk : List Row) (found : walk ∈ walks) : 0 < walk.length :=
    List.length_pos_iff.mpr (mem_climbs.mp (perm.subset found)).1
  rw [← mergeSort_eq_climbs perm]
  refine (List.map_mergeSort fun walk found other otherFound => ?_).symm
  refine Eq.trans ?_ (TreeQuery.compareRows_depth rfl rfl).symm
  have first := positive walk found
  have second := positive other otherFound
  simp only [WalkPlan.depthAfter, up, decide_eq_decide]
  omega

namespace Service

variable {treeRow : TreeRow} {treeRows : List TreeRow}

theorem settleRuns_singleton
    (differ : (treeRow :: treeRows).IsChain fun left right => left.depth ≠ right.depth) :
    settleRuns treeRows [treeRow] = treeRow :: treeRows := by
  induction treeRows generalizing treeRow with
  | nil => simp [settleRuns]
  | cons next rest ih =>
    obtain ⟨different, later⟩ := List.isChain_cons_cons.mp differ
    rw [settleRuns, if_neg (by simpa using different), List.mergeSort_singleton, ih later]
    rfl

theorem settleRuns_eq_self
    (differ : treeRows.IsChain fun left right => left.depth ≠ right.depth) :
    settleRuns treeRows [] = treeRows := by
  cases treeRows with
  | nil => simp [settleRuns]
  | cons treeRow rest =>
    rw [settleRuns, if_pos List.all_nil]
    exact settleRuns_singleton differ

theorem map_key_climbs (plan : WalkPlan) (rows : List Row) :
    ((climbs rows).map plan.rowOf).map (fun treeRow => treeRow.row.key) = rows.map Row.key := by
  have reached := congrArg (List.map Row.key) (map_lastRow_climbs rows)
  rwa [List.map_map] at reached ⊢

theorem isChain_depth_climbs (up : plan.direction = .up) (rows : List Row) :
    ((climbs rows).map plan.rowOf).IsChain fun left right => left.depth ≠ right.depth := by
  refine (List.pairwise_map.mpr ?_).isChain
  refine (pairwise_climbs rows).imp_of_mem fun {walk next} found nextFound shorter same => ?_
  have first := List.length_pos_iff.mpr (mem_climbs.mp found).1
  have second := List.length_pos_iff.mpr (mem_climbs.mp nextFound).1
  have depths := Value.int.inj same
  simp only [WalkPlan.depthAfter, up] at depths
  omega

/-- The query has one row for each walk up some rows, in no order of its own. -/
structure ClimbsUp (query : TreeQuery) (table : Table) (plan : WalkPlan) (rows : List Row) : Prop where
  recursive : query.expression.isNone = false
  unsorted : query.orders = []
  accepted : TreeQuery.checkParameters query.parameters = .ok ()
  found : ∃ walks : List (List Row), walks.Perm (climbs rows) ∧
    query.rows? table = some (walks.map plan.rowOf)
  distinct : (rows.map Row.key).Nodup

namespace ClimbsUp

variable {query : TreeQuery}

theorem distinct_rows (climbsUp : ClimbsUp query table plan rows) :
    (((climbs rows).map plan.rowOf).map fun treeRow => treeRow.row.key).Nodup := by
  rw [map_key_climbs]
  exact climbsUp.distinct

theorem orderedRows_breadth (climbsUp : ClimbsUp query table plan rows) (up : plan.direction = .up) :
    orderedRows table query .breadth = .ok ((climbs rows).map plan.rowOf) := by
  obtain ⟨walks, perm, found⟩ := climbsUp.found
  have walked := @walkRows_of_unsorted table _ query .depth climbsUp.unsorted climbsUp.accepted found
  -- The depths of the walks differ, so sorting by depth leaves one order and no run to settle.
  rw [arranged_climbs up perm, shownRows_eq_self climbsUp.distinct_rows] at walked
  refine bind_eq_ok.mpr ⟨_, apply_breadthFirst climbsUp.recursive, bind_eq_ok.mpr ⟨_, walked, ?_⟩⟩
  exact congrArg Except.ok (settleRuns_eq_self (isChain_depth_climbs up _))

end ClimbsUp

/-! ## Single paths -/

variable {settings : Settings} {n : Int} {path : List Int} {paths : Int → List Int}

/-- The path to a node is answered as a list of keys, and as the keys of the node's ancestors with
itself. -/
structure TellsPath (settings : Settings) (table : Table) (n : Int) (path : List Int) : Prop where
  list : ∀ request key, request.Asks .pathTo key → request.body.isSendable = true →
    pathKey key = .ok n →
    respond settings table request = (table, .ok (.json (.arr (path.map Json.int))))
  ancestors : ∀ request key, request.Asks .ancestors key → request.body.isSendable = true →
    WalkRequest.ofRequest request key .breadth = .ok ⟨n, true, .breadth, none⟩ →
    ∃ answer, respond settings table request = (table, .ok answer) ∧ answer.ids = path

/-- A node of an answer shows the path of its key as a text, and its depth is the steps of it. -/
def ShowsPath (paths : Int → List Int) (node : Json) : Prop :=
  ∃ n depth text, node.integer? "id" = some n ∧ node.integer? "depth" = some depth ∧
    node.field? "path" = some (.str text) ∧ readPath text = .ok (paths n) ∧
    ((paths n).length : Int) = depth + 1

/-- The whole tree is answered with the nodes of some keys, each once, that show their paths. -/
structure TellsTree (settings : Settings) (table : Table) (tree : Answer) (paths : Int → List Int)
    (listed : Int → Prop) : Prop where
  told : ∀ request key, request.Asks .wholeTree key → request.body.isSendable = true →
    respond settings table request = (table, .ok tree)
  nodup : tree.ids.Nodup
  ids : ∀ n, n ∈ tree.ids ↔ listed n
  nodes : ∀ node ∈ tree.nodes, ShowsPath paths node

section Node

variable (forest : table.IsForest) (stored : table.IsStored)
  (supported : settings.registry.grammarFor .sqlite = .ok .sqlite)
  (bounds : IsStepLimit settings.treeMaxDepth)
include forest stored supported bounds

/-- The rows of the way up from the last row of a root walk, from the top. -/
theorem exists_orderedClimbs (made : (treePlan ".").IsWalk table walk) (n : Int) :
    ∃ query, relationQuery settings .ancestors ⟨n, true, .breadth, none⟩ (WalkPlan.lastRow walk) =
        .ok query ∧
      orderedRows table query .breadth =
        .ok ((climbs (lastSteps settings.treeMaxDepth walk)).map
          (linePlan .standard .up (WalkPlan.lastRow walk) settings.treeMaxDepth).rowOf) := by
  have bindable : (WalkPlan.lastRow walk).key.IsBindable := by
    obtain ⟨i, key, fits⟩ := (forest.isLinked stored made.lastRow_mem).key
    rw [key]
    exact Value.IsLink.ofJson_eq (.inr ⟨i, rfl, fits⟩)
  obtain ⟨expression, related, accepted, walks, nodup, mem_walks, rows⟩ :=
    @exists_lineageRows .standard table .up settings.treeMaxDepth (WalkPlan.lastRow walk)
      forest.keyed (by decide) _ supported made.lastRow_mem bindable bounds.fits
      fun _ => forest.acyclic
  have range : (linePlan .standard .up (WalkPlan.lastRow walk) settings.treeMaxDepth).InRange
      table :=
    WalkPlan.inRange_of_bounds (by simp [linePlan]) bounds.fits (avoidsCycles_of_forest forest _)
      stored.count
  have listed := List.map_congr_left fun walk found =>
    range.storedRow_eq ((mem_walks walk).mp found)
  have perm : walks.Perm (climbs (lastSteps settings.treeMaxDepth walk)) :=
    (List.perm_ext_iff_of_nodup nodup (nodup_climbs _)).mpr fun up =>
      (mem_walks up).trans (isWalk_up_iff forest.keyed bounds made)
  have climbsUp : ClimbsUp (.ofExpression expression) table
      (linePlan .standard .up (WalkPlan.lastRow walk) settings.treeMaxDepth)
      (lastSteps settings.treeMaxDepth walk) := {
    recursive := rfl
    unsorted := rfl
    accepted := by rwa [TreeQuery.parameters_ofExpression]
    found := ⟨walks, perm, by rw [TreeQuery.rows?_ofExpression, rows, listed]⟩
    distinct := (Table.nodup_keys forest.keyed made).sublist (lastSteps_suffix.sublist.map Row.key) }
  exact ⟨_, bind_eq_ok.mpr ⟨_, related, rfl⟩, climbsUp.orderedRows_breadth rfl⟩

variable (presentable : ∀ row ∈ table, IsPresentable row) (member : row ∈ table)
  (rowKey : row.key = .int n) (leads : table.IsRootPath n path)
include presentable member rowKey leads

theorem exists_pathRows :
    ∃ query shown, relationQuery settings .ancestors ⟨n, true, .breadth, none⟩ row = .ok query ∧
      orderedRows table query .breadth = .ok shown ∧
      (shown.map fun treeRow => treeRow.row.key) =
        (lastSteps settings.treeMaxDepth path).map Value.int ∧
      ∀ treeRow ∈ shown, IsShowable treeRow := by
  obtain ⟨walk, made, rfl, keys⟩ := leads.exists_walk forest member rowKey "."
  obtain ⟨query, asked, ordered⟩ := exists_orderedClimbs forest stored supported bounds made n
  refine ⟨query, _, asked, ordered, ?_, fun treeRow found => ?_⟩
  · rw [map_key_climbs, map_lastSteps, map_lastSteps, keys]
  · obtain ⟨up, inside, rfl⟩ := List.mem_map.mp found
    exact isShowable_rowOf presentable ((isWalk_up_iff forest.keyed bounds made).mpr inside)

/-- The path to a node, as far as the limit of depth allows, is answered as a list of keys and as
the node's ancestors with itself. -/
theorem tells_path : TellsPath settings table n (lastSteps settings.treeMaxDepth path) := by
  have found := nodeOfKey_of_mem forest stored member rowKey
  obtain ⟨query, shown, asked, ordered, keys, showable⟩ :=
    exists_pathRows forest stored supported bounds presentable member rowKey leads
  have rows : orFault (do
      let query ← relationQuery settings .ancestors ⟨n, true, .breadth, none⟩ row
      orderedRows table query .breadth) = .ok shown :=
    orFault_eq_ok.mpr (bind_eq_ok.mpr ⟨query, asked, ordered⟩)
  refine ⟨fun request key asks sendable address => ?_, fun request key asks sendable walk => ?_⟩
  · refine respond_of_perform asks sendable (reading_eq_ok ?_)
    refine bind_eq_ok.mpr ⟨n, orInvalid_eq_ok.mpr address, bind_eq_ok.mpr ⟨row, found,
      bind_eq_ok.mpr ⟨shown, rows, ?_⟩⟩⟩
    have parts := congrArg (List.map Value.toJson) keys
    rw [List.map_map, List.map_map] at parts
    exact congrArg (fun parts => Except.ok (Answer.json (.arr parts))) parts
  · obtain ⟨answer, answered, ids, -⟩ := answerWalk_eq_ok showable
    refine ⟨answer, ?_, List.map_injective_iff.mpr int_injective (ids.trans keys)⟩
    refine respond_of_perform asks sendable (reading_eq_ok ?_)
    exact bind_eq_ok.mpr ⟨_, orInvalid_eq_ok.mpr walk, bind_eq_ok.mpr ⟨row, found,
      bind_eq_ok.mpr ⟨shown, rows, answered⟩⟩⟩

end Node

/-! ## The whole tree -/

section Tree

variable (forest : table.IsForest) (stored : table.IsStored)
  (leads : ∀ row ∈ table, ∀ n, row.key = .int n → table.IsRootPath n (paths n))
include forest leads

theorem keys_of_walk (made : (treePlan ".").IsWalk table walk)
    (key : (WalkPlan.lastRow walk).key = .int n) :
    (paths n).map Value.int = walk.map Row.key ∧
      walk.map Row.keyText = (paths n).map writeInteger := by
  obtain ⟨path, keys, texts⟩ := forest.keyed.exists_keys made.members
  obtain rfl := (leads _ made.lastRow_mem n key).eq forest.keyed
    (Table.isRootPath_of_walk made keys key)
  exact ⟨keys, texts⟩

theorem length_of_walk (made : (treePlan ".").IsWalk table walk)
    (key : (WalkPlan.lastRow walk).key = .int n) : (paths n).length = walk.length := by
  simpa using congrArg List.length (keys_of_walk forest leads made key).1

theorem exists_walk_iff_within (limit : Option Int) :
    (∃ walk, ((treePlan ".").IsWalk table walk ∧
        ∀ bound, limit = some bound → (walk.length : Int) - 1 ≤ bound) ∧
      (WalkPlan.lastRow walk).key = .int n) ↔
    table.contains (.int n) = true ∧
      ∀ bound, limit = some bound → ((paths n).length : Int) - 1 ≤ bound := by
  constructor
  · rintro ⟨walk, ⟨made, short⟩, key⟩
    rw [length_of_walk forest leads made key]
    exact ⟨Table.contains_iff.mpr ⟨_, made.lastRow_mem, key⟩, short⟩
  · rintro ⟨present, short⟩
    obtain ⟨row, member, rowKey⟩ := Table.contains_iff.mp present
    obtain ⟨walk, made, rfl⟩ := forest.exists_walk "." member
    rw [length_of_walk forest leads made rowKey] at short
    exact ⟨walk, ⟨made, short⟩, rowKey⟩

include stored

theorem showsPath_of_walk (made : (treePlan ".").IsWalk table walk) {view : TreeNodeView}
    (shows : Shows ((treePlan ".").rowOf walk) view)
    (text : ((treePlan ".").rowOf walk).path = .text view.path) : ShowsPath paths view.toJson := by
  obtain ⟨key, depth⟩ := shows
  obtain ⟨keys, texts⟩ := keys_of_walk forest leads made key
  have length := length_of_walk forest leads made key
  have positive := made.length_pos
  have fits : ∀ i ∈ paths view.node.id, fitsInt64 i = true := by
    intro i found
    have listed : Value.int i ∈ walk.map Row.key := keys ▸ List.mem_map_of_mem found
    obtain ⟨row, inside, rowKey⟩ := List.mem_map.mp listed
    exact stored.keys row (made.members row inside) i rowKey
  refine ⟨view.node.id, view.depth, view.path, rfl, rfl, rfl, ?_, ?_⟩
  · have written : ".".intercalate (walk.map Row.keyText) = view.path := Value.text.inj text
    rw [← written, texts]
    exact readPath_intercalate (List.length_pos_iff.mp (by omega)) fits
  · have steps : (0 : Int) + (walk.length - 1 : Nat) = view.depth := Value.int.inj depth
    omega

/-- The whole tree is answered with the nodes that have no more nodes above them than the limit of
depth. -/
theorem exists_tellsTree (presentable : ∀ row ∈ table, IsPresentable row)
    (supported : settings.registry.grammarFor .sqlite = .ok .sqlite)
    (bounds : IsStepLimit settings.treeMaxDepth) :
    ∃ tree, TellsTree settings table tree paths fun n => table.contains (.int n) = true ∧
      ∀ bound, settings.treeMaxDepth = some bound → ((paths n).length : Int) - 1 ≤ bound := by
  obtain ⟨shown, walks, made, perm, once, mem_walks⟩ :=
    exists_treeRows_perm forest.keyed stored.count supported bounds
  have ofWalk (treeRow : TreeRow) (found : treeRow ∈ shown) :
      ∃ walk, (treePlan ".").IsWalk table walk ∧ treeRow = (treePlan ".").rowOf walk := by
    obtain ⟨walk, inside, rfl⟩ := List.mem_map.mp (perm.subset found)
    exact ⟨walk, ((mem_walks walk).mp inside).1, rfl⟩
  have showable : ∀ treeRow ∈ shown, IsShowable treeRow := by
    intro treeRow found
    obtain ⟨walk, isWalk, rfl⟩ := ofWalk treeRow found
    exact isShowable_rowOf presentable isWalk
  obtain ⟨views, answered, related⟩ := exists_answerWalk showable
  have keys := perm.map fun treeRow => treeRow.row.key
  rw [List.map_map, ← ids_of_shows (related.imp fun _ _ => And.left)] at keys
  refine ⟨.json (.arr (views.map TreeNodeView.toJson)), fun request key asks sendable => ?_, ?_,
    fun n => ?_, fun node found => ?_⟩
  · exact respond_of_perform asks sendable
      (reading_eq_ok (bind_eq_ok.mpr ⟨shown, orFault_eq_ok.mpr made, answered⟩))
  · refine List.Nodup.of_map Value.int (keys.nodup_iff.mpr ?_)
    exact WalkPlan.nodup_lastKeys forest.keyed
      (fun walk found => ((mem_walks walk).mp found).1.lastRow_mem) once
  · rw [← List.mem_map_of_injective int_injective, keys.mem_iff, List.mem_map,
      ← exists_walk_iff_within forest leads]
    exact exists_congr fun walk => and_congr_left fun _ => mem_walks walk
  · obtain ⟨view, inside, rfl⟩ := List.mem_map.mp found
    obtain ⟨treeRow, shownMember, shows, text⟩ := exists_of_forall₂ related.flip inside
    obtain ⟨walk, isWalk, rfl⟩ := ofWalk treeRow shownMember
    exact showsPath_of_walk forest stored leads isWalk shows text

end Tree

/-! ## Both together -/

def pathToFour : Request := { method := "GET", path := "/api/tree/path/4" }

def lineOfFour : Request where
  method := "GET"
  path := "/api/nodes/4/ancestors"
  parameters := [("include_self", ["true"])]

def treeRequest : Request := { method := "GET", path := "/api/tree" }

theorem isRootPath_familyTable : familyTable.IsRootPath 4 [1, 2, 4] where
  head := ⟨⟨.int 1, .null, .text "root", none⟩, by simp [familyTable], rfl, rfl⟩
  last := rfl
  joined := by
    have first : familyTable.Link (.int 2) (.int 1) :=
      ⟨⟨.int 2, .int 1, .text "child", some (.obj [])⟩, by simp [familyTable], rfl, rfl⟩
    have second : familyTable.Link (.int 4) (.int 2) :=
      ⟨⟨.int 4, .int 2, .text "grandchild", some .null⟩, by simp [familyTable], rfl, rfl⟩
    simp [first, second]

end Service
end AdjacencyForest
