import AdjacencyForest.Proofs.AndSelf
import AdjacencyForest.Proofs.Asking

/-!
# What is below a node

The descendants of a node are asked by the key that the node has when the query is made, whether the
node is stored, waits to be written or belongs to no session. From each row of the answer parent links
lead up to that key, in as many steps as the row is deep. But a node that has no key yet is asked for
the rows whose parent is null, and so has the roots and all below them for descendants.

Main statements: `leadsTo_iff_exists_walk`, links upward are walks downward; `leadsTo_of_mem_rows` and
`exists_row_of_leadsTo`, the rows that are answered; `descendants_lead_to_node`, what the nodes are
that a session answers, and when all of them are below the node.
-/

namespace AdjacencyForest

open RecursiveExpression

/-- Parent links lead from a row of the table up to a value in so many steps, the last of them to the
value itself, which need be no row's key. -/
inductive Table.LeadsTo (table : Table) : Row → Nat → Value → Prop where
  | parent {row : Row} (member : row ∈ table) : LeadsTo table row 1 row.parent
  | further {row next : Row} {steps : Nat} {value : Value} (joined : table.Joined .up row next)
    (later : LeadsTo table next steps value) : LeadsTo table row (steps + 1) value

namespace Table

variable {table : Table} {row : Row} {steps : Nat} {value : Value}

theorem LeadsTo.steps_pos (leads : table.LeadsTo row steps value) : 0 < steps := by
  cases leads <;> exact Nat.succ_pos _

/-- The last value on the way up is some row's parent. -/
theorem LeadsTo.exists_parent (leads : table.LeadsTo row steps value) :
    ∃ top ∈ table, top.parent = value := by
  induction leads with
  | parent member => exact ⟨_, member, rfl⟩
  | further _ _ ih => exact ih

theorem LeadsTo.exists_walk (leads : table.LeadsTo row steps value) :
    ∃ walk : List Row, (∀ other ∈ walk, other ∈ table) ∧ walk.IsChain Direction.down.Joins ∧
      walk.length = steps ∧ walk.getLast? = some row ∧ walk.head?.map Row.parent = some value := by
  induction leads with
  | @parent row member =>
    exact ⟨[row], fun other found => List.mem_singleton.mp found ▸ member, .singleton row, rfl, rfl,
      rfl⟩
  | @further row next steps value joined later ih =>
    obtain ⟨walk, members, chain, length, last, head⟩ := ih
    have nonempty : walk ≠ [] := List.ne_nil_of_mem (List.mem_of_getLast? last)
    refine ⟨walk ++ [row], fun other found => ?_, ?_, by simp [length], by simp, ?_⟩
    · rcases List.mem_append.mp found with found | found
      · exact members other found
      · exact List.mem_singleton.mp found ▸ joined.1
    · refine List.isChain_append.mpr ⟨chain, .singleton row, fun other found first same => ?_⟩
      obtain rfl := Option.some.inj (last.symm.trans found)
      obtain rfl : row = first := by simpa using same
      exact joined.2.2
    · rwa [List.head?_append_of_ne_nil _ nonempty]

theorem leadsTo_of_walk {walk : List Row} (members : ∀ other ∈ walk, other ∈ table)
    (chain : walk.IsChain Direction.down.Joins) (last : walk.getLast? = some row)
    (head : walk.head?.map Row.parent = some value) : table.LeadsTo row walk.length value := by
  -- The row is the end of the walk, and the way up from it is the rest of the walk, read backwards.
  induction walk using List.reverseRecOn generalizing row with
  | nil => cases last
  | append_singleton walk final ih =>
    obtain rfl : final = row := by simpa using last
    cases walk using List.reverseRecOn with
    | nil =>
      obtain rfl : final.parent = value := by simpa using head
      exact .parent (members final (by simp))
    | append_singleton walk next =>
      obtain ⟨before, -, link⟩ := List.isChain_append.mp chain
      have joined : next.key = final.parent := link next (by simp) final rfl
      have inside : ∀ other ∈ walk ++ [next], other ∈ table :=
        fun other found => members other (List.mem_append_left _ found)
      rw [List.length_append]
      refine .further ⟨members final (by simp), inside next (by simp), joined⟩ ?_
      refine ih inside before (by simp) ?_
      rwa [List.head?_append_of_ne_nil _ (by simp)] at head

theorem leadsTo_iff_exists_walk : table.LeadsTo row steps value ↔
    ∃ walk : List Row, (∀ other ∈ walk, other ∈ table) ∧ walk.IsChain Direction.down.Joins ∧
      walk.length = steps ∧ walk.getLast? = some row ∧ walk.head?.map Row.parent = some value := by
  refine ⟨LeadsTo.exists_walk, ?_⟩
  rintro ⟨walk, members, chain, rfl, last, head⟩
  exact leadsTo_of_walk members chain last head

end Table

/-! ## The key of a node -/

theorem KeyKind.toJson_ne_null {kind : KeyKind} {key : Value} (admitted : kind.Admits key) :
    key.toJson ≠ .null := by
  have some := not_null_of_admits admitted
  cases key with
  | null => exact absurd rfl some
  | _ => exact Json.noConfusion

theorem Comparison.holdsOf_equal (own other : Value) :
    Comparison.equal.holdsOf own other = own.equals other := by
  cases own <;> cases other <;> rfl

namespace NodeFields

variable {model : TreeModel} {node : NodeFields} {value : Value}

/-- The value is the node's key, as the store compares keys with data. No value is the key of a node
that has none. -/
def HasKey (node : NodeFields) (model : TreeModel) (value : Value) : Prop :=
  value.equals (TreeRow.comparand model (.column .key) node.key) = true

theorem not_hasKey_of_null (none : node.key = .null) : ¬ node.HasKey model value := by
  have unknown : TreeRow.comparand model (.column .key) .null = .null := by
    unfold TreeRow.comparand
    cases TreeRow.fieldAffinity model (.column .key) <;> rfl
  unfold HasKey
  rw [none, unknown]
  cases value <;> simp [Value.equals]

/-- A key that the store keeps as it is, is the only value that is the node's key. -/
theorem hasKey_iff {key : Value} (known : node.key = key.toJson) (given : model.keyKind.Admits key)
    (bindable : key.IsBindable) (own : value = .null ∨ model.keyKind.Admits value) :
    node.HasKey model value ↔ value = key := by
  have compared : TreeRow.comparand model (.column .key) node.key = key := by
    have parameter : Value.ofParameter (.column .key) key.toJson = .ok key := bindable
    unfold TreeRow.comparand Reading.operand
    rw [known, parameter]
    exact Value.comparand_of_admitted given
  unfold HasKey
  rw [compared]
  rcases own with rfl | own
  · refine iff_of_false ?_ fun same => KeyKind.not_null_of_admits given same.symm
    cases key <;> exact Bool.false_ne_true
  · exact KeyKind.equals_iff own (.inr given)

/-- The value that the parents of a node's descendants end in: the key, or null for want of a key. -/
def IsTop (node : NodeFields) (model : TreeModel) (value : Value) : Prop :=
  node.HasKey model value ∨ node.key = .null ∧ value = .null

theorem satisfies_parent {row : Row} {parents : List Value} :
    ((TreeRow.ofRow row).reading model parents).satisfies
      (.equals (.column .parent) node.key) = true ↔ node.IsTop model row.parent := by
  have asked := @TreeRow.satisfies_ofComparison (.ofRow row) model parents (.column .parent) .equal
    node.key (.equals (.column .parent) node.key) rfl
  rw [asked]
  unfold IsTop
  by_cases none : node.key = .null
  · rw [none]
    simp only [not_hasKey_of_null none, true_and, false_or]
    exact Value.isNull_iff
  · have compared : (TreeRow.ofRow row).compares model (.column .parent) .equal node.key =
        Comparison.equal.holdsOf row.parent (TreeRow.comparand model (.column .key) node.key) := by
      cases key : node.key <;> first | exact absurd key none | rfl
    rw [compared, Comparison.holdsOf_equal]
    simp only [none, false_and, or_false]
    rfl

end NodeFields

/-! ## The rows below a node -/

/-- The depth counts the steps, as far as the store can count. -/
structure Value.Counts (depth : Value) (steps : Nat) : Prop where
  counted : ∀ d, depth = .int d → d = steps
  counts : fitsInt64 steps = true → depth = .int steps

/-- A limit of depth leaves so many steps; it never leaves out those next to the node. -/
def StepsWithin (limit : Option Int) (steps : Nat) : Prop :=
  steps = 1 ∨ ∀ bound, limit = some bound → (steps : Int) ≤ bound

namespace NodeFields

variable {setting : Setting} {model : TreeModel} {node : NodeFields} {limit : Option Int}
  {query : TreeQuery} {table : Table} {walk : List Row} {rows : List TreeRow} {treeRow : TreeRow}
  {row : Row} {steps : Nat}

/-- The relation of a node to what is below it. -/
def descendants (node : NodeFields) (limit : Option Int) : Relation :=
  ⟨.descendants, false, node, Json.ofOption Json.int limit⟩

/-- The walks down from the rows whose parent is the node's key. -/
def descent (node : NodeFields) (model : TreeModel) (table : Table) (limit : Option Int) :
    WalkPlan where
  direction := .down
  start := 1
  limit := limit
  separator := model.separator
  isAnchor row := ((TreeRow.ofRow row).reading model table.parents).satisfies
    (.equals (.column .parent) node.key)

theorem allows_descent (positive : 0 < steps) :
    (node.descent model table limit).Allows (steps - 1) ↔ StepsWithin limit steps := by
  have depth : (node.descent model table limit).depthAfter (steps - 1) = steps := by
    simp only [WalkPlan.depthAfter, descent]
    omega
  unfold WalkPlan.Allows StepsWithin
  rw [depth]
  exact or_congr (by omega) Iff.rfl

theorem exists_walk_iff_leadsTo :
    (∃ walk, (node.descent model table limit).IsWalk table walk ∧ walk.getLast? = some row ∧
      walk.length = steps) ↔
    ∃ top, table.LeadsTo row steps top ∧ node.IsTop model top ∧ StepsWithin limit steps := by
  constructor
  · rintro ⟨walk, made, last, rfl⟩
    obtain ⟨first, head, anchor⟩ := made.anchored
    exact ⟨first.parent, Table.leadsTo_iff_exists_walk.mpr
      ⟨walk, made.members, made.joined, rfl, last, by rw [head]; rfl⟩, satisfies_parent.mp anchor,
      (allows_descent (List.length_pos_iff.mpr made.ne_nil)).mp made.allowed⟩
  · rintro ⟨top, leads, isTop, within⟩
    have positive := leads.steps_pos
    obtain ⟨walk, members, chain, rfl, last, head⟩ := Table.leadsTo_iff_exists_walk.mp leads
    obtain ⟨first, isFirst, rfl⟩ := Option.map_eq_some_iff.mp head
    exact ⟨walk, ⟨⟨first, isFirst, satisfies_parent.mpr isTop⟩, members, chain,
      (allows_descent positive).mpr within⟩, last, rfl⟩

theorem counts_storedDepth (positive : 0 < steps) :
    ((node.descent model table limit).storedDepth (steps - 1)).Counts steps := by
  have stored : (node.descent model table limit).storedDepth (steps - 1) =
      if fitsInt64 steps then .int steps else Direction.down.farthest := by
    have counted := @WalkPlan.storedDepth_of_start (node.descent model table limit) (steps - 1) 1 rfl
      (@fits_of_near 1 (by decide))
    have whole : Direction.down.sign * (1 + (steps - 1) : Nat) = steps := by
      simp only [Direction.sign]
      omega
    exact whole ▸ counted
  rw [stored]
  refine ⟨fun d same => ?_, fun fits => if_pos fits⟩
  split at same
  · cases same
    rfl
  · cases same

/-- The rows of the query are those of the walks. -/
theorem mem_rows_iff_walk (keyed : table.IsKeyed setting.model.keyKind)
    (apart : setting.model.NamesApart) (built : setting.related (node.descendants limit) = .ok query)
    (accepted : TreeQuery.checkParameters query.parameters = .ok ())
    (found : query.rows? table = some rows) :
    treeRow ∈ rows ↔ ∃ walk, (node.descent setting.model table limit).IsWalk table walk ∧
      (node.descent setting.model table limit).storedRow walk = treeRow := by
  obtain ⟨source, -, built⟩ := bind_eq_ok.mp built
  obtain ⟨expression, compiled, built⟩ := bind_eq_ok.mp built
  obtain rfl := pure_eq_ok.mp built
  rw [TreeQuery.parameters_ofExpression] at accepted
  rw [TreeQuery.rows?_ofExpression] at found
  have fits : ((node.descendants limit).traversal setting.model).Fits setting.model
      (.equals (.column .parent) node.key) 1 limit :=
    Traversal.fits_ofModel_of_apart apart .down false limit
  have follows : expression.Follows (node.descent setting.model table limit) table :=
    follows_of_compile fits compiled table
  have bounded := ((checkParameters_of_compile fits compiled).mp accepted).2
  have stops : expression.StopsWith (node.descent setting.model table limit) table := by
    cases limit with
    | none => exact follows.stopsWith_of_unlimited rfl
    | some bound =>
      have taken : fitsInt64 (Direction.down.sign * bound) = true := by
        rw [Direction.sign, Int.one_mul]
        exact bounded bound rfl
      exact follows.stopsWith_of_fits bounded fun walk made =>
        WalkPlan.storedRow_eq_of_limit rfl (@fits_of_near 1 (by decide)) taken made
  obtain ⟨walks, -, mem_walks, complete⟩ := follows.exists_storedWalks keyed stops
    fun unlimited => avoidsCycles_of_rows? follows keyed unlimited found
  obtain rfl := Option.some.inj (found.symm.trans complete)
  simp only [List.mem_map, mem_walks]

section Rows

variable (keyed : table.IsKeyed setting.model.keyKind) (apart : setting.model.NamesApart)
  (built : setting.related (node.descendants limit) = .ok query)
  (accepted : TreeQuery.checkParameters query.parameters = .ok ())
  (found : query.rows? table = some rows)
include keyed apart built accepted found

theorem leadsTo_of_mem_rows (member : treeRow ∈ rows) :
    ∃ steps top, table.LeadsTo treeRow.row steps top ∧ node.IsTop setting.model top ∧
      StepsWithin limit steps ∧ treeRow.depth.Counts steps := by
  obtain ⟨walk, made, rfl⟩ := (mem_rows_iff_walk keyed apart built accepted found).mp member
  obtain ⟨last, isLast⟩ := List.getLast?_isSome.mpr made.ne_nil |> Option.isSome_iff_exists.mp
  have shown : ((node.descent setting.model table limit).storedRow walk).row = last := by
    simp [WalkPlan.storedRow, WalkPlan.rowOf, isLast]
  obtain ⟨top, leads, isTop, within⟩ := exists_walk_iff_leadsTo.mp ⟨walk, made, isLast, rfl⟩
  exact ⟨walk.length, top, shown ▸ leads, isTop, within,
    counts_storedDepth (List.length_pos_iff.mpr made.ne_nil)⟩

theorem exists_row_of_leadsTo {top : Value} (leads : table.LeadsTo row steps top)
    (isTop : node.IsTop setting.model top) (within : StepsWithin limit steps) :
    ∃ treeRow ∈ rows, treeRow.row = row ∧ treeRow.depth.Counts steps := by
  obtain ⟨walk, made, isLast, rfl⟩ := exists_walk_iff_leadsTo.mpr ⟨top, leads, isTop, within⟩
  refine ⟨_, (mem_rows_iff_walk keyed apart built accepted found).mpr ⟨walk, made, rfl⟩, ?_,
    counts_storedDepth leads.steps_pos⟩
  simp [WalkPlan.storedRow, WalkPlan.rowOf, isLast]

theorem leadsTo_key_of_mem_rows {key : Value} (known : node.key = key.toJson)
    (given : setting.model.keyKind.Admits key) (bindable : key.IsBindable) (member : treeRow ∈ rows) :
    ∃ steps, table.LeadsTo treeRow.row steps key ∧ treeRow.depth.Counts steps := by
  obtain ⟨steps, top, leads, isTop, -, counts⟩ :=
    leadsTo_of_mem_rows keyed apart built accepted found member
  obtain ⟨other, inside, isParent⟩ := leads.exists_parent
  have own := isParent ▸ keyed.parent other inside
  have hasKey := isTop.resolve_right fun ⟨unknown, _⟩ =>
    KeyKind.toJson_ne_null given (known.symm.trans unknown)
  obtain rfl := (hasKey_iff known given bindable own).mp hasKey
  exact ⟨steps, leads, counts⟩

/-- All rows lead to the node's key iff the node has a key, or no parent is null. -/
theorem forall_rows_lead_iff :
    (∀ treeRow ∈ rows, ∃ steps top, table.LeadsTo treeRow.row steps top ∧
      node.HasKey setting.model top ∧ treeRow.depth.Counts steps) ↔
    node.key ≠ .null ∨ ∀ row ∈ table, row.parent ≠ .null := by
  constructor
  · intro all
    by_cases none : node.key = .null
    · refine .inr fun row member isRoot => ?_
      obtain ⟨treeRow, listed, -⟩ := exists_row_of_leadsTo keyed apart built accepted found
        (.parent member) (.inr ⟨none, isRoot⟩) (.inl rfl)
      obtain ⟨-, top, -, hasKey, -⟩ := all treeRow listed
      exact not_hasKey_of_null none hasKey
    · exact .inl none
  · intro known treeRow member
    obtain ⟨steps, top, leads, isTop, -, counts⟩ :=
      leadsTo_of_mem_rows keyed apart built accepted found member
    refine ⟨steps, top, leads, isTop.resolve_right fun ⟨unknown, isNull⟩ => ?_, counts⟩
    obtain ⟨row, inside, isTop⟩ := leads.exists_parent
    exact known.elim (fun given => given unknown) fun noRoot => noRoot row inside (isTop.trans isNull)

end Rows

end NodeFields

/-! ## What a session answers -/

namespace Session

variable {setting : Setting} {session prepared after : Session} {node : NodeFields}
  {limit : Option Int} {query : TreeQuery} {nodes : List Entity}

theorem run_all_of_expression (recursive : query.expression.isSome = true)
    (answered : (all query).run.run session = (.ok nodes, after)) :
    ∃ prepared rows, (prepare query).run.run session = (.ok (), prepared) ∧
      query.rows? prepared.table = some rows ∧ after.table = prepared.table ∧
      nodes = (rows.map (firstOf rows)).map .ofTreeRow := by
  cases ran : (prepare query).run.run session with
  | mk result prepared =>
    cases result with
    | error fault =>
      have failed : (Session.rows query).run.run session = (.error fault, prepared) :=
        run_bind_of_error ran
      rw [all, run_bind_of_error failed] at answered
      cases answered
    | ok done =>
      have read := run_rows_of_prepare ran
      cases found : query.rows? prepared.table with
      | none =>
        rw [found] at read
        rw [all, run_bind_of_error read] at answered
        cases answered
      | some rows =>
        rw [found] at read
        rw [all, run_bind_of_ok read, run_take_of_expression recursive] at answered
        obtain ⟨⟨⟩, rfl⟩ := Prod.mk.inj answered
        exact ⟨prepared, rows, rfl, found, table_learnRows _ _, rfl⟩

/-- Whatever node it is and whatever its key: from each row that its descendants are answered with,
parent links lead up to the node's key in as many steps as the row is deep, or else the node has no key
and they lead to null; and all rows from which they do so within the limit are answered. So all rows
lead up to the node's key iff the node has a key or the table has no root. If the store keeps the node's
key as it is, they lead to this very value. -/
theorem descendants_lead_to_node (reachable : Reachable setting session)
    (apart : setting.model.NamesApart) (node : NodeFields) (limit : Option Int)
    (built : setting.related (node.descendants limit) = .ok query)
    (answered : (all query).run.run session = (.ok nodes, after)) :
    ∃ rows, query.rows? after.table = some rows ∧
      nodes = (rows.map (firstOf rows)).map .ofTreeRow ∧
      (∀ treeRow ∈ rows, ∃ steps top, after.table.LeadsTo treeRow.row steps top ∧
        node.IsTop setting.model top ∧ StepsWithin limit steps ∧ treeRow.depth.Counts steps) ∧
      (∀ row steps top, after.table.LeadsTo row steps top → node.IsTop setting.model top →
        StepsWithin limit steps → ∃ treeRow ∈ rows, treeRow.row = row ∧ treeRow.depth.Counts steps) ∧
      ((∀ treeRow ∈ rows, ∃ steps top, after.table.LeadsTo treeRow.row steps top ∧
          node.HasKey setting.model top ∧ treeRow.depth.Counts steps) ↔
        node.key ≠ .null ∨ ∀ row ∈ after.table, row.parent ≠ .null) ∧
      ∀ key : Value, node.key = key.toJson → setting.model.keyKind.Admits key → key.IsBindable →
        ∀ treeRow ∈ rows, ∃ steps, after.table.LeadsTo treeRow.row steps key ∧
          treeRow.depth.Counts steps := by
  have recursive : query.expression.isSome = true := by
    obtain ⟨source, -, made⟩ := bind_eq_ok.mp built
    obtain ⟨expression, -, made⟩ := bind_eq_ok.mp made
    obtain rfl := pure_eq_ok.mp made
    rfl
  obtain ⟨prepared, rows, ran, found, table, rfl⟩ := run_all_of_expression recursive answered
  have keeps : Keeps setting (fun _ => True) (prepare query) fun _ _ => True := keeps_prepare
  have coherent := (keeps session reachable.isCoherent trivial).1
  rw [ran] at coherent
  have keyed := coherent.tracked.keyed
  have accepted := accepted_of_prepare ran
  rw [table]
  exact ⟨rows, found, rfl,
    fun _ member => NodeFields.leadsTo_of_mem_rows keyed apart built accepted found member,
    fun _ _ _ leads isTop within =>
      NodeFields.exists_row_of_leadsTo keyed apart built accepted found leads isTop within,
    NodeFields.forall_rows_lead_iff keyed apart built accepted found,
    fun _ known given bindable _ member =>
      NodeFields.leadsTo_key_of_mem_rows keyed apart built accepted found known given bindable member⟩

/-- The second of three rows in a row is asked for what is below it, and so is a node without a key,
which has all three rows for descendants. -/
theorem descendants_lead_to_node_threeInARow :
    (∃ query rows, Setting.related { model := .standard }
        (NodeFields.descendants ⟨.int 2, .int 1, .str "two", .null, true⟩ none) = .ok query ∧
      query.rows? threeInARow = some rows ∧
      rows.map (fun treeRow => (treeRow.row.key, treeRow.depth)) = [(.int 3, .int 1)] ∧
      ∀ treeRow ∈ rows, ∃ steps top, threeInARow.LeadsTo treeRow.row steps top ∧
        NodeFields.HasKey ⟨.int 2, .int 1, .str "two", .null, true⟩ .standard top ∧
        treeRow.depth.Counts steps) ∧
    ∃ query rows, Setting.related { model := .standard }
        (NodeFields.descendants { label := .str "new" } none) = .ok query ∧
      query.rows? threeInARow = some rows ∧
      rows.map (fun treeRow => (treeRow.row.key, treeRow.depth)) =
        [(.int 1, .int 1), (.int 2, .int 2), (.int 3, .int 3)] ∧
      ¬ ∀ treeRow ∈ rows, ∃ steps top, threeInARow.LeadsTo treeRow.row steps top ∧
        NodeFields.HasKey { label := .str "new" } .standard top ∧ treeRow.depth.Counts steps := by
  have reachable : Reachable { model := .standard } (start { model := .standard } threeInARow) :=
    .start isKeyed_threeInARow (by simp [Table.HasLabels, threeInARow])
  have law {node : NodeFields} {query : TreeQuery} {rows : List TreeRow}
      (built : Setting.related { model := .standard } (node.descendants none) = .ok query)
      (bound : query.bound = true) (recursive : query.expression.isSome = true)
      (accepted : TreeQuery.checkParameters query.parameters = .ok ())
      (complete : query.rows? threeInARow = some rows) :
      (∀ treeRow ∈ rows, ∃ steps top, threeInARow.LeadsTo treeRow.row steps top ∧
        node.HasKey .standard top ∧ treeRow.depth.Counts steps) ↔
      node.key ≠ .null ∨ ∀ row ∈ threeInARow, row.parent ≠ .null := by
    have answered := run_all_of_flush bound recursive
      (@run_flush (start { model := .standard } threeInARow) rfl) rfl accepted complete
    have table : (overwrite rows (start { model := .standard } threeInARow)).table = threeInARow :=
      table_learnRows _ _
    obtain ⟨others, found, -, -, -, law, -⟩ :=
      descendants_lead_to_node reachable (by decide) node none built answered
    rw [table] at found law
    obtain rfl : rows = others := Option.some.inj (complete.symm.trans found)
    exact law
  refine ⟨?_, ?_⟩
  · have known : (NodeFields.mk (.int 2) (.int 1) (.str "two") .null true).key ≠ .null :=
      Json.noConfusion
    exact ⟨_, _, rfl, rfl, rfl, (law rfl rfl rfl rfl rfl).mpr (.inl known)⟩
  · refine ⟨_, _, rfl, rfl, rfl, fun all => ?_⟩
    rcases (law rfl rfl rfl rfl rfl).mp all with known | noRoot
    · exact known rfl
    · exact noRoot ⟨.int 1, .null, .text "one", none⟩ (by simp [threeInARow]) rfl

end Session
end AdjacencyForest
