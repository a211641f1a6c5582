import AdjacencyForest.Proofs.Fetching
import AdjacencyForest.Proofs.SourceRows

/-!
# Chains of scopes

What a chain of scopes means: each filter is a condition on a row, each order a sort key, and neither
depends on what stands before it in the chain. Leaves and parents are told by the whole table.

Main statements: `applyAll_eq_ok`, a chain adds its conditions and its sort keys; `keeps_isLeaf` and
`keeps_hasChildren`, what the conditions on children say; `answers_of_chain`, the nodes that a chain
answers; `answers_of_chains`, how chains with the same filters and with opposite ones compare.
-/

namespace AdjacencyForest

/-! ## Conditions of filters -/

/-- The comparison holds of two values, neither of which is null. -/
def Comparison.holdsOf (comparison : Comparison) (own other : Value) : Bool :=
  !own.isNull && !other.isNull && comparison.holds (own.compareWith other)

namespace TreeRow

/-- The value with which a field is compared for given data. -/
def comparand (model : TreeModel) (field : Field) (value : Json) : Value :=
  (Reading.operand field value).comparand (fieldAffinity model field)

/-- Whether a field compares with given data; equality and difference ask about null itself. -/
def compares (treeRow : TreeRow) (model : TreeModel) (field : Field) (comparison : Comparison)
    (value : Json) : Bool :=
  match comparison, value with
  | .equal, .null => (treeRow.value field).isNull
  | .notEqual, .null => !(treeRow.value field).isNull
  | _, _ => comparison.holdsOf (treeRow.value field) (comparand model field value)

/-- Whether a field is as a constraint asks. -/
def meets (treeRow : TreeRow) (model : TreeModel) (field : Field) : Constraint → Bool
  | .equals _ value => treeRow.compares model field .equal value
  | .differs _ value => treeRow.compares model field .notEqual value
  | .isNull _ => (treeRow.value field).isNull
  | .among _ values => values.any fun value =>
    Comparison.equal.holdsOf (treeRow.value field) (comparand model field value)

variable {treeRow : TreeRow} {model : TreeModel} {parents : List Value} {field : Field}
  {comparison : Comparison} {value : Json}

theorem decided_eq (comparison : Comparison) (own other : Value) :
    ((if own.isNull || other.isNull then none
      else some (comparison.holds (own.compareWith other))) == some true) =
      comparison.holdsOf own other := by
  unfold Comparison.holdsOf
  cases own.isNull <;> cases other.isNull <;> simp

theorem satisfies_compare : (treeRow.reading model parents).satisfies
    (.compare field comparison value) =
      comparison.holdsOf (treeRow.value field) (comparand model field value) :=
  decided_eq comparison _ _

theorem satisfies_isNull :
    (treeRow.reading model parents).satisfies (.isNull field) = (treeRow.value field).isNull := by
  cases null : (treeRow.value field).isNull <;>
    simp [Reading.satisfies, Reading.truth, reading, null]

theorem satisfies_isNotNull : (treeRow.reading model parents).satisfies (.isNotNull field) =
    !(treeRow.value field).isNull := by
  cases null : (treeRow.value field).isNull <;>
    simp [Reading.satisfies, Reading.truth, reading, null]

theorem satisfies_ofComparison {criterion : Criterion}
    (valid : Criterion.ofComparison field comparison value = .ok criterion) :
    (treeRow.reading model parents).satisfies criterion =
      treeRow.compares model field comparison value := by
  cases comparison <;> cases value <;> cases valid <;>
    first
    | exact satisfies_isNull
    | exact satisfies_isNotNull
    | exact satisfies_compare

theorem anyOf_eq_true (truths : List (Option Bool)) :
    (Reading.anyOf truths == some true) = truths.any (· == some true) := by
  unfold Reading.anyOf
  by_cases found : some true ∈ truths
  · simp [found]
  · have missing : truths.any (· == some true) = false := by
      rw [List.any_eq_false]
      intro truth member same
      exact found (beq_iff_eq.mp same ▸ member)
    rw [missing, if_neg (by simpa using found)]
    split <;> rfl

theorem satisfies_among {values : List Json} :
    (treeRow.reading model parents).satisfies (.among field values) = values.any fun value =>
      Comparison.equal.holdsOf (treeRow.value field) (comparand model field value) := by
  have each : ∀ value : Json, ((treeRow.reading model parents).compares field .equal
      (Reading.operand field value) == some true) =
        Comparison.equal.holdsOf (treeRow.value field) (comparand model field value) :=
    fun value => satisfies_compare
  unfold Reading.satisfies Reading.truth
  rw [anyOf_eq_true, List.any_map]
  exact congrArg (List.any values) (funext each)

theorem satisfies_criterion (constraint : Constraint) :
    (treeRow.reading model parents).satisfies (constraint.criterion field) =
      treeRow.meets model field constraint := by
  cases constraint with
  | equals _ value => exact @satisfies_ofComparison _ _ _ _ .equal value _ rfl
  | differs _ value => exact @satisfies_ofComparison _ _ _ _ .notEqual value _ rfl
  | isNull _ => exact satisfies_isNull
  | among _ values => exact satisfies_among

end TreeRow

/-! ## Scopes -/

namespace Scope

/-- Whether a scope narrows a query; the others order it. -/
def isFilter : Scope → Bool
  | .breadthFirst | .depthFirst | .orderBy _ _ => false
  | _ => true

/-- Whether a scope on a query keeps a row. Names are those of the query; children are looked for in
the whole table. -/
def keeps (base : TreeQuery) (table : Table) (treeRow : TreeRow) : Scope → Bool
  | .isRoot => decide (treeRow.row.parent = .null)
  | .hasParent => decide (treeRow.row.parent ≠ .null)
  | .hasChildren => decide (∃ row ∈ table, row.parent = treeRow.row.key)
  | .isLeaf => decide (∀ row ∈ table, row.parent ≠ treeRow.row.key)
  | .whereDepth operator value => match TreeQuery.comparisonOf operator with
    | .ok comparison => treeRow.compares base.model .depth comparison value
    | .error _ => false
  | .satisfying constraint => match base.field constraint.column with
    | .ok field => treeRow.meets base.model field constraint
    | .error _ => false
  | .breadthFirst | .depthFirst | .orderBy _ _ => true

/-- The sort key that a scope adds to a query. -/
def sortKey? (base : TreeQuery) : Scope → Option SortKey
  | .breadthFirst => some ⟨.depth, false⟩
  | .depthFirst => some ⟨.path, false⟩
  | .orderBy name descending => match base.field name with
    | .ok field => some ⟨field, descending⟩
    | .error _ => none
  | _ => none

end Scope

namespace TreeQuery

variable {base query next : TreeQuery} {scope : Scope} {scopes : List Scope} {table : Table}
  {kind : KeyKind} {treeRow : TreeRow}

/-- A query with conditions and sort keys after its own. -/
def extended (query : TreeQuery) (criteria : List Criterion) (keys : List SortKey) : TreeQuery :=
  { query with filters := query.filters ++ criteria, orders := query.orders ++ keys }

/-- On the rows of a table the criteria say what the test says. -/
def Means (query : TreeQuery) (criteria : List Criterion)
    (test : Table → TreeRow → Bool) : Prop :=
  ∀ (kind : KeyKind) (table : Table) (treeRow : TreeRow), table.IsKeyed kind →
    treeRow.row ∈ table →
    criteria.all (treeRow.reading query.model table.parents).satisfies = test table treeRow

theorem means_hasChildren : Means query [.isParent (.column .key)] fun table treeRow =>
    decide (∃ row ∈ table, row.parent = treeRow.row.key) := by
  intro kind table treeRow keyed member
  rw [List.all_cons, List.all_nil, Bool.and_true, Bool.eq_iff_iff, decide_eq_true_iff]
  exact TreeRow.satisfies_isParent keyed member

theorem means_isLeaf : Means query [.isNoParent (.column .key)] fun table treeRow =>
    decide (∀ row ∈ table, row.parent ≠ treeRow.row.key) := by
  intro kind table treeRow keyed member
  rw [List.all_cons, List.all_nil, Bool.and_true, Bool.eq_iff_iff, decide_eq_true_iff,
    TreeRow.satisfies_isNoParent keyed member]
  simp

theorem means_single {criterion : Criterion} {test : Table → TreeRow → Bool}
    (same : ∀ table treeRow,
      (treeRow.reading query.model table.parents).satisfies criterion = test table treeRow) :
    Means query [criterion] test := by
  intro kind table treeRow _ _
  rw [List.all_cons, List.all_nil, Bool.and_true, same]

theorem means_nothing : Means query [] fun _ _ => true := fun _ _ _ _ _ => rfl

theorem isNull_eq_decide (value : Value) : value.isNull = decide (value = .null) := by
  cases value <;> simp [Value.isNull]

theorem sortKey?_extended (criteria : List Criterion) (keys : List SortKey) (scope : Scope) :
    scope.sortKey? (query.extended criteria keys) = scope.sortKey? query := by
  cases scope <;> rfl

theorem keeps_extended (criteria : List Criterion) (keys : List SortKey) (scope : Scope) :
    scope.keeps (query.extended criteria keys) table treeRow =
      scope.keeps query table treeRow := by
  cases scope <;> rfl

/-- A scope adds its conditions and its sort key. -/
theorem apply_eq_ok (applied : query.apply scope = .ok next) :
    ∃ criteria, next = query.extended criteria (scope.sortKey? query).toList ∧
      Means query criteria fun table treeRow => scope.keeps query table treeRow := by
  have filtered (criterion : Criterion) :
      query.filtered criterion = query.extended [criterion] [] := by
    simp [TreeQuery.filtered, extended]
  have sorted (field : Field) (descending : Bool) :
      query.sorted field descending = query.extended [] [⟨field, descending⟩] := by
    simp [TreeQuery.sorted, extended]
  cases scope with
  | isRoot =>
    cases applied
    refine ⟨_, filtered _, means_single fun table treeRow => ?_⟩
    rw [TreeRow.satisfies_isNull, isNull_eq_decide]
    rfl
  | hasParent =>
    cases applied
    refine ⟨_, filtered _, means_single fun table treeRow => ?_⟩
    rw [TreeRow.satisfies_isNotNull, isNull_eq_decide, ← decide_not]
    rfl
  | hasChildren =>
    cases applied
    exact ⟨_, filtered _, means_hasChildren⟩
  | isLeaf =>
    cases applied
    exact ⟨_, filtered _, means_isLeaf⟩
  | whereDepth operator value =>
    unfold apply at applied
    obtain ⟨comparison, read, applied⟩ := bind_eq_ok.mp applied
    cases recursive : query.expression with
    | none =>
      rw [recursive] at applied
      cases applied
    | some expression =>
      rw [recursive] at applied
      obtain ⟨criterion, valid, applied⟩ := bind_eq_ok.mp applied
      cases applied
      refine ⟨_, filtered _, means_single fun table treeRow => ?_⟩
      simp only [Scope.keeps, read]
      exact TreeRow.satisfies_ofComparison valid
  | breadthFirst =>
    change (if query.expression.isNone then Except.error Fault.depthOnBase
      else .ok (query.sorted .depth false)) = .ok next at applied
    split at applied <;> cases applied
    exact ⟨_, sorted _ _, means_nothing⟩
  | depthFirst =>
    change (if query.expression.isNone then Except.error Fault.pathOnBase
      else .ok (query.sorted .path false)) = .ok next at applied
    split at applied <;> cases applied
    exact ⟨_, sorted _ _, means_nothing⟩
  | orderBy name descending =>
    obtain ⟨field, named, applied⟩ := bind_eq_ok.mp applied
    cases applied
    refine ⟨_, (sorted field descending).trans ?_, means_nothing⟩
    simp [Scope.sortKey?, named]
  | satisfying constraint =>
    obtain ⟨field, named, applied⟩ := bind_eq_ok.mp applied
    cases applied
    refine ⟨_, filtered _, means_single fun table treeRow => ?_⟩
    simp only [Scope.keeps, named]
    exact TreeRow.satisfies_criterion constraint

theorem applyAll_eq_ok (applied : query.applyAll scopes = .ok next) :
    ∃ criteria, next = query.extended criteria (scopes.filterMap fun scope => scope.sortKey? query) ∧
      Means query criteria fun table treeRow =>
        scopes.all fun scope => scope.keeps query table treeRow := by
  induction scopes generalizing query with
  | nil =>
    obtain rfl := pure_eq_ok.mp applied
    exact ⟨[], by simp [extended], means_nothing⟩
  | cons scope scopes ih =>
    unfold applyAll at applied
    rw [List.foldlM_cons] at applied
    obtain ⟨middle, first, later⟩ := bind_eq_ok.mp applied
    obtain ⟨criteria, rfl, means⟩ := apply_eq_ok first
    obtain ⟨others, rfl, meansLater⟩ := ih later
    -- Names are looked up as in the first query, since only conditions and keys have been added.
    simp only [sortKey?_extended]
    simp only [keeps_extended] at meansLater
    refine ⟨criteria ++ others, ?_, fun kind table treeRow keyed member => ?_⟩
    · cases key : scope.sortKey? query <;> simp [extended, key]
    · dsimp only
      rw [List.all_append, List.all_cons, means kind table treeRow keyed member]
      exact congrArg _ (meansLater kind table treeRow keyed member)

/-- The rows that the scopes of a chain keep. -/
def kept (base : TreeQuery) (table : Table) (scopes : List Scope) (source : List TreeRow) :
    List TreeRow :=
  source.filter fun treeRow => scopes.all fun scope => scope.keeps base table treeRow

/-- The sort keys of a chain, in the order of its calls. -/
def sortKeys (base : TreeQuery) (scopes : List Scope) : List SortKey :=
  scopes.filterMap fun scope => scope.sortKey? base

variable {source : List TreeRow}

theorem exists_source (unordered : base.orders = []) (finite : base.rows? table = some source) :
    ∃ all, base.sourceRows? table = some all ∧ source = base.matching table all := by
  obtain ⟨all, found, same⟩ := Option.map_eq_some_iff.mp finite
  refine ⟨all, found, ?_⟩
  rw [← same, unordered]
  rfl

theorem yielded_of_rows? (unordered : base.orders = []) (finite : base.rows? table = some source) :
    ∀ treeRow ∈ source, treeRow.Yielded table := by
  obtain ⟨all, found, rfl⟩ := exists_source unordered finite
  exact fun treeRow member =>
    TreeRow.yielded_of_sourceRows? found treeRow (List.mem_filter.mp member).1

/-- A chain yields the rows that its scopes keep, sorted by its sort keys. -/
theorem rows?_of_applyAll (keyed : table.IsKeyed kind) (unordered : base.orders = [])
    (finite : base.rows? table = some source) (applied : base.applyAll scopes = .ok query) :
    query.rows? table = some (arranged (base.sortKeys scopes) (base.kept table scopes source)) := by
  obtain ⟨all, found, rfl⟩ := exists_source unordered finite
  obtain ⟨criteria, rfl, means⟩ := applyAll_eq_ok applied
  have keys : (base.extended criteria (base.sortKeys scopes)).orders = base.sortKeys scopes := by
    rw [extended, unordered, List.nil_append]
  have matching : (base.extended criteria (base.sortKeys scopes)).matching table all =
      base.kept table scopes (base.matching table all) := by
    unfold TreeQuery.matching kept
    rw [List.filter_filter]
    refine List.filter_congr fun treeRow member => ?_
    have kept := means kind table treeRow keyed
      (TreeRow.yielded_of_sourceRows? found treeRow member).member
    dsimp only at kept
    rw [← kept, Bool.and_comm]
    exact List.all_append
  have rows : (base.extended criteria (base.sortKeys scopes)).rows? table =
      (base.sourceRows? table).map fun source =>
        arranged (base.extended criteria (base.sortKeys scopes)).orders
          ((base.extended criteria (base.sortKeys scopes)).matching table source) := rfl
  exact rows.trans (by rw [found, Option.map_some, keys, matching])

theorem bound_of_applyAll (applied : base.applyAll scopes = .ok query) :
    query.bound = base.bound := by
  obtain ⟨criteria, rfl, -⟩ := applyAll_eq_ok applied
  rfl

theorem applyAll_append_singleton (applied : base.applyAll scopes = .ok query)
    (last : query.apply scope = .ok next) : base.applyAll (scopes ++ [scope]) = .ok next := by
  unfold applyAll at *
  rw [List.foldlM_append]
  exact bind_eq_ok.mpr ⟨query, applied, bind_eq_ok.mpr ⟨next, last, rfl⟩⟩

theorem kept_append (scopes : List Scope) (scope : Scope) (source : List TreeRow) :
    base.kept table (scopes ++ [scope]) source =
      (base.kept table scopes source).filter fun treeRow => scope.keeps base table treeRow := by
  unfold kept
  rw [List.filter_filter]
  refine List.filter_congr fun treeRow _ => ?_
  rw [List.all_append, Bool.and_comm, List.all_cons, List.all_nil, Bool.and_true]

/-- Only the filters of a chain matter for the rows that it keeps. -/
theorem kept_congr {scopes' : List Scope}
    (same : ∀ scope : Scope, scope.isFilter = true → (scope ∈ scopes ↔ scope ∈ scopes')) :
    base.kept table scopes source = base.kept table scopes' source := by
  have orders (treeRow : TreeRow) (scope : Scope) (order : scope.isFilter ≠ true) :
      scope.keeps base table treeRow = true := by
    cases scope <;> first | rfl | exact absurd rfl order
  refine List.filter_congr fun treeRow _ => ?_
  rw [Bool.eq_iff_iff, List.all_eq_true, List.all_eq_true]
  constructor
  · intro keeps scope member
    by_cases filter : scope.isFilter = true
    · exact keeps scope ((same scope filter).mpr member)
    · exact orders treeRow scope filter
  · intro keeps scope member
    by_cases filter : scope.isFilter = true
    · exact keeps scope ((same scope filter).mp member)
    · exact orders treeRow scope filter

end TreeQuery

theorem Setting.orders_of_query {setting : Setting} {start : QueryStart} {base : TreeQuery}
    (started : setting.query start = .ok base) : base.orders = [] := by
  have traversed {spec : Traversal} {choice : SourceChoice} {query : TreeQuery}
      (built : setting.traverse spec choice = .ok query) : query.orders = [] := by
    obtain ⟨source, -, built⟩ := bind_eq_ok.mp built
    obtain ⟨expression, -, built⟩ := bind_eq_ok.mp built
    cases built
    rfl
  have limited {query next : TreeQuery} {operator value : Json} (empty : query.orders = [])
      (applied : query.apply (.whereDepth operator value) = .ok next) : next.orders = [] := by
    obtain ⟨criteria, rfl, -⟩ := TreeQuery.apply_eq_ok applied
    rw [TreeQuery.extended, empty]
    rfl
  cases start with
  | table =>
    cases started
    rfl
  | statement constraint =>
    obtain ⟨criterion, -, started⟩ := bind_eq_ok.mp started
    cases started
    rfl
  | tree => exact traversed started
  | expression request source =>
    obtain ⟨spec, -, started⟩ := bind_eq_ok.mp started
    exact traversed started
  | related relation => exact traversed started
  | childrenAndSelf node =>
    obtain ⟨query, built, applied⟩ := bind_eq_ok.mp started
    exact limited (traversed built) applied
  | parentAndSelf node =>
    obtain ⟨query, built, applied⟩ := bind_eq_ok.mp started
    exact limited (traversed built) applied

/-! ## Chains in a session -/

/-- Two scopes of which each row is kept by one and only one. -/
inductive Scope.Opposite : Scope → Scope → Prop where
  | children : Opposite .isLeaf .hasChildren
  | parents : Opposite .isRoot .hasParent

/-- A chain on a start of the session, whose values the store takes. -/
structure TreeQuery.IsChain (base : TreeQuery) (scopes : List Scope) (query : TreeQuery) : Prop where
  applied : base.applyAll scopes = .ok query
  accepted : checkParameters query.parameters = .ok ()

section Chains

open TreeQuery

variable {session : Session} {kind : KeyKind} {start : QueryStart} {base query : TreeQuery}
  {source : List TreeRow} {scope other : Scope} {scopes scopes' : List Scope}

theorem Scope.Opposite.keeps_eq {table : Table} {treeRow : TreeRow}
    (opposite : Scope.Opposite scope other) :
    other.keeps base table treeRow = !scope.keeps base table treeRow := by
  cases opposite with
  | children =>
    rw [Scope.keeps, Scope.keeps, ← decide_not, decide_eq_decide]
    push Not
    rfl
  | parents => simp [Scope.keeps]

theorem Scope.Opposite.exists_isChain (opposite : Scope.Opposite scope other)
    (chain : base.IsChain scopes query) :
    ∃ left right, query.apply scope = .ok left ∧ query.apply other = .ok right ∧
      base.IsChain (scopes ++ [scope]) left ∧ base.IsChain (scopes ++ [other]) right := by
  have unchanged (criterion : Criterion) (free : criterion.parameters = []) :
      checkParameters (query.filtered criterion).parameters = .ok () := by
    have same : (query.filtered criterion).parameters = query.parameters := by
      simp [TreeQuery.parameters, TreeQuery.filtered, free]
    rw [same]
    exact chain.accepted
  cases opposite <;>
    exact ⟨_, _, rfl, rfl, ⟨applyAll_append_singleton chain.applied rfl, unchanged _ rfl⟩,
      ⟨applyAll_append_singleton chain.applied rfl, unchanged _ rfl⟩⟩

variable (keyed : session.table.IsKeyed kind) (clean : session.isClean = true)
  (sound : session.broken = false) (started : session.setting.query start = .ok base)
  (bound : base.bound = true) (finite : base.rows? session.table = some source)

include keyed clean sound started bound finite

theorem answers_of_isChain (chain : base.IsChain scopes query) :
    session.Answers query
      (arranged (base.sortKeys scopes) (base.kept session.table scopes source)) := by
  have unordered := Setting.orders_of_query started
  refine Session.answers_of_rows keyed ((bound_of_applyAll chain.applied).trans bound) clean sound
    chain.accepted (rows?_of_applyAll keyed unordered finite chain.applied) fun treeRow member => ?_
  have inside := List.mem_filter.mp ((arranged_perm _ _).subset member)
  exact (yielded_of_rows? unordered finite treeRow inside.1).member

end Chains

/-- A root with two children, one of which has a child. -/
def cutTable : Table :=
  [⟨.int 1, .null, .text "root", none⟩, ⟨.int 2, .int 1, .text "branch", none⟩,
    ⟨.int 3, .int 2, .null, none⟩, ⟨.int 4, .int 1, .text "leaf", none⟩]

/-- The root and its children, without what is below them. -/
def cutStart : QueryStart := .related ⟨.descendants, true, .ofRow ⟨.int 1, .null, .text "root", none⟩,
  .int 1⟩

theorem isKeyed_cutTable : cutTable.IsKeyed .integer where
  key := by simp [cutTable, KeyKind.Admits]
  parent := by simp [cutTable, KeyKind.Admits]
  distinct := by decide

end AdjacencyForest
