import AdjacencyForest.Proofs.Compilation
import Mathlib.Data.List.ProdSigma

/-!
# How many rows a traversal has

The evaluation of a traversal ends, and the walks that it makes are few: on the way down no row is
met twice at one depth, whatever the anchor rows are, and without a limit no row is met twice from
one anchor row; on the way up each anchor row leads to one row at most on each level.

Main statements: `length_le_of_limit`, `length_startingAt_le` and, for a whole traversal,
`counts_of_traversal`.
-/

open Relation

namespace AdjacencyForest

namespace WalkPlan

/-- Those of some walks that begin with a row. -/
def startingAt (anchor : Row) (walks : List (List Row)) : List (List Row) :=
  walks.filter fun walk => walk.head?.map Row.key == some anchor.key

variable {plan : WalkPlan} {kind : KeyKind} {table : Table} {walk other : List Row}
  {walks : List (List Row)} {anchor : Row} {bound : Int}

theorem mem_startingAt : walk ∈ startingAt anchor walks ↔
    walk ∈ walks ∧ walk.head?.map Row.key = some anchor.key := by
  simp [startingAt]

/-- The row that a walk reaches. -/
def lastRow (walk : List Row) : Row := walk.getLast?.getD default

theorem IsWalk.getLast?_eq (made : plan.IsWalk table walk) :
    walk.getLast? = some (lastRow walk) := by
  rw [lastRow, List.getLast?_eq_some_getLast made.ne_nil, Option.getD_some]

theorem IsWalk.lastRow_mem (made : plan.IsWalk table walk) : lastRow walk ∈ table :=
  made.members _ (List.mem_of_getLast? made.getLast?_eq)

theorem nodup_lastKeys (keyed : table.IsKeyed kind) (members : ∀ walk ∈ walks, lastRow walk ∈ table)
    (once : (walks.map lastRow).Nodup) : (walks.map fun walk => (lastRow walk).key).Nodup :=
  once.of_map.map_on fun walk found other otherFound same =>
    List.inj_on_of_nodup_map once found otherFound
      (keyed.eq_of_key (members walk found) (members other otherFound) same)

theorem IsWalk.length_pos (made : plan.IsWalk table walk) : 0 < walk.length :=
  List.length_pos_iff.mpr made.ne_nil

theorem IsWalk.head?_eq (keyed : table.IsKeyed kind) (made : plan.IsWalk table walk)
    (otherMade : plan.IsWalk table other)
    (same : walk.head?.map Row.key = other.head?.map Row.key) : walk.head? = other.head? := by
  obtain ⟨first, head, -⟩ := made.anchored
  obtain ⟨otherFirst, otherHead, -⟩ := otherMade.anchored
  rw [head, otherHead] at same ⊢
  congr 1
  exact keyed.eq_of_key (made.members first (List.mem_of_head? head))
    (otherMade.members otherFirst (List.mem_of_head? otherHead)) (by simpa using same)

theorem storedDepth_inj (range : plan.InRange table) (made : plan.IsWalk table walk)
    (otherMade : plan.IsWalk table other)
    (same : (plan.storedRow walk).depth = (plan.storedRow other).depth) :
    walk.length = other.length := by
  have positive := made.length_pos
  have otherPositive := otherMade.length_pos
  rw [range.storedRow_eq made, range.storedRow_eq otherMade] at same
  unfold rowOf depthAfter at same
  cases direction : plan.direction <;> simp only [direction, Value.int.injEq] at same <;> omega

/-! ## On the way down -/

theorem nodup_key_depth (keyed : table.IsKeyed kind) (down : plan.direction = .down)
    (range : plan.InRange table) (nodup : walks.Nodup)
    (made : ∀ walk ∈ walks, plan.IsWalk table walk) :
    (walks.map fun walk => ((plan.storedRow walk).row.key, (plan.storedRow walk).depth)).Nodup := by
  refine nodup.map_on fun walk member other otherMember same => ?_
  obtain ⟨key, depth⟩ := Prod.mk.inj same
  have walkMade := made walk member
  have otherMade := made other otherMember
  refine walkMade.eq_of_getLast keyed down otherMade ?_
    (storedDepth_inj range walkMade otherMade depth)
  rw [walkMade.getLast?_eq, otherMade.getLast?_eq]
  exact congrArg some (keyed.eq_of_key walkMade.lastRow_mem otherMade.lastRow_mem key)

theorem IsWalk.steps_lt (down : plan.direction = .down) (given : plan.limit = some bound)
    (made : plan.IsWalk table walk) :
    walk.length - 1 < 1 + (max 0 (bound - plan.start)).toNat := by
  rcases made.allowed with none | allowed
  · omega
  · have within := allowed bound given
    simp only [down, depthAfter] at within
    omega

/-- A row and a level tell a walk, and there are as many levels as the limit leaves. -/
theorem length_le_of_limit (keyed : table.IsKeyed kind) (down : plan.direction = .down)
    (given : plan.limit = some bound) (nodup : walks.Nodup)
    (made : ∀ walk ∈ walks, plan.IsWalk table walk) :
    walks.length ≤ table.length * (1 + (max 0 (bound - plan.start)).toNat) := by
  have distinct : (walks.map fun walk => (lastRow walk, walk.length - 1)).Nodup := by
    refine nodup.map_on fun walk member other otherMember same => ?_
    obtain ⟨last, steps⟩ := Prod.mk.inj same
    have walkMade := made walk member
    have otherMade := made other otherMember
    have positive := walkMade.length_pos
    have otherPositive := otherMade.length_pos
    refine walkMade.eq_of_getLast keyed down otherMade ?_ (by omega)
    rw [walkMade.getLast?_eq, otherMade.getLast?_eq, last]
  have inside : (walks.map fun walk => (lastRow walk, walk.length - 1)) ⊆
      (table : List Row) ×ˢ List.range (1 + (max 0 (bound - plan.start)).toNat) := by
    intro pair found
    obtain ⟨walk, member, rfl⟩ := List.mem_map.mp found
    have walkMade := made walk member
    exact List.mem_product.mpr ⟨walkMade.lastRow_mem,
      List.mem_range.mpr (walkMade.steps_lt down given)⟩
  have most := (distinct.subperm inside).length_le
  rwa [List.length_map, List.length_product, List.length_range] at most

theorem IsWalk.eq_of_ends (keyed : table.IsKeyed kind) (down : plan.direction = .down)
    (free : plan.AvoidsCycles table) (made : plan.IsWalk table walk)
    (otherMade : plan.IsWalk table other) (head : walk.head? = other.head?)
    (last : walk.getLast? = other.getLast?) (shorter : walk.length ≤ other.length) :
    walk = other := by
  have chain := made.chain
  have otherChain := otherMade.chain
  rw [down] at chain otherChain
  obtain ⟨before, rfl⟩ := isSuffix_of_getLast keyed.functional_down chain otherChain made.ne_nil last
    shorter
  -- What stands before the shorter walk would begin with the row with which that begins.
  cases before with
  | nil => rfl
  | cons row rest =>
    have once := otherMade.nodup free
    obtain ⟨first, walkHead, -⟩ := made.anchored
    rw [walkHead, List.cons_append, List.head?_cons, Option.some.injEq] at head
    subst head
    rw [List.cons_append, List.nodup_cons] at once
    exact absurd (List.mem_append_right rest (List.mem_of_head? walkHead)) once.1

theorem length_startingAt_le (keyed : table.IsKeyed kind) (down : plan.direction = .down)
    (free : plan.AvoidsCycles table) (nodup : walks.Nodup)
    (made : ∀ walk ∈ walks, plan.IsWalk table walk) (anchor : Row) :
    (startingAt anchor walks).length ≤ table.length := by
  have distinct : ((startingAt anchor walks).map lastRow).Nodup := by
    refine (nodup.filter _).map_on fun walk member other otherMember same => ?_
    obtain ⟨member, head⟩ := mem_startingAt.mp member
    obtain ⟨otherMember, otherHead⟩ := mem_startingAt.mp otherMember
    have walkMade := made walk member
    have otherMade := made other otherMember
    have heads := walkMade.head?_eq keyed otherMade (head.trans otherHead.symm)
    have lasts : walk.getLast? = other.getLast? := by
      rw [walkMade.getLast?_eq, otherMade.getLast?_eq, same]
    rcases Nat.le_total walk.length other.length with shorter | longer
    · exact walkMade.eq_of_ends keyed down free otherMade heads lasts shorter
    · exact (otherMade.eq_of_ends keyed down free walkMade heads.symm lasts.symm longer).symm
  have inside : ∀ row ∈ (startingAt anchor walks).map lastRow, row ∈ table := by
    intro row found
    obtain ⟨walk, member, rfl⟩ := List.mem_map.mp found
    exact (made walk (mem_startingAt.mp member).1).lastRow_mem
  simpa using Table.length_le_of_nodup inside distinct

/-! ## On the way up -/

theorem nodup_depth_startingAt (keyed : table.IsKeyed kind) (up : plan.direction = .up)
    (range : plan.InRange table) (nodup : walks.Nodup)
    (made : ∀ walk ∈ walks, plan.IsWalk table walk) (anchor : Row) :
    ((startingAt anchor walks).map fun walk => (plan.storedRow walk).depth).Nodup := by
  refine (nodup.filter _).map_on fun walk member other otherMember same => ?_
  obtain ⟨member, head⟩ := mem_startingAt.mp member
  obtain ⟨otherMember, otherHead⟩ := mem_startingAt.mp otherMember
  have walkMade := made walk member
  have otherMade := made other otherMember
  exact walkMade.eq_of_head keyed up otherMade
    (walkMade.head?_eq keyed otherMade (head.trans otherHead.symm))
    (storedDepth_inj range walkMade otherMade same)

end WalkPlan

open RecursiveExpression

variable {model : TreeModel} {table : Table} {spec : Traversal} {criterion : Criterion}
  {start : Int} {limit : Option Int}

/-- The evaluation of a traversal ends with one row for each walk. On the way down a key and a depth
stand together in one row at most, so the limit bounds the count of rows; without a limit each anchor
row has no more rows than the table. On the way up each anchor row has one row at most for a depth.
Depths are told apart as long as they have 64 bits, which a limit makes sure of. -/
theorem counts_of_traversal (keyed : table.IsKeyed model.keyKind)
    (fits : spec.Fits model criterion start limit)
    (bounds : ∀ bound, limit = some bound →
      fitsInt64 start = true ∧ fitsInt64 bound = true ∧ fitsInt64 (-bound) = true)
    (finite : limit = none → (spec.plan model table criterion start limit).AvoidsCycles table) :
    ∃ expression, ∃ walks : List (List Row),
      compile .standard .sqlite model ⟨model.tableName, none⟩ spec = .ok expression ∧
      walks.Nodup ∧
      (∀ walk, walk ∈ walks ↔ (spec.plan model table criterion start limit).IsWalk table walk) ∧
      expression.rows? table =
        some (walks.map (spec.plan model table criterion start limit).storedRow) ∧
      match spec.direction with
      | .down =>
        ((limit = none → (spec.plan model table criterion start limit).InRange table) →
          (walks.map fun walk =>
            (((spec.plan model table criterion start limit).storedRow walk).row.key,
              ((spec.plan model table criterion start limit).storedRow walk).depth)).Nodup) ∧
        (∀ bound, limit = some bound →
          walks.length ≤ table.length * (1 + (max 0 (bound - start)).toNat)) ∧
        (limit = none → ∀ anchor, (WalkPlan.startingAt anchor walks).length ≤ table.length)
      | .up =>
        (limit = none → (spec.plan model table criterion start limit).InRange table) →
          ∀ anchor, ((WalkPlan.startingAt anchor walks).map fun walk =>
            ((spec.plan model table criterion start limit).storedRow walk).depth).Nodup := by
  have limited : ∀ bound, limit = some bound →
      (spec.plan model table criterion start limit).InRange table := fun bound given =>
    WalkPlan.inRange_of_limit given (bounds bound given).1 (bounds bound given).2.1
      (bounds bound given).2.2 table
  have inside (unlimited : limit = none →
      (spec.plan model table criterion start limit).InRange table) :
      (spec.plan model table criterion start limit).InRange table := by
    cases given : limit with
    | none => exact given ▸ unlimited given
    | some bound => exact given ▸ limited bound given
  have supported : Registry.standard.grammarFor .sqlite = .ok .sqlite := rfl
  obtain ⟨expression, compiled, walks, nodup, mem_walks, rows⟩ :=
    exists_storedRows keyed supported fits limited finite
  have made : ∀ walk ∈ walks, (spec.plan model table criterion start limit).IsWalk table walk :=
    fun walk member => (mem_walks walk).mp member
  refine ⟨expression, walks, compiled, nodup, mem_walks, rows, ?_⟩
  cases direction : spec.direction with
  | down =>
    refine ⟨fun unlimited => ?_, fun bound given => ?_, fun unlimited => ?_⟩
    · exact WalkPlan.nodup_key_depth keyed direction (inside unlimited) nodup made
    · have limited : (spec.plan model table criterion start limit).limit = some bound := given
      have most := WalkPlan.length_le_of_limit keyed direction limited nodup made
      exact most
    · exact WalkPlan.length_startingAt_le keyed direction (finite unlimited) nodup made
  | up =>
    exact fun unlimited =>
      WalkPlan.nodup_depth_startingAt keyed direction (inside unlimited) nodup made

/-- Two rows that are each other's parent, walked down to depth three: eight rows at most. -/
theorem counts_of_boundedDescent :
    ∃ expression, ∃ walks : List (List Row),
      compile .standard .sqlite .standard ⟨"nodes", none⟩ boundedDescent = .ok expression ∧
      expression.rows? mutualParents = some (walks.map
        (boundedDescent.plan .standard mutualParents (.equals (.column .key) (.int 1)) 0
          (some 3)).storedRow) ∧
      (walks.map fun walk =>
        (((boundedDescent.plan .standard mutualParents (.equals (.column .key) (.int 1)) 0
            (some 3)).storedRow walk).row.key,
          ((boundedDescent.plan .standard mutualParents (.equals (.column .key) (.int 1)) 0
            (some 3)).storedRow walk).depth)).Nodup ∧
      walks.length ≤ 8 := by
  obtain ⟨expression, walks, compiled, -, -, rows, once, few, -⟩ := counts_of_traversal
    (isKeyed_mutualParents : mutualParents.IsKeyed TreeModel.standard.keyKind)
    (Traversal.fits_ofModel .down true (some 3) : boundedDescent.Fits .standard
      (.equals (.column .key) (.int 1)) 0 (some 3))
    (by decide) (fun unlimited => absurd unlimited (Option.some_ne_none 3))
  exact ⟨expression, walks, compiled, rows, once fun unlimited => absurd unlimited (by simp),
    few 3 rfl⟩

def threeInARow : Table :=
  [⟨.int 1, .null, .text "one", none⟩, ⟨.int 2, .int 1, .text "two", none⟩,
    ⟨.int 3, .int 2, .text "three", none⟩]

theorem isKeyed_threeInARow : threeInARow.IsKeyed .integer where
  key := by simp [threeInARow, KeyKind.Admits]
  parent := by simp [threeInARow, KeyKind.Admits]
  distinct := by decide

theorem not_onCycle_threeInARow (row : Row) : ¬ threeInARow.OnCycle row := by
  let rank := fun row : Row => if row.key = .int 1 then 0 else if row.key = .int 2 then 1 else 2
  have falls : ∀ row ∈ threeInARow, ∀ next ∈ threeInARow, next.key = row.parent →
      rank next < rank row := by decide
  exact Table.not_onCycle_of_falls rank
    (fun _ _ joined => falls _ joined.1 _ joined.2.1 joined.2.2) row

/-- The first two rows and all below them, from the greatest depth of 64 bits on. -/
def overflowingDescent : Traversal :=
  .ofModel .standard .down (.criterion (.among (.column .key) [.int 1, .int 2]))
    (.int 0x7fffffffffffffff) false .null

/-- Beyond 64 bits depths are rounded: the third row is met twice at one depth. -/
theorem not_nodup_of_overflowingDescent :
    fitsInt64 0x7fffffffffffffff = true ∧ (∀ row, ¬ threeInARow.OnCycle row) ∧
      ∃ expression rows,
        compile .standard .sqlite .standard ⟨"nodes", none⟩ overflowingDescent = .ok expression ∧
        expression.rows? threeInARow = some rows ∧
        ¬ (rows.map fun treeRow => (treeRow.row.key, treeRow.depth)).Nodup := by
  have fits : overflowingDescent.Fits .standard (.among (.column .key) [.int 1, .int 2])
      0x7fffffffffffffff none := Traversal.fits_ofModel .down false none
  have supported : Registry.standard.grammarFor .sqlite = .ok .sqlite := rfl
  obtain ⟨expression, compiled, walks, -, mem_walks, rows⟩ := exists_storedRows isKeyed_threeInARow
    supported fits (by simp) (fun _ _ _ _ row _ => not_onCycle_threeInARow row)
  refine ⟨by decide, not_onCycle_threeInARow, expression, _, compiled, rows, fun nodup => ?_⟩
  rw [List.map_map] at nodup
  have short : threeInARow.drop 1 ∈ walks := (mem_walks _).mpr
    ⟨⟨_, rfl, by decide⟩, by simp [threeInARow], by decide, WalkPlan.allows_of_unlimited rfl _⟩
  have long : threeInARow ∈ walks := (mem_walks _).mpr
    ⟨⟨_, rfl, by decide⟩, fun _ => id, by decide, WalkPlan.allows_of_unlimited rfl _⟩
  have same := List.inj_on_of_nodup_map nodup short long (by decide +kernel)
  exact absurd (congrArg List.length same) (by decide)

end AdjacencyForest
