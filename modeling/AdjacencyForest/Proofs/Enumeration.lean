import AdjacencyForest.Proofs.Walks

/-!
# Walks by their length

All walks of a plan over a table, listed by the number of their steps: walks of one more step are the
walks of a length, each with every row that can come next.

Main statements: `mem_walks`, the lists hold exactly the walks of the plan; `nodup_walks`, each walk
once; `length_walks_le`, no list is longer than one row of the table for each anchor;
`walks_eq_nil_of_limit` and `walks_eq_nil_of_avoidsCycles` say from where on they are empty.
-/

open Relation

namespace AdjacencyForest.WalkPlan

def continues (plan : WalkPlan) (steps : Nat) : Bool :=
  match plan.limit with
  | none => true
  | some limit => match plan.direction with
    | .up => decide (-limit < plan.depthAfter steps)
    | .down => decide (plan.depthAfter steps < limit)

def following (plan : WalkPlan) (table : Table) (walk : List Row) : List Row :=
  List.filter (fun row => decide (∀ last ∈ walk.getLast?, plan.direction.Joins last row)) table

def extensions (plan : WalkPlan) (table : Table) (walk : List Row) : List (List Row) :=
  if plan.continues (walk.length - 1) then (plan.following table walk).map fun row => walk ++ [row]
  else []

def walks (plan : WalkPlan) (table : Table) : Nat → List (List Row)
  | 0 => (List.filter plan.isAnchor table).map fun row => [row]
  | steps + 1 => (plan.walks table steps).flatMap (plan.extensions table)

variable {plan : WalkPlan} {kind : KeyKind} {table : Table} {walk other : List Row} {steps : Nat}

theorem continues_iff : plan.continues steps = true ↔ plan.Allows (steps + 1) := by
  unfold continues Allows depthAfter
  cases plan.limit with
  | none => simp
  | some limit => cases plan.direction <;> simp <;> omega

theorem allows_of_succ (allowed : plan.Allows (steps + 1)) : plan.Allows steps := by
  unfold Allows depthAfter at *
  cases steps with
  | zero => exact .inl rfl
  | succ steps =>
    refine .inr fun limit given => ?_
    have bound := (allowed.resolve_left (by omega)) limit given
    cases direction : plan.direction <;> simp only [direction] at bound ⊢ <;> omega

theorem mem_following {row : Row} :
    row ∈ plan.following table walk ↔
      row ∈ table ∧ ∀ last ∈ walk.getLast?, plan.direction.Joins last row := by
  simp [following]

theorem mem_extensions : walk ∈ plan.extensions table other ↔
    plan.Allows (other.length - 1 + 1) ∧ ∃ row ∈ table,
      (∀ last ∈ other.getLast?, plan.direction.Joins last row) ∧ walk = other ++ [row] := by
  unfold extensions
  split
  next more =>
    simp only [continues_iff.mp more, true_and, List.mem_map, mem_following, and_assoc, eq_comm]
  next done =>
    simp [← continues_iff, done]

theorem IsWalk.ne_nil (made : plan.IsWalk table walk) : walk ≠ [] := by
  rintro rfl
  obtain ⟨row, head, _⟩ := made.anchored
  simp at head

theorem IsWalk.chain (made : plan.IsWalk table walk) :
    walk.IsChain (table.Joined plan.direction) :=
  List.IsChain.imp_of_mem_imp (fun a b first second joined =>
    ⟨made.members a first, made.members b second, joined⟩) made.joined

theorem isWalk_append_singleton {row : Row} (nonempty : walk ≠ []) :
    plan.IsWalk table (walk ++ [row]) ↔ plan.IsWalk table walk ∧ row ∈ table ∧
      (∀ last ∈ walk.getLast?, plan.direction.Joins last row) ∧
      plan.Allows (walk.length - 1 + 1) := by
  have positive : 0 < walk.length := List.length_pos_iff.mpr nonempty
  have length : (walk ++ [row]).length - 1 = walk.length - 1 + 1 := by simp; omega
  constructor
  · rintro ⟨⟨first, head, anchor⟩, members, joined, allowed⟩
    rw [length] at allowed
    obtain ⟨before, -, link⟩ := List.isChain_append.mp joined
    refine ⟨⟨⟨first, ?_, anchor⟩, ?_, before, allows_of_succ allowed⟩, ?_, ?_, allowed⟩
    · rwa [List.head?_append_of_ne_nil _ nonempty] at head
    · exact fun row member => members row (by simp [member])
    · exact members row (by simp)
    · exact fun last found => link last found row (by simp)
  · rintro ⟨⟨⟨first, head, anchor⟩, members, joined, -⟩, member, link, allowed⟩
    refine ⟨⟨first, ?_, anchor⟩, ?_, ?_, length ▸ allowed⟩
    · rwa [List.head?_append_of_ne_nil _ nonempty]
    · intro other found
      rcases List.mem_append.mp found with found | found
      · exact members other found
      · rwa [List.mem_singleton.mp found]
    · refine List.isChain_append.mpr ⟨joined, .singleton _, fun last found next given => ?_⟩
      simp only [List.head?_cons, Option.mem_def, Option.some.injEq] at given
      exact given ▸ link last found

theorem mem_walks : walk ∈ plan.walks table steps ↔
    plan.IsWalk table walk ∧ walk.length = steps + 1 := by
  -- `walks` extends the walks of one step less by a row at their end, and so does the proof.
  induction steps generalizing walk with
  | zero =>
    simp only [walks, List.mem_map, List.mem_filter]
    constructor
    · rintro ⟨row, ⟨member, anchor⟩, rfl⟩
      exact ⟨⟨⟨row, rfl, anchor⟩, by simpa using member, .singleton _, .inl rfl⟩, rfl⟩
    · rintro ⟨made, length⟩
      obtain ⟨row, rfl⟩ := List.length_eq_one_iff.mp length
      obtain ⟨first, head, anchor⟩ := made.anchored
      obtain rfl : row = first := by simpa using head
      exact ⟨row, ⟨made.members row (by simp), anchor⟩, rfl⟩
  | succ steps ih =>
    simp only [walks, List.mem_flatMap, ih, mem_extensions]
    constructor
    · rintro ⟨before, ⟨made, length⟩, allowed, row, member, link, rfl⟩
      exact ⟨(isWalk_append_singleton made.ne_nil).mpr ⟨made, member, link, allowed⟩,
        by simp [length]⟩
    · rintro ⟨made, length⟩
      obtain ⟨before, row, rfl⟩ := (List.eq_nil_or_concat' walk).resolve_left made.ne_nil
      have short : before.length = steps + 1 := by simpa using length
      have nonempty : before ≠ [] := List.ne_nil_of_length_pos (by omega)
      obtain ⟨earlier, member, link, allowed⟩ := (isWalk_append_singleton nonempty).mp made
      exact ⟨before, ⟨earlier, short⟩, allowed, row, member, link, rfl⟩

theorem nodup_walks (keyed : table.IsKeyed kind) : (plan.walks table steps).Nodup := by
  induction steps with
  | zero =>
    refine (keyed.nodup.filter _).map fun row other same => ?_
    simpa using same
  | succ steps ih =>
    refine List.nodup_flatMap.mpr ⟨fun walk _ => ?_, ?_⟩
    · unfold extensions
      split
      · refine (keyed.nodup.filter _).map fun row other same => ?_
        simpa using same
      · exact List.nodup_nil
    · refine ih.imp fun {before later} different => ?_
      refine List.disjoint_left.mpr ?_
      intro walk found foundLater
      obtain ⟨-, row, -, -, rfl⟩ := mem_extensions.mp found
      obtain ⟨-, other, -, -, same⟩ := mem_extensions.mp foundLater
      exact different (List.append_inj' same rfl).1

theorem IsWalk.eq_of_head (keyed : table.IsKeyed kind) (up : plan.direction = .up)
    (made : plan.IsWalk table walk) (otherMade : plan.IsWalk table other)
    (head : walk.head? = other.head?) (length : walk.length = other.length) : walk = other := by
  have chain := made.chain
  have otherChain := otherMade.chain
  rw [up] at chain otherChain
  exact AdjacencyForest.eq_of_head keyed.functional_up chain otherChain head length

theorem IsWalk.eq_of_getLast (keyed : table.IsKeyed kind) (down : plan.direction = .down)
    (made : plan.IsWalk table walk) (otherMade : plan.IsWalk table other)
    (last : walk.getLast? = other.getLast?) (length : walk.length = other.length) :
    walk = other := by
  have chain := made.chain
  have otherChain := otherMade.chain
  rw [down] at chain otherChain
  exact AdjacencyForest.eq_of_getLast keyed.functional_down chain otherChain last length

theorem length_walks_le_of_up (keyed : table.IsKeyed kind) (up : plan.direction = .up) :
    (plan.walks table steps).length ≤ (List.filter plan.isAnchor table).length := by
  have distinct : ((plan.walks table steps).map fun walk => walk.head?.getD default).Nodup := by
    refine (nodup_walks keyed).map_on fun walk made other otherMade same => ?_
    obtain ⟨made, length⟩ := mem_walks.mp made
    obtain ⟨otherMade, otherLength⟩ := mem_walks.mp otherMade
    refine made.eq_of_head keyed up otherMade ?_ (length.trans otherLength.symm)
    obtain ⟨first, head, -⟩ := made.anchored
    obtain ⟨otherFirst, otherHead, -⟩ := otherMade.anchored
    simp_all
  have anchors : ((plan.walks table steps).map fun walk => walk.head?.getD default) ⊆
      List.filter plan.isAnchor table := by
    intro row found
    obtain ⟨walk, made, rfl⟩ := List.mem_map.mp found
    obtain ⟨made, -⟩ := mem_walks.mp made
    obtain ⟨first, head, anchor⟩ := made.anchored
    rw [head, Option.getD_some]
    exact List.mem_filter.mpr ⟨made.members first (List.mem_of_head? head), anchor⟩
  simpa using (distinct.subperm anchors).length_le

theorem length_walks_le_of_down (keyed : table.IsKeyed kind) (down : plan.direction = .down) :
    (plan.walks table steps).length ≤ table.length := by
  have distinct : ((plan.walks table steps).map fun walk => walk.getLast?.getD default).Nodup := by
    refine (nodup_walks keyed).map_on fun walk made other otherMade same => ?_
    obtain ⟨made, length⟩ := mem_walks.mp made
    obtain ⟨otherMade, otherLength⟩ := mem_walks.mp otherMade
    refine made.eq_of_getLast keyed down otherMade ?_ (length.trans otherLength.symm)
    have last := List.getLast?_eq_some_getLast made.ne_nil
    have otherLast := List.getLast?_eq_some_getLast otherMade.ne_nil
    simp_all
  have members : ∀ row ∈ (plan.walks table steps).map fun walk => walk.getLast?.getD default,
      row ∈ table := by
    intro row found
    obtain ⟨walk, made, rfl⟩ := List.mem_map.mp found
    obtain ⟨made, -⟩ := mem_walks.mp made
    rw [List.getLast?_eq_some_getLast made.ne_nil, Option.getD_some]
    exact made.members _ (List.getLast_mem made.ne_nil)
  simpa using Table.length_le_of_nodup members distinct

/-- On the way up a walk is told by its anchor, on the way down by the row that it reaches. -/
theorem length_walks_le (keyed : table.IsKeyed kind) :
    (plan.walks table steps).length ≤ match plan.direction with
      | .up => (List.filter plan.isAnchor table).length
      | .down => table.length := by
  cases direction : plan.direction with
  | up => exact length_walks_le_of_up keyed direction
  | down => exact length_walks_le_of_down keyed direction

theorem length_walks_le_mul (keyed : table.IsKeyed kind) :
    (plan.walks table steps).length ≤
      (List.filter plan.isAnchor table).length * List.length table := by
  have anchors : (List.filter plan.isAnchor table).length ≤ List.length table :=
    List.length_filter_le _ _
  have bound : (plan.walks table steps).length ≤ _ := length_walks_le keyed
  by_cases none : (List.filter plan.isAnchor table).length = 0
  · rw [none, Nat.zero_mul, Nat.le_zero, List.length_eq_zero_iff]
    refine List.eq_nil_iff_forall_not_mem.mpr fun walk made => ?_
    obtain ⟨made, -⟩ := mem_walks.mp made
    obtain ⟨first, head, anchor⟩ := made.anchored
    have found := List.mem_filter.mpr ⟨made.members first (List.mem_of_head? head), anchor⟩
    rw [List.length_eq_zero_iff.mp none] at found
    exact absurd found List.not_mem_nil
  · cases direction : plan.direction with
    | up =>
      simp only [direction] at bound
      exact bound.trans (Nat.le_mul_of_pos_right _ (by omega))
    | down =>
      simp only [direction] at bound
      exact bound.trans (Nat.le_mul_of_pos_left _ (by omega))

theorem walks_eq_nil_of_limit {limit : Int} (given : plan.limit = some limit)
    (beyond : match plan.direction with
      | .up => plan.depthAfter steps < -limit
      | .down => limit < plan.depthAfter steps)
    (some_step : 0 < steps) : plan.walks table steps = [] := by
  refine List.eq_nil_iff_forall_not_mem.mpr fun walk made => ?_
  obtain ⟨made, length⟩ := mem_walks.mp made
  have allowed := (made.allowed.resolve_left (by omega)) limit given
  rw [length, Nat.add_sub_cancel] at allowed
  cases direction : plan.direction <;> simp only [direction] at beyond allowed <;> omega

/-- A walk that met a row twice would go around a cycle. -/
theorem IsWalk.nodup (made : plan.IsWalk table walk) (free : plan.AvoidsCycles table) :
    walk.Nodup := by
  by_contra repeated
  obtain ⟨first, head, anchor⟩ := made.anchored
  obtain ⟨rest, rfl⟩ := List.head?_eq_some_iff.mp head
  obtain ⟨row, reached, cycle⟩ := exists_cycle_of_not_nodup made.chain repeated
  exact free first (made.members first (by simp)) anchor row reached (Table.onCycle_iff.mpr cycle)

theorem IsWalk.length_le (made : plan.IsWalk table walk) (free : plan.AvoidsCycles table) :
    walk.length ≤ table.length :=
  Table.length_le_of_nodup made.members (made.nodup free)

theorem walks_eq_nil_of_avoidsCycles (free : plan.AvoidsCycles table) :
    plan.walks table table.length = [] := by
  refine List.eq_nil_iff_forall_not_mem.mpr fun walk made => ?_
  obtain ⟨made, length⟩ := mem_walks.mp made
  have bound := made.length_le free
  omega

theorem walks_eq_nil_of_le {levels : Nat} (ends : plan.walks table levels = [])
    (later : levels ≤ steps) : plan.walks table steps = [] := by
  induction later with
  | refl => exact ends
  | step _ ih => rw [walks, ih, List.flatMap_nil]

/-- All walks of a plan, shorter ones first. -/
def enumeration (plan : WalkPlan) (table : Table) (levels : Nat) : List (List Row) :=
  (List.range levels).flatMap (plan.walks table)

theorem mem_enumeration {levels : Nat} (ends : plan.walks table levels = []) :
    walk ∈ plan.enumeration table levels ↔ plan.IsWalk table walk := by
  simp only [enumeration, List.mem_flatMap, List.mem_range]
  constructor
  · rintro ⟨steps, -, made⟩
    exact (mem_walks.mp made).1
  · intro made
    have positive : 0 < walk.length := List.length_pos_iff.mpr made.ne_nil
    have found : walk ∈ plan.walks table (walk.length - 1) := mem_walks.mpr ⟨made, by omega⟩
    refine ⟨walk.length - 1, ?_, found⟩
    by_contra late
    rw [walks_eq_nil_of_le ends (Nat.le_of_not_lt late)] at found
    exact absurd found List.not_mem_nil

theorem nodup_enumeration (keyed : table.IsKeyed kind) (levels : Nat) :
    (plan.enumeration table levels).Nodup := by
  refine List.nodup_flatMap.mpr ⟨fun steps _ => nodup_walks keyed, ?_⟩
  refine List.nodup_range.imp fun {steps later} different => ?_
  refine List.disjoint_left.mpr ?_
  intro walk made madeLater
  have length := (mem_walks.mp made).2
  have lengthLater := (mem_walks.mp madeLater).2
  exact different (by omega)

theorem length_enumeration_le (keyed : table.IsKeyed kind) (levels : Nat) :
    (plan.enumeration table levels).length ≤
      levels * ((List.filter plan.isAnchor table).length * List.length table) := by
  unfold enumeration
  induction levels with
  | zero => simp
  | succ levels ih =>
    have bound : (plan.walks table levels).length ≤ _ := length_walks_le_mul keyed
    rw [List.range_succ, List.flatMap_append, List.length_append, List.flatMap_singleton,
      Nat.succ_mul]
    omega

end AdjacencyForest.WalkPlan
