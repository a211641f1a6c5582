import AdjacencyForest.Proofs.Keys
import AdjacencyForest.Traversal.Basic
import Mathlib.Data.List.Chain
import Mathlib.Data.List.Perm.Subperm
import Mathlib.Logic.Relation

/-!
# Walks

A walk goes from row to row of a table, each joined on to the one before: to its parent on the way
up, to one of its children on the way down. A `WalkPlan` says which walks a traversal makes: the rows
from which it starts, the direction, and how far it may go.

Main statements: `eq_of_head` and `eq_of_getLast`, a walk up is told by its first row and its length
and a walk down by its last row and its length; `exists_cycle_of_not_nodup`, a walk that meets a row
twice has reached a cycle; `exists_simple_walk`, what can be reached is reached without meeting a row
twice.
-/

open Relation

namespace AdjacencyForest

/-- Whether a row comes after another one in a walk. -/
def Direction.Joins : Direction → Row → Row → Prop
  | .up, row, next => next.key = row.parent
  | .down, row, next => row.key = next.parent

instance (direction : Direction) (row next : Row) : Decidable (direction.Joins row next) := by
  cases direction <;> exact inferInstanceAs (Decidable (_ = _))

def Table.Joined (table : Table) (direction : Direction) (row next : Row) : Prop :=
  row ∈ table ∧ next ∈ table ∧ direction.Joins row next

def Table.OnCycle (table : Table) (row : Row) : Prop := TransGen (table.Joined .up) row row

section Chains

variable {α : Type} {step : α → α → Prop} {a b : α} {walk other : List α}

theorem reflTransGen_of_mem (chain : (a :: walk).IsChain step) (member : b ∈ a :: walk) :
    ReflTransGen step a b := by
  have related := (chain.imp fun _ _ joined => TransGen.single joined).pairwise
  rcases List.mem_cons.mp member with rfl | later
  · exact .refl
  · exact (List.rel_of_pairwise_cons related later).to_reflTransGen

theorem exists_cycle_of_not_nodup (chain : (a :: walk).IsChain step)
    (repeated : ¬ (a :: walk).Nodup) : ∃ c, ReflTransGen step a c ∧ TransGen step c c := by
  induction walk generalizing a with
  | nil => simp at repeated
  | cons b rest ih =>
    have joined : step a b := (List.isChain_cons_cons.mp chain).1
    have tail : (b :: rest).IsChain step := (List.isChain_cons_cons.mp chain).2
    by_cases again : a ∈ b :: rest
    · exact ⟨a, .refl, .head' joined (reflTransGen_of_mem tail again)⟩
    · have repeats : ¬ (b :: rest).Nodup := fun nodup =>
        repeated (List.nodup_cons.mpr ⟨again, nodup⟩)
      obtain ⟨c, reached, cycle⟩ := ih tail repeats
      exact ⟨c, .head joined reached, cycle⟩

theorem exists_simple_walk (reached : ReflTransGen step a b) :
    ∃ walk, (a :: walk).IsChain step ∧ (a :: walk).Nodup ∧ (a :: walk).getLast? = some b := by
  induction reached using ReflTransGen.head_induction_on with
  | refl => exact ⟨[], by simp⟩
  | @head a c joined _ ih =>
    obtain ⟨walk, chain, nodup, last⟩ := ih
    -- A walk that comes back to its start is cut there.
    by_cases again : a ∈ c :: walk
    · obtain ⟨before, after, split⟩ := List.append_of_mem again
      rw [split] at chain nodup last
      refine ⟨after, (List.isChain_append.mp chain).2.1, (List.nodup_append.mp nodup).2.1, ?_⟩
      rwa [List.getLast?_append_of_ne_nil _ (by simp)] at last
    · refine ⟨c :: walk, List.isChain_cons_cons.mpr ⟨joined, chain⟩,
        List.nodup_cons.mpr ⟨again, nodup⟩, ?_⟩
      rwa [List.getLast?_cons_cons]

theorem eq_of_head (functional : ∀ a b c, step a b → step a c → b = c)
    (chain : walk.IsChain step) (otherChain : other.IsChain step)
    (head : walk.head? = other.head?) (length : walk.length = other.length) : walk = other := by
  induction walk generalizing other with
  | nil => exact (List.length_eq_zero_iff.mp length.symm).symm
  | cons a rest ih =>
    cases other with
    | nil => simp at length
    | cons b otherRest =>
      obtain rfl : a = b := by simpa using head
      congr 1
      apply ih chain.tail otherChain.tail
      · cases rest with
        | nil => cases otherRest <;> simp_all
        | cons c _ =>
          cases otherRest with
          | nil => simp at length
          | cons d _ =>
            have joined := (List.isChain_cons_cons.mp chain).1
            have otherJoined := (List.isChain_cons_cons.mp otherChain).1
            simp [functional a c d joined otherJoined]
      · simpa using length

theorem eq_of_getLast (functional : ∀ a b c, step b a → step c a → b = c)
    (chain : walk.IsChain step) (otherChain : other.IsChain step)
    (last : walk.getLast? = other.getLast?) (length : walk.length = other.length) :
    walk = other := by
  rw [← List.reverse_inj]
  apply @eq_of_head α (fun b a => step a b) _ _ functional
  · exact List.isChain_reverse.mpr chain
  · exact List.isChain_reverse.mpr otherChain
  · simpa using last
  · simpa using length

/-- Where no two steps lead to one place, of two walks with one end the shorter is the end of the
longer. -/
theorem isSuffix_of_getLast (functional : ∀ a b c, step b a → step c a → b = c)
    (chain : walk.IsChain step) (otherChain : other.IsChain step) (nonempty : walk ≠ [])
    (last : walk.getLast? = other.getLast?) (length : walk.length ≤ other.length) :
    walk <:+ other := by
  have positive : 0 < walk.length := List.length_pos_iff.mpr nonempty
  have split := List.take_append_drop (other.length - walk.length) other
  have short : (other.drop (other.length - walk.length)).length = walk.length := by
    rw [List.length_drop]
    omega
  have ending : (other.drop (other.length - walk.length)).IsChain step := by
    rw [← split] at otherChain
    exact (List.isChain_append.mp otherChain).2.1
  have same : walk = other.drop (other.length - walk.length) := by
    refine eq_of_getLast functional chain ending ?_ short.symm
    rw [List.getLast?_drop, if_neg (by omega), last]
  rw [same]
  exact List.drop_suffix _ _

/-- Where moreover nothing leads to the first place of a walk, all walks with its end are ends of it. -/
theorem isSuffix_of_unreached (functional : ∀ a b c, step b a → step c a → b = c)
    (chain : walk.IsChain step) (otherChain : other.IsChain step) (head : walk.head? = some a)
    (unreached : ∀ b, ¬ step b a) (last : walk.getLast? = other.getLast?) (nonempty : other ≠ []) :
    other <:+ walk := by
  have walkNonempty : walk ≠ [] := List.ne_nil_of_mem (List.mem_of_head? head)
  rcases Nat.le_total other.length walk.length with shorter | longer
  · exact isSuffix_of_getLast functional otherChain chain nonempty last.symm shorter
  · obtain ⟨before, rfl⟩ :=
      isSuffix_of_getLast functional chain otherChain walkNonempty last longer
    cases before using List.reverseRecOn with
    | nil => exact List.suffix_rfl
    | append_singleton before b =>
      exact absurd ((List.isChain_append.mp otherChain).2.2 b (by simp) a head) (unreached b)

end Chains

namespace Table

variable {kind : KeyKind} {table : Table} {direction : Direction} {row next other : Row}

theorem joined_down_iff : table.Joined .down row next ↔ table.Joined .up next row := by
  simp only [Joined, Direction.Joins]
  tauto

theorem IsKeyed.functional_up (keyed : table.IsKeyed kind) (row next other : Row)
    (joined : table.Joined .up row next) (otherJoined : table.Joined .up row other) :
    next = other :=
  keyed.eq_of_key joined.2.1 otherJoined.2.1 (joined.2.2.trans otherJoined.2.2.symm)

theorem IsKeyed.functional_down (keyed : table.IsKeyed kind) (row next other : Row)
    (joined : table.Joined .down next row) (otherJoined : table.Joined .down other row) :
    next = other :=
  keyed.functional_up row next other (joined_down_iff.mp joined) (joined_down_iff.mp otherJoined)

theorem reflTransGen_down_iff :
    ReflTransGen (table.Joined .down) row next ↔ ReflTransGen (table.Joined .up) next row := by
  rw [← reflTransGen_swap]
  have same : Function.swap (table.Joined .down) = table.Joined .up := by
    funext a b
    exact propext joined_down_iff
  rw [same]

theorem onCycle_iff : table.OnCycle row ↔ TransGen (table.Joined direction) row row := by
  cases direction with
  | up => rfl
  | down =>
    rw [← transGen_swap]
    have same : Function.swap (table.Joined .down) = table.Joined .up := by
      funext a b
      exact propext joined_down_iff
    rw [same]
    rfl

theorem mem_of_reachable (reached : ReflTransGen (table.Joined direction) row other)
    (member : row ∈ table) : other ∈ table := by
  cases reached with
  | refl => exact member
  | tail _ joined => exact joined.2.1

theorem not_onCycle_of_falls (rank : Row → Nat)
    (falls : ∀ row next, table.Joined .up row next → rank next < rank row) (row : Row) :
    ¬ table.OnCycle row := by
  intro around
  have lower : ∀ next, TransGen (table.Joined .up) row next → rank next < rank row := by
    intro next reached
    induction reached with
    | single joined => exact falls _ _ joined
    | tail _ joined ih => exact (falls _ _ joined).trans ih
  exact Nat.lt_irrefl _ (lower row around)

theorem length_le_of_nodup {walk : List Row} (members : ∀ row ∈ walk, row ∈ table)
    (nodup : walk.Nodup) : walk.length ≤ table.length :=
  (nodup.subperm members).length_le

end Table

/-- Which walks a traversal makes, and what it makes of them. -/
structure WalkPlan where
  direction : Direction
  /-- The depth of the rows from which walks start. -/
  start : Int
  limit : Option Int
  separator : String
  isAnchor : Row → Bool

namespace WalkPlan

def depthAfter (plan : WalkPlan) (steps : Nat) : Int :=
  match plan.direction with
  | .up => plan.start - steps
  | .down => plan.start + steps

/-- Whether the limit allows so many steps; no step at all is always allowed. -/
def Allows (plan : WalkPlan) (steps : Nat) : Prop :=
  steps = 0 ∨ ∀ limit, plan.limit = some limit →
    match plan.direction with
    | .up => -limit ≤ plan.depthAfter steps
    | .down => plan.depthAfter steps ≤ limit

theorem allows_of_unlimited {plan : WalkPlan} (unlimited : plan.limit = none) (steps : Nat) :
    plan.Allows steps :=
  .inr fun limit given => absurd (unlimited.symm.trans given) (Option.some_ne_none limit).symm

/-- A walk of the plan over a table: from an anchor row, each row joined on to the one before, as
far as the limit allows. -/
structure IsWalk (plan : WalkPlan) (table : Table) (walk : List Row) : Prop where
  anchored : ∃ row, walk.head? = some row ∧ plan.isAnchor row = true
  members : ∀ row ∈ walk, row ∈ table
  joined : walk.IsChain plan.direction.Joins
  allowed : plan.Allows (walk.length - 1)

/-- No cycle can be reached from where the walks start. -/
def AvoidsCycles (plan : WalkPlan) (table : Table) : Prop :=
  ∀ anchor ∈ table, plan.isAnchor anchor = true →
    ∀ row, ReflTransGen (table.Joined plan.direction) anchor row → ¬ table.OnCycle row

end WalkPlan
end AdjacencyForest
