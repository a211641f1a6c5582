import AdjacencyForest.Proofs.ValueOrder
import AdjacencyForest.Query
import Mathlib.Data.List.Perm.Basic

/-!
# Sorted rows

The sort keys of a query compare rows one after the other. On rows that hold no number which is none
this is a total order of the rows, up to rows that no key tells apart, so sorting sorts.

Main statements: `compareRows_cons`, the order is lexicographic; `arranged_perm`, sorting loses and
repeats no row; `pairwise_arranged`, what is sorted is in order.
-/

namespace AdjacencyForest

/-- No field of the row is a number that is none. -/
def TreeRow.IsOrdered (treeRow : TreeRow) : Prop := ∀ field, (treeRow.value field).IsOrdered

namespace TreeQuery

variable {keys : List SortKey} {rows : List TreeRow} {left right : TreeRow}

theorem compareRows_cons (key : SortKey) (keys : List SortKey) (left right : TreeRow) :
    compareRows (key :: keys) left right =
      (compareBy key left right).then (compareRows keys left right) := rfl

/-- The order of two rows by the places of a field. -/
def placedBy (key : SortKey) (left right : TreeRow) : Ordering :=
  if key.descending then compare (right.value key.field).place (left.value key.field).place
  else compare (left.value key.field).place (right.value key.field).place

theorem compareBy_eq (key : SortKey) (ordered : left.IsOrdered) (otherOrdered : right.IsOrdered) :
    compareBy key left right = placedBy key left right := by
  unfold compareBy placedBy
  rw [Value.compareWith_eq (ordered key.field) (otherOrdered key.field)]
  split
  · exact (Std.OrientedCmp.eq_swap).symm
  · rfl

/-- The order of two rows by the places of several fields in turn. -/
def placedRows (keys : List SortKey) (left right : TreeRow) : Ordering :=
  keys.foldr (fun key later => (placedBy key left right).then later) .eq

theorem compareRows_eq (keys : List SortKey) (ordered : left.IsOrdered)
    (otherOrdered : right.IsOrdered) : compareRows keys left right = placedRows keys left right := by
  induction keys with
  | nil => rfl
  | cons key keys ih =>
    rw [compareRows_cons, compareBy_eq key ordered otherOrdered, ih]
    rfl

theorem transCmp_placedBy (key : SortKey) : Std.TransCmp (placedBy key) where
  eq_swap := by
    intro left right
    unfold placedBy
    split <;> exact Std.OrientedCmp.eq_swap
  isLE_trans := by
    intro left middle right
    unfold placedBy
    split
    · exact fun first second => Std.TransCmp.isLE_trans second first
    · exact Std.TransCmp.isLE_trans

theorem transCmp_placedRows (keys : List SortKey) : Std.TransCmp (placedRows keys) := by
  induction keys with
  | nil => exact { eq_swap := rfl, isLE_trans := fun _ _ => rfl }
  | cons key keys ih =>
    have first := transCmp_placedBy key
    have same : placedRows (key :: keys) = compareLex (placedBy key) (placedRows keys) := rfl
    rw [same]
    exact inferInstance

theorem arranged_perm (keys : List SortKey) (rows : List TreeRow) :
    (arranged keys rows).Perm rows := by
  unfold arranged
  split
  · exact .refl rows
  · exact List.mergeSort_perm rows _

theorem arranged_eq (ordered : ∀ treeRow ∈ rows, treeRow.IsOrdered) :
    arranged keys rows =
      if keys.isEmpty then rows
      else rows.mergeSort fun left right => (placedRows keys left right).isLE := by
  unfold arranged
  split
  · rfl
  · have same := @List.map_mergeSort _ _ (fun left right => (placedRows keys left right).isLE)
      (fun left right => compareRows keys left right != .gt) id rows fun left member right found => by
        rw [id, id, compareRows_eq keys (ordered left member) (ordered right found)]
        cases placedRows keys left right <;> rfl
    rw [List.map_id, List.map_id] at same
    exact same.symm

theorem pairwise_arranged (ordered : ∀ treeRow ∈ rows, treeRow.IsOrdered) :
    (arranged keys rows).Pairwise fun left right => compareRows keys left right ≠ .gt := by
  have placed := transCmp_placedRows keys
  have sorted : (arranged keys rows).Pairwise fun left right =>
      (placedRows keys left right).isLE = true := by
    rw [arranged_eq ordered]
    cases keys with
    | nil => exact List.pairwise_of_forall fun _ _ => rfl
    | cons key keys =>
      refine List.pairwise_mergeSort (fun _ _ _ => Std.TransCmp.isLE_trans) (fun left right => ?_) rows
      have swapped : placedRows (key :: keys) right left =
          (placedRows (key :: keys) left right).swap := placed.eq_swap
      rw [swapped]
      cases placedRows (key :: keys) left right <;> rfl
  refine sorted.imp_of_mem fun {left right} member found inOrder => ?_
  rw [compareRows_eq keys (ordered left ((arranged_perm keys rows).subset member))
    (ordered right ((arranged_perm keys rows).subset found))]
  cases order : placedRows keys left right <;> simp_all

end TreeQuery
end AdjacencyForest
