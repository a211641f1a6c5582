import AdjacencyForest.Proofs.Counts
import AdjacencyForest.Proofs.PathOrder
import Mathlib.Data.List.Sort

/-!
# Pre-order

The rows of a forest in pre-order: the children of a parent in the order of the texts of their keys,
each followed by all that is below it. Listed with the walks that lead to them, they are sorted by the
texts of their paths.

Main statements: `mem_listing` and `pairwise_listing`, the walks of the listing and their order;
`preOrder_listing`, the rows at their ends; `PreOrder.unique`, there is one pre-order of some rows.
-/

open Relation

namespace AdjacencyForest

theorem pairwise_mergeSort_text {α : Type} (text : α → String) (items : List α) :
    (items.mergeSort fun a b => decide (text a ≤ text b)).Pairwise fun a b => text a ≤ text b := by
  have sorted := @List.pairwise_mergeSort α (fun a b => decide (text a ≤ text b))
    (fun _ _ _ => by simpa using String.le_trans) (fun _ _ => by simpa using String.le_total _ _) items
  simpa using sorted

/-- Items that their texts tell apart are sorted in one way. -/
theorem mergeSort_eq_of_texts {α : Type} {text : α → String} {items sorted : List α}
    (perm : items.Perm sorted) (inOrder : sorted.Pairwise fun a b => text a < text b) :
    (items.mergeSort fun a b => decide (text a ≤ text b)) = sorted := by
  have texts : (sorted.map text).Nodup := by
    refine List.pairwise_map.mpr (inOrder.imp fun less same => ?_)
    rw [same] at less
    exact String.lt_irrefl _ less
  have arranged := (List.mergeSort_perm items fun a b => decide (text a ≤ text b)).trans perm
  refine arranged.eq_of_pairwise (fun a b found otherFound le ge => ?_)
    (pairwise_mergeSort_text _ _) (inOrder.imp fun less => ?_)
  · exact List.inj_on_of_nodup_map texts (arranged.subset found) otherFound (String.le_antisymm le ge)
  · exact String.not_lt.mp fun greater => String.lt_irrefl _ (String.lt_trans less greater)

namespace Table

/-- The rows below a parent, in the order of the texts of their keys. -/
def childrenByText (table : Table) (parent : Value) : List Row :=
  (List.filter (fun row => row.parent == parent) table).mergeSort fun row other =>
    decide (row.keyText ≤ other.keyText)

/-- The text of the path of a walk. -/
def pathText (separator : String) (walk : List Row) : String :=
  separator.intercalate (walk.map Row.keyText)

/-- A list of rows is the pre-order of the trees below some rows. -/
inductive PreOrder (table : Table) : List Row → List Row → Prop where
  | nil : PreOrder table [] []
  | cons {row : Row} {siblings below later : List Row} :
    PreOrder table (table.childrenByText row.key) below → PreOrder table siblings later →
      PreOrder table (row :: siblings) (row :: (below ++ later))

/-- The walks down from some rows in pre-order, each after a walk that leads to its rows, with so
many rows at most. -/
def listing (table : Table) : Nat → (before siblings : List Row) → List (List Row)
  | 0, _, _ => []
  | levels + 1, before, siblings => siblings.flatMap fun row =>
    (before ++ [row]) :: table.listing levels (before ++ [row]) (table.childrenByText row.key)

variable {table : Table} {kind : KeyKind} {row next : Row} {parent : Value} {levels : Nat}
  {before siblings rows others walk : List Row}

theorem IsKeyed.exists_keyText (keyed : table.IsKeyed .integer) (member : row ∈ table) :
    ∃ i, row.key = .int i ∧ row.keyText = writeInteger i := by
  obtain ⟨i, key⟩ := KeyKind.admits_integer_iff.mp (keyed.key row member)
  exact ⟨i, key, by rw [Row.keyText, key]; rfl⟩

theorem IsKeyed.eq_of_keyText (keyed : table.IsKeyed .integer) (member : row ∈ table)
    (nextMember : next ∈ table) (same : row.keyText = next.keyText) : row = next := by
  obtain ⟨i, key, text⟩ := keyed.exists_keyText member
  obtain ⟨j, nextKey, nextText⟩ := keyed.exists_keyText nextMember
  refine keyed.eq_of_key member nextMember ?_
  rw [key, nextKey, writeInteger_injective (text.symm.trans (same.trans nextText))]

theorem IsKeyed.isNumeral_keyText (keyed : table.IsKeyed .integer) (member : row ∈ table) :
    IsNumeral row.keyText.toList := by
  obtain ⟨i, -, text⟩ := keyed.exists_keyText member
  rw [text]
  exact isNumeral_writeInteger i

theorem PreOrder.unique (ordered : table.PreOrder siblings rows)
    (otherOrdered : table.PreOrder siblings others) : rows = others := by
  induction ordered generalizing others with
  | nil =>
    cases otherOrdered
    rfl
  | cons _ _ below later =>
    cases otherOrdered with
    | cons otherBelow otherLater => rw [below otherBelow, later otherLater]

theorem mem_childrenByText : row ∈ table.childrenByText parent ↔ row ∈ table ∧ row.parent = parent := by
  simp [childrenByText]

theorem pairwise_childrenByText (keyed : table.IsKeyed .integer) (parent : Value) :
    (table.childrenByText parent).Pairwise fun row other => row.keyText < other.keyText := by
  have sorted := pairwise_mergeSort_text Row.keyText
    (List.filter (fun row => row.parent == parent) table)
  have nodup : (table.childrenByText parent).Nodup :=
    ((List.mergeSort_perm _ _).nodup_iff).mpr (keyed.nodup.filter _)
  refine (sorted.and nodup).imp_of_mem fun {row other} found otherFound ordered => ?_
  refine String.not_le.mp fun reversed => ordered.2 ?_
  exact keyed.eq_of_keyText (mem_childrenByText.mp found).1 (mem_childrenByText.mp otherFound).1
    (String.le_antisymm ordered.1 reversed)

theorem mem_listing : walk ∈ table.listing levels before siblings ↔
    ∃ row rest, walk = before ++ row :: rest ∧ row ∈ siblings ∧ (∀ next ∈ rest, next ∈ table) ∧
      (row :: rest).IsChain Direction.down.Joins ∧ rest.length < levels := by
  induction levels generalizing before siblings with
  | zero => simp [listing]
  | succ levels ih =>
    simp only [listing, List.mem_flatMap, List.mem_cons, ih]
    constructor
    · rintro ⟨row, member, rfl | ⟨next, rest, rfl, child, members, chain, short⟩⟩
      · exact ⟨row, [], by simp, member, by simp, .singleton _, by simp⟩
      · obtain ⟨found, parent⟩ := mem_childrenByText.mp child
        refine ⟨row, next :: rest, by simp, member, ?_, ?_, by simpa using short⟩
        · simpa using ⟨found, members⟩
        · exact List.isChain_cons_cons.mpr ⟨parent.symm, chain⟩
    · rintro ⟨row, rest, rfl, member, members, chain, short⟩
      refine ⟨row, member, ?_⟩
      cases rest with
      | nil => exact .inl rfl
      | cons next rest =>
        obtain ⟨joined, chain⟩ := List.isChain_cons_cons.mp chain
        refine .inr ⟨next, rest, by simp, mem_childrenByText.mpr ⟨members next (by simp), joined.symm⟩,
          fun other found => members other (by simp [found]), chain, by simpa using short⟩

theorem pathText_lt_append {separator : String} (low : IsLowSeparator separator)
    (nonempty : walk ≠ []) (othersNonempty : others ≠ []) :
    pathText separator walk < pathText separator (walk ++ others) := by
  rw [pathText, pathText, List.map_append]
  exact intercalate_lt_append low (by simpa using nonempty) (by simpa using othersNonempty)

theorem pathText_lt_of_keyText_lt {separator : String} (low : IsLowSeparator separator)
    (keyed : table.IsKeyed .integer) (member : row ∈ table) (nextMember : next ∈ table)
    (less : row.keyText < next.keyText) :
    pathText separator (before ++ row :: rows) < pathText separator (before ++ next :: others) := by
  simp only [pathText, List.map_append, List.map_cons]
  exact intercalate_lt_of_lt low (keyed.isNumeral_keyText member)
    (keyed.isNumeral_keyText nextMember) less

theorem exists_rest_of_mem
    (found : walk ∈ (before ++ [row]) :: table.listing levels (before ++ [row]) siblings) :
    ∃ rest, walk = before ++ row :: rest := by
  rcases List.mem_cons.mp found with rfl | later
  · exact ⟨[], rfl⟩
  · obtain ⟨next, rest, rfl, -⟩ := mem_listing.mp later
    exact ⟨next :: rest, by simp⟩

theorem pairwise_listing {separator : String} (low : IsLowSeparator separator)
    (keyed : table.IsKeyed .integer) (members : ∀ row ∈ siblings, row ∈ table)
    (sorted : siblings.Pairwise fun row other => row.keyText < other.keyText) :
    (table.listing levels before siblings).Pairwise fun walk other =>
      pathText separator walk < pathText separator other := by
  induction levels generalizing before siblings with
  | zero => exact .nil
  | succ levels ih =>
    refine List.pairwise_flatMap.mpr ⟨fun row member => ?_, ?_⟩
    · -- A row and all that is below it.
      refine List.pairwise_cons.mpr ⟨fun walk found => ?_, ?_⟩
      · obtain ⟨next, rest, rfl, -⟩ := mem_listing.mp found
        exact pathText_lt_append low (by simp) (List.cons_ne_nil next rest)
      · exact ih (fun next child => (mem_childrenByText.mp child).1)
          (pairwise_childrenByText keyed row.key)
    · -- What is below one row, and what is below a later one.
      refine sorted.imp_of_mem fun {row next} member nextMember less walk found other nextFound => ?_
      obtain ⟨rest, rfl⟩ := exists_rest_of_mem found
      obtain ⟨otherRest, rfl⟩ := exists_rest_of_mem nextFound
      exact pathText_lt_of_keyText_lt low keyed (members row member) (members next nextMember) less

theorem preOrder_listing (long : ∀ row ∈ siblings, ∀ rest : List Row, (∀ next ∈ rest, next ∈ table) →
    (row :: rest).IsChain Direction.down.Joins → rest.length < levels) :
    table.PreOrder siblings ((table.listing levels before siblings).map WalkPlan.lastRow) := by
  induction levels generalizing before siblings with
  | zero =>
    cases siblings with
    | nil => exact .nil
    | cons row siblings => exact absurd (long row (by simp) [] (by simp) (.singleton _)) (by simp)
  | succ levels ih =>
    induction siblings with
    | nil => exact .nil
    | cons row siblings later =>
      have below : table.PreOrder (table.childrenByText row.key)
          ((table.listing levels (before ++ [row]) (table.childrenByText row.key)).map
            WalkPlan.lastRow) := by
        refine ih fun next child rest members chain => ?_
        obtain ⟨found, parent⟩ := mem_childrenByText.mp child
        have longer := long row (by simp) (next :: rest) (by simpa using ⟨found, members⟩)
          (List.isChain_cons_cons.mpr ⟨parent.symm, chain⟩)
        simpa using longer
      have rest := later fun next member => long next (by simp [member])
      have last : WalkPlan.lastRow (before ++ [row]) = row := by simp [WalkPlan.lastRow]
      simp only [listing, List.flatMap_cons, List.map_append, List.map_cons, last, List.cons_append]
      exact .cons below rest
end Table
end AdjacencyForest
