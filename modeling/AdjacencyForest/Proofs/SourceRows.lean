import AdjacencyForest.Proofs.Batch
import AdjacencyForest.Proofs.Sorting

/-!
# Rows of a source

What a query reads: rows of the table, each with a depth and a path. None of their values is a number
that is none, whatever the expression: depths come from integers by steps of one, and a step beyond
what numbers can hold stays where it is.

Main statements: `drain_keeps`, what the first rows of a queue have and their successors keep;
`yields_of_sourceRows?`, the rows that a query reads; `isOrdered_of_yields`, they can be sorted.
-/

namespace AdjacencyForest

namespace Binary64

theorem signedZero_ne_nan (negative : Bool) : signedZero negative ≠ .nan := Binary64.noConfusion

theorem ofRatio_ne_nan (negative : Bool) (num den : Nat) : ofRatio negative num den ≠ .nan := by
  unfold ofRatio
  dsimp only
  split_ifs <;> first | exact signedZero_ne_nan _ | exact Binary64.noConfusion

theorem addInt_ne_nan {x : Binary64} (number : x ≠ .nan) (i : Int) : x.addInt i ≠ .nan := by
  cases x with
  | nan => exact absurd rfl number
  | infinite => exact number
  | finite n a e =>
    unfold addInt
    dsimp only
    split
    · exact signedZero_ne_nan _
    · exact ofRatio_ne_nan _ _ _

end Binary64

namespace Value

variable {value : Value}

theorem isOrdered_int (i : Int) : (Value.int i).IsOrdered := Value.noConfusion

theorem isOrdered_text (s : String) : (Value.text s).IsOrdered := Value.noConfusion

theorem isOrdered_null : Value.null.IsOrdered := Value.noConfusion

theorem isOrdered_real {x : Binary64} (number : x ≠ .nan) : (Value.real x).IsOrdered :=
  fun same => number (Value.real.inj same)

theorem isOrdered_ofInt (i : Int) : (Value.ofInt i).IsOrdered := by
  unfold Value.ofInt
  split
  · exact isOrdered_int i
  · exact isOrdered_real (Binary64.ofRatio_ne_nan _ _ _)

theorem isOrdered_plus (ordered : value.IsOrdered) (step : Int) : (value.plus step).IsOrdered := by
  cases value with
  | int i =>
    rw [plus]
    split
    · exact isOrdered_int _
    · exact isOrdered_real (Binary64.addInt_ne_nan (Binary64.ofRatio_ne_nan _ _ _) _)
  | real x => exact isOrdered_real (Binary64.addInt_ne_nan (fun none => ordered (none ▸ rfl)) _)
  | null | text => exact isOrdered_null

theorem isOrdered_asText (value : Value) : value.asText.IsOrdered := by
  unfold asText
  split
  · exact isOrdered_text _
  · exact isOrdered_null

theorem isOrdered_appendKey (separator : String) (path key : Value) :
    (path.appendKey separator key).IsOrdered := by
  unfold appendKey
  split
  · exact isOrdered_text _
  · exact isOrdered_null

theorem isOrdered_of_admits {kind : KeyKind} (admitted : value = .null ∨ kind.Admits value) :
    value.IsOrdered := by
  rintro rfl
  rcases admitted with null | admitted
  · cases null
  · cases kind <;> exact admitted

theorem isOrdered_payloadValue (payload : Option Json) : (payloadValue payload).IsOrdered := by
  unfold payloadValue
  split
  · exact isOrdered_null
  · exact isOrdered_int _
  next x =>
    split
    next finite => exact isOrdered_real fun none => by simp [none, Binary64.isFinite] at finite
    · exact isOrdered_text _
  · exact isOrdered_text _

end Value

namespace RecursiveExpression

variable {expression : RecursiveExpression} {table : Table} {rows queue : List TreeRow}
  {next : TreeRow → List TreeRow} {turns : Nat}

theorem drain_keeps (kept : TreeRow → Prop) (start : ∀ treeRow ∈ queue, kept treeRow)
    (keeps : ∀ treeRow, kept treeRow → ∀ later ∈ next treeRow, kept later)
    (complete : drain next turns queue = some rows) : ∀ treeRow ∈ rows, kept treeRow := by
  induction turns generalizing queue rows with
  | zero =>
    cases queue with
    | nil =>
      obtain rfl := Option.some.inj complete
      exact start
    | cons => cases complete
  | succ turns ih =>
    cases queue with
    | nil =>
      obtain rfl := Option.some.inj complete
      exact start
    | cons first rest =>
      rw [drain_succ] at complete
      obtain ⟨later, drained, rfl⟩ := Option.map_eq_some_iff.mp complete
      refine List.forall_mem_cons.mpr ⟨start first List.mem_cons_self, ih (fun treeRow member => ?_)
        drained⟩
      rcases List.mem_append.mp member with waiting | joined
      · exact start treeRow (List.mem_cons_of_mem _ waiting)
      · exact keeps first (start first List.mem_cons_self) treeRow joined

end RecursiveExpression

/-- What a source yields: a row of the table, with a depth and a path that have a place among all
values. -/
structure TreeRow.Yielded (table : Table) (treeRow : TreeRow) : Prop where
  member : treeRow.row ∈ table
  depth : treeRow.depth.IsOrdered
  path : treeRow.path.IsOrdered

namespace TreeRow

variable {expression : RecursiveExpression} {query : TreeQuery} {table : Table} {kind : KeyKind}
  {rows : List TreeRow} {treeRow : TreeRow}

theorem yielded_of_rows? (found : expression.rows? table = some rows) :
    ∀ treeRow ∈ rows, treeRow.Yielded table := by
  refine RecursiveExpression.drain_keeps _ (fun treeRow anchor => ?_)
    (fun treeRow kept later joined => ?_) found
  · obtain ⟨row, selected, rfl⟩ := List.mem_map.mp anchor
    exact ⟨(List.mem_filter.mp selected).1, Value.isOrdered_ofInt _, Value.isOrdered_asText _⟩
  · unfold RecursiveExpression.successors at joined
    split at joined
    · obtain ⟨row, selected, rfl⟩ := List.mem_map.mp joined
      exact ⟨(List.mem_filter.mp selected).1, Value.isOrdered_plus kept.depth _,
        Value.isOrdered_appendKey _ _ _⟩
    · exact absurd joined List.not_mem_nil

theorem yielded_of_sourceRows? (found : query.sourceRows? table = some rows) :
    ∀ treeRow ∈ rows, treeRow.Yielded table := by
  unfold TreeQuery.sourceRows? at found
  split at found
  · exact yielded_of_rows? found
  · obtain rfl := Option.some.inj found
    intro treeRow member
    obtain ⟨row, inside, rfl⟩ := List.mem_map.mp member
    exact ⟨inside, Value.isOrdered_null, Value.isOrdered_null⟩

theorem Yielded.isOrdered (yielded : treeRow.Yielded table) (keyed : table.IsKeyed kind)
    (labels : table.HasLabels) : treeRow.IsOrdered := by
  intro field
  cases field with
  | depth => exact yielded.depth
  | path => exact yielded.path
  | column column =>
    cases column with
    | key => exact Value.isOrdered_of_admits (.inr (keyed.key _ yielded.member))
    | parent => exact Value.isOrdered_of_admits (keyed.parent _ yielded.member)
    | label =>
      intro same
      have label : treeRow.row.label = .real .nan := same
      rcases labels _ yielded.member with null | ⟨s, text⟩
      · rw [null] at label
        cases label
      · rw [text] at label
        cases label
    | payload => exact Value.isOrdered_payloadValue _

end TreeRow
end AdjacencyForest
