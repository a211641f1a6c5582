import AdjacencyForest.Proofs.Counts
import AdjacencyForest.Proofs.Subtree
import AdjacencyForest.Session.Writing

/-!
# Up and down are opposite

What a row finds on its way down finds the row on its way up, at the opposite depth and along the
same rows in reverse.

Main statements: `IsLine.reverse`, a walk down read backwards is a walk up; `exists_lineage`, the
rows of the two relations are such walks; `opposite_lineages`, how the rows of the one answer to those
of the other.
-/

open Relation

namespace AdjacencyForest

open RecursiveExpression

def Direction.opposite : Direction → Direction
  | .up => .down
  | .down => .up

theorem Direction.joins_opposite_iff {direction : Direction} {row next : Row} :
    direction.opposite.Joins row next ↔ direction.Joins next row := by
  cases direction <;> rfl

/-- A walk from one row to another that a limit allows. -/
structure IsLine (table : Table) (direction : Direction) (limit : Option Int) (first last : Row)
    (walk : List Row) : Prop where
  head : walk.head? = some first
  last : walk.getLast? = some last
  members : ∀ row ∈ walk, row ∈ table
  joined : walk.IsChain direction.Joins
  short : ∀ bound, limit = some bound → (walk.length : Int) - 1 ≤ bound

/-- The walks from a row, upward or downward, that a limit allows. -/
def linePlan (model : TreeModel) (direction : Direction) (row : Row) (limit : Option Int) :
    WalkPlan where
  direction := direction
  start := 0
  limit := limit
  separator := model.separator
  isAnchor other := other.key == row.key

variable {model : TreeModel} {kind : KeyKind} {table : Table} {direction : Direction}
  {limit : Option Int} {first last row other : Row} {walk walk' : List Row} {depth : Int}
  {steps : Nat}

namespace IsLine

theorem ne_nil (line : IsLine table direction limit first last walk) : walk ≠ [] := by
  rintro rfl
  simpa using line.head

theorem reverse (line : IsLine table direction limit first last walk) :
    IsLine table direction.opposite limit last first walk.reverse where
  head := by simpa using line.last
  last := by simpa using line.head
  members row found := line.members row (List.mem_reverse.mp found)
  joined := List.isChain_reverse.mpr (line.joined.imp fun _ _ => Direction.joins_opposite_iff.mpr)
  short bound given := by simpa using line.short bound given

end IsLine

theorem isLine_iff (keyed : table.IsKeyed kind) (member : first ∈ table)
    (bounds : ∀ bound, limit = some bound → 0 ≤ bound) :
    IsLine table direction limit first last walk ↔
      (linePlan model direction first limit).IsWalk table walk ∧ walk.getLast? = some last := by
  constructor
  · intro line
    refine ⟨⟨⟨first, line.head, by simp [linePlan]⟩, line.members, line.joined, ?_⟩, line.last⟩
    refine .inr fun bound given => ?_
    have short := line.short bound given
    have positive : 0 < walk.length := List.length_pos_iff.mpr line.ne_nil
    cases direction <;> simp only [linePlan, WalkPlan.depthAfter] <;> omega
  · rintro ⟨made, reached⟩
    obtain ⟨row, head, anchor⟩ := made.anchored
    have same : row.key = first.key := by simpa [linePlan] using anchor
    obtain rfl := keyed.eq_of_key (made.members row (List.mem_of_head? head)) member same
    refine ⟨head, reached, made.members, made.joined, fun bound given => ?_⟩
    have enough := bounds bound given
    rcases made.allowed with none | allowed
    · omega
    · have within := allowed bound given
      cases direction <;> simp only [linePlan, WalkPlan.depthAfter] at within <;> omega

/-! ## Depths -/

def Direction.sign : Direction → Int
  | .up => -1
  | .down => 1

/-- The depth beyond 64 bits: the store's numbers are too coarse there for a step. -/
def Direction.farthest : Direction → Value
  | .up => .real (.finite true 0x10000000000000 11)
  | .down => .real (.finite false 0x10000000000000 11)

theorem Direction.plus_farthest (direction : Direction) :
    direction.farthest.plus direction.sign = direction.farthest := by
  cases direction <;> decide +kernel

theorem plus_least : (Value.int (-0x8000000000000000)).plus (-1) = Direction.up.farthest := by
  decide +kernel

theorem plus_greatest : (Value.int 0x7fffffffffffffff).plus 1 = Direction.down.farthest := by
  decide +kernel

theorem Direction.compareWith_farthest :
    direction.farthest.compareWith (.int depth) =
      compare (direction.sign * 0x8000000000000000) depth := by
  cases direction <;>
    simp [farthest, sign, Value.compareWith, Binary64.compareInt?, Binary64.signedRatio,
      Binary64.magnitudeRatio]

theorem Direction.equals_farthest :
    direction.farthest.equals (.int depth) = true ↔ depth = direction.sign * 0x8000000000000000 := by
  have compared : direction.farthest.equals (.int depth) =
      (direction.farthest.compareWith (.int depth) == .eq) := by
    cases direction <;> rfl
  rw [compared, compareWith_farthest, beq_iff_eq, Std.compare_eq_iff_eq, eq_comm]

theorem Direction.plus_sign (fits : fitsInt64 (direction.sign * steps) = true) :
    (Value.int (direction.sign * steps)).plus direction.sign =
      if fitsInt64 (direction.sign * (steps + 1 : Nat)) then
        .int (direction.sign * (steps + 1 : Nat)) else direction.farthest := by
  have next : direction.sign * (steps + 1 : Nat) = direction.sign * steps + direction.sign := by
    push_cast
    rw [Int.mul_add, Int.mul_one]
  rw [next]
  split
  next inside => rw [Value.plus, if_pos inside]
  next outside =>
    simp only [fitsInt64_iff] at fits outside
    cases direction with
    | up =>
      have least : Direction.up.sign * steps = -0x8000000000000000 := by
        simp only [sign] at fits outside ⊢
        omega
      rw [least]
      exact plus_least
    | down =>
      have greatest : Direction.down.sign * steps = 0x7fffffffffffffff := by
        simp only [sign] at fits outside ⊢
        omega
      rw [greatest]
      exact plus_greatest

theorem storedDepth_linePlan : (linePlan model direction row limit).storedDepth steps =
    if fitsInt64 (direction.sign * steps) then .int (direction.sign * steps)
    else direction.farthest := by
  have step : (linePlan model direction row limit).depthStep = direction.sign := by
    cases direction <;> rfl
  induction steps with
  | zero => cases direction <;> rfl
  | succ steps ih =>
    rw [WalkPlan.storedDepth, ih, step]
    by_cases fits : fitsInt64 (direction.sign * steps) = true
    · rw [if_pos fits, Direction.plus_sign fits]
    · have beyond : ¬ fitsInt64 (direction.sign * (steps + 1 : Nat)) = true := by
        simp only [fitsInt64_iff] at fits ⊢
        cases direction <;> simp only [Direction.sign] at fits ⊢ <;> omega
      rw [if_neg fits, if_neg beyond, Direction.plus_farthest]

theorem equals_storedDepth :
    ((linePlan model direction row limit).storedDepth steps).equals (.int depth) = true ↔
      depth = direction.sign * min steps 0x8000000000000000 := by
  rw [storedDepth_linePlan]
  split
  next fits =>
    rw [Value.equals_int]
    simp only [fitsInt64_iff] at fits
    cases direction <;> simp only [Direction.sign] at fits ⊢ <;> omega
  next outside =>
    rw [Direction.equals_farthest]
    simp only [fitsInt64_iff] at outside
    cases direction <;> simp only [Direction.sign] at outside ⊢ <;> omega

/-! ## Rows -/

/-- The relation of a row to itself and all above it, or all below it. -/
def lineage (direction : Direction) (row : Row) (limit : Option Int) : Relation where
  kinship := match direction with
    | .up => .ancestors
    | .down => .descendants
  andSelf := true
  node := .ofRow row
  maxDepth := Json.ofOption Json.int limit

/-- The rows of the relation's query, whose values the store takes. -/
def Relation.Yields (relation : Relation) (setting : Setting) (table : Table)
    (rows : List TreeRow) : Prop :=
  ∃ query, setting.related relation = .ok query ∧
    TreeQuery.checkParameters query.parameters = .ok () ∧ query.rows? table = some rows

theorem fits_lineage (apart : model.NamesApart) :
    ((lineage direction row limit).traversal model).Fits model
      (.equals (.column .key) row.key.toJson) 0 limit := by
  cases direction <;> exact Traversal.fits_ofModel_of_apart apart _ true limit

theorem follows_lineage (keyed : table.IsKeyed model.keyKind) (apart : model.NamesApart)
    (member : row ∈ table) (bindable : row.key.IsBindable) {registry : Registry}
    {expression : RecursiveExpression}
    (compiled : compile registry .sqlite model ⟨model.tableName, none⟩
      ((lineage direction row limit).traversal model) = .ok expression) :
    expression.Follows (linePlan model direction row limit) table := by
  have follows := follows_of_compile (fits_lineage apart) compiled table
  refine { follows with direction := ?_, guard := ?_, anchor := fun other found => ?_ }
  · rw [follows.direction]
    cases direction <;> rfl
  · rw [follows.guard]
    cases direction <;> rfl
  · rw [follows.anchor other found, Bool.eq_iff_iff]
    refine (TreeRow.satisfies_key (keyed.key other found) (keyed.key row member) bindable).trans ?_
    simp [linePlan]

theorem checkParameters_equals {column : Column} {value : Value}
    (link : column = .key ∨ column = .parent) (bindable : value.IsBindable) :
    TreeQuery.checkParameters (Criterion.equals (.column column) value.toJson).parameters = .ok () := by
  refine TreeQuery.checkParameters_eq_ok.mpr fun parameter found => ?_
  have asked : parameter = (.column column, value.toJson) := by
    cases value <;> simp_all [Criterion.equals, Criterion.parameters, Value.toJson]
  rw [asked]
  rcases link with rfl | rfl <;> exact ⟨value, bindable⟩

theorem checkParameters_lineage (apart : model.NamesApart) (bindable : row.key.IsBindable)
    (bounds : ∀ bound, limit = some bound → fitsInt64 bound = true ∧ fitsInt64 (-bound) = true)
    {registry : Registry} {expression : RecursiveExpression}
    (compiled : compile registry .sqlite model ⟨model.tableName, none⟩
      ((lineage direction row limit).traversal model) = .ok expression) :
    TreeQuery.checkParameters expression.parameters = .ok () := by
  refine (checkParameters_of_compile (fits_lineage apart) compiled).mpr
    ⟨checkParameters_equals (.inl rfl) bindable, fun bound given => ?_⟩
  cases direction
  · exact (bounds bound given).2
  · exact (bounds bound given).1

theorem exists_lineageRows (keyed : table.IsKeyed model.keyKind) (apart : model.NamesApart)
    {registry : Registry} (supported : registry.grammarFor .sqlite = .ok .sqlite)
    (member : row ∈ table) (bindable : row.key.IsBindable)
    (bounds : ∀ bound, limit = some bound → fitsInt64 bound = true ∧ fitsInt64 (-bound) = true)
    (free : limit = none → ∀ row, ¬ table.OnCycle row) :
    ∃ expression, Setting.related ⟨model, registry, .sqlite⟩ (lineage direction row limit) =
        .ok (.ofExpression expression) ∧
      TreeQuery.checkParameters expression.parameters = .ok () ∧
      ∃ walks : List (List Row), walks.Nodup ∧
        (∀ walk, walk ∈ walks ↔ (linePlan model direction row limit).IsWalk table walk) ∧
        expression.rows? table =
          some (walks.map (linePlan model direction row limit).storedRow) := by
  obtain ⟨expression, compiled⟩ : ∃ expression,
      compile registry .sqlite model ⟨model.tableName, none⟩
        ((lineage direction row limit).traversal model) = .ok expression :=
    exists_compile (fits_lineage apart) supported
  have follows := follows_lineage keyed apart member bindable compiled
  exact ⟨expression, bind_eq_ok.mpr ⟨_, rfl, bind_eq_ok.mpr ⟨_, compiled, rfl⟩⟩,
    checkParameters_lineage apart bindable bounds compiled,
    follows.exists_storedWalks keyed (follows.stopsWith_of_bounds rfl bounds)
      fun unlimited _ _ _ row _ => free unlimited row⟩

theorem exists_lineage (keyed : table.IsKeyed model.keyKind) (apart : model.NamesApart)
    (member : row ∈ table) (bindable : row.key.IsBindable)
    (bounds : ∀ bound, limit = some bound → fitsInt64 bound = true ∧ fitsInt64 (-bound) = true)
    (free : limit = none → ∀ row, ¬ table.OnCycle row) :
    ∃ walks : List (List Row), walks.Nodup ∧
      (∀ walk, walk ∈ walks ↔ (linePlan model direction row limit).IsWalk table walk) ∧
      (lineage direction row limit).Yields { model := model } table
        (walks.map (linePlan model direction row limit).storedRow) := by
  obtain ⟨expression, related, accepted, walks, nodup, mem_walks, rows⟩ :=
    @exists_lineageRows model table direction limit row keyed apart .standard rfl member bindable
      bounds free
  refine ⟨walks, nodup, mem_walks, .ofExpression expression, related, ?_, ?_⟩
  · rwa [TreeQuery.parameters_ofExpression]
  · rwa [TreeQuery.rows?_ofExpression]

/-! ## The two directions -/

/-- Whether a row of a query is the row of a key at a depth. -/
def TreeRow.isAt (key : Value) (depth : Int) (treeRow : TreeRow) : Bool :=
  treeRow.row.key == key && treeRow.depth.equals (.int depth)

theorem isAt_iff (keyed : table.IsKeyed kind) (member : first ∈ table) (lastMember : last ∈ table)
    (bounds : ∀ bound, limit = some bound → 0 ≤ bound) :
    (linePlan model direction first limit).IsWalk table walk ∧
        ((linePlan model direction first limit).storedRow walk).isAt last.key depth = true ↔
      IsLine table direction limit first last walk ∧
        depth = direction.sign * min (walk.length - 1 : Nat) 0x8000000000000000 := by
  have shown : ((linePlan model direction first limit).storedRow walk).isAt last.key depth = true ↔
      (WalkPlan.lastRow walk).key = last.key ∧
        depth = direction.sign * min (walk.length - 1 : Nat) 0x8000000000000000 := by
    rw [TreeRow.isAt, Bool.and_eq_true, beq_iff_eq]
    exact and_congr Iff.rfl equals_storedDepth
  rw [shown, isLine_iff keyed member bounds, ← and_assoc]
  refine and_congr_left fun _ => and_congr_right fun made => ?_
  rw [made.getLast?_eq, Option.some.injEq]
  exact ⟨fun same => keyed.eq_of_key made.lastRow_mem lastMember same, congrArg Row.key⟩

theorem isAt_reverse (keyed : table.IsKeyed kind) (member : first ∈ table)
    (lastMember : last ∈ table) (bounds : ∀ bound, limit = some bound → 0 ≤ bound)
    (made : (linePlan model direction first limit).IsWalk table walk)
    (met : ((linePlan model direction first limit).storedRow walk).isAt last.key depth = true) :
    (linePlan model direction.opposite last limit).IsWalk table walk.reverse ∧
      ((linePlan model direction.opposite last limit).storedRow walk.reverse).isAt first.key
        (-depth) = true := by
  obtain ⟨line, same⟩ := (isAt_iff keyed member lastMember bounds).mp ⟨made, met⟩
  refine (isAt_iff keyed lastMember member bounds).mpr ⟨line.reverse, ?_⟩
  rw [same, List.length_reverse, ← Int.neg_mul]
  cases direction <;> rfl

theorem eq_of_isAt (keyed : table.IsKeyed kind) (member : first ∈ table) (lastMember : last ∈ table)
    (bounds : ∀ bound, limit = some bound → 0 ≤ bound ∧ bound < 0x8000000000000000)
    (free : limit = none → ∀ row, ¬ table.OnCycle row)
    (made : (linePlan model .down first limit).IsWalk table walk)
    (met : ((linePlan model .down first limit).storedRow walk).isAt last.key depth = true)
    (otherMade : (linePlan model .down first limit).IsWalk table walk')
    (otherMet : ((linePlan model .down first limit).storedRow walk').isAt last.key depth = true) :
    walk = walk' := by
  have positive : ∀ bound, limit = some bound → 0 ≤ bound := fun bound given =>
    (bounds bound given).1
  obtain ⟨line, at_depth⟩ := (isAt_iff keyed member lastMember positive).mp ⟨made, met⟩
  obtain ⟨otherLine, at_other⟩ :=
    (isAt_iff keyed member lastMember positive).mp ⟨otherMade, otherMet⟩
  have heads := line.head.trans otherLine.head.symm
  have lasts := line.last.trans otherLine.last.symm
  -- Without a limit no row is met twice, so two walks with the same ends are one. With a limit the
  -- depth gives the number of steps.
  cases given : limit with
  | none =>
    have avoids : (linePlan model .down first limit).AvoidsCycles table :=
      fun _ _ _ row _ => free given row
    rcases Nat.le_total walk.length walk'.length with shorter | longer
    · exact made.eq_of_ends keyed rfl avoids otherMade heads lasts shorter
    · exact (otherMade.eq_of_ends keyed rfl avoids made heads.symm lasts.symm longer).symm
  | some bound =>
    have within := (bounds bound given).2
    have short := line.short bound given
    have otherShort := otherLine.short bound given
    have length : walk.length = walk'.length := by
      have := made.length_pos
      have := otherMade.length_pos
      simp only [Direction.sign] at at_depth at_other
      omega
    exact made.eq_of_getLast keyed rfl otherMade lasts length

theorem eq_reverse_of_isAt (keyed : table.IsKeyed kind) (member : first ∈ table)
    (lastMember : last ∈ table)
    (bounds : ∀ bound, limit = some bound → 0 ≤ bound ∧ bound < 0x8000000000000000)
    (free : limit = none → ∀ row, ¬ table.OnCycle row)
    (made : (linePlan model .down first limit).IsWalk table walk)
    (met : ((linePlan model .down first limit).storedRow walk).isAt last.key depth = true)
    (upMade : (linePlan model .up last limit).IsWalk table walk')
    (upMet : ((linePlan model .up last limit).storedRow walk').isAt first.key (-depth) = true) :
    walk' = walk.reverse := by
  obtain ⟨reversed, metBack⟩ := isAt_reverse keyed lastMember member
    (fun bound given => (bounds bound given).1) upMade upMet
  rw [Int.neg_neg] at metBack
  rw [eq_of_isAt keyed member lastMember bounds free made met reversed metBack, List.reverse_reverse]

theorem countP_le_one {α : Type} {p : α → Bool} {items : List α} (nodup : items.Nodup)
    (same : ∀ a ∈ items, ∀ b ∈ items, p a = true → p b = true → a = b) : items.countP p ≤ 1 := by
  rw [List.countP_eq_length_filter]
  cases found : items.filter p with
  | nil => simp
  | cons a rest =>
    have chosen : a ∈ items ∧ p a = true := List.mem_filter.mp (by simp [found])
    have alone : items.filter p ⊆ [a] := fun b member => by
      obtain ⟨inside, holds⟩ := List.mem_filter.mp member
      exact List.mem_singleton.mpr (same b inside a chosen.1 holds chosen.2)
    rw [← found]
    exact ((nodup.filter p).subperm alone).length_le

/-- What stands below one row at some depth is what has that row above it at the opposite depth: the
relations of two rows, down from the first and up from the last, show each other's row alike, at each
depth once at most, and the path of the one row has the keys of the other's in reverse. -/
theorem opposite_lineages (keyed : table.IsKeyed model.keyKind) (apart : model.NamesApart)
    (member : first ∈ table) (lastMember : last ∈ table) (bindable : first.key.IsBindable)
    (lastBindable : last.key.IsBindable)
    (bounds : ∀ bound, limit = some bound → 0 ≤ bound ∧ bound < 0x8000000000000000)
    (free : limit = none → ∀ row, ¬ table.OnCycle row) :
    ∃ downRows upRows : List TreeRow,
      Relation.Yields ⟨.descendants, true, .ofRow first, Json.ofOption Json.int limit⟩
        { model := model } table downRows ∧
      Relation.Yields ⟨.ancestors, true, .ofRow last, Json.ofOption Json.int limit⟩
        { model := model } table upRows ∧
      ∀ depth : Int,
        ((∃ down ∈ downRows, down.isAt last.key depth = true) ↔
          ∃ up ∈ upRows, up.isAt first.key (-depth) = true) ∧
        downRows.countP (TreeRow.isAt last.key depth) ≤ 1 ∧
        upRows.countP (TreeRow.isAt first.key (-depth)) ≤ 1 ∧
        ∀ down ∈ downRows, ∀ up ∈ upRows, down.isAt last.key depth = true →
          up.isAt first.key (-depth) = true →
          ∃ walk, IsLine table .down limit first last walk ∧
            down = (linePlan model .down first limit).storedRow walk ∧
            up = (linePlan model .up last limit).storedRow walk.reverse ∧
            down.path = .text (model.separator.intercalate (walk.map Row.keyText)) ∧
            up.path = .text (model.separator.intercalate (walk.map Row.keyText).reverse) := by
  have positive : ∀ bound, limit = some bound → 0 ≤ bound := fun bound given =>
    (bounds bound given).1
  have fitting : ∀ bound, limit = some bound →
      fitsInt64 bound = true ∧ fitsInt64 (-bound) = true := by
    intro bound given
    obtain ⟨least, most⟩ := bounds bound given
    simp only [fitsInt64, Bool.and_eq_true, decide_eq_true_eq]
    omega
  obtain ⟨downs, nodup, mem_downs, downYields⟩ : ∃ downs, _ ∧ _ ∧
      (lineage .down first limit).Yields { model := model } table _ :=
    exists_lineage keyed apart member bindable fitting free
  obtain ⟨ups, upsNodup, mem_ups, upYields⟩ : ∃ ups, _ ∧ _ ∧
      (lineage .up last limit).Yields { model := model } table _ :=
    exists_lineage keyed apart lastMember lastBindable fitting free
  refine ⟨_, _, downYields, upYields, fun depth => ?_⟩
  simp only [List.mem_map, exists_exists_and_eq_and, List.countP_map]
  have returned : ∀ up ∈ ups,
      ((linePlan model .up last limit).storedRow up).isAt first.key (-depth) = true →
      (linePlan model .down first limit).IsWalk table up.reverse ∧
        ((linePlan model .down first limit).storedRow up.reverse).isAt last.key depth = true := by
    intro up found met
    have turned := isAt_reverse keyed lastMember member positive ((mem_ups up).mp found) met
    rwa [Int.neg_neg] at turned
  refine ⟨⟨?_, ?_⟩, countP_le_one nodup ?_, countP_le_one upsNodup ?_, ?_⟩
  · rintro ⟨down, found, met⟩
    obtain ⟨made, metBack⟩ :=
      isAt_reverse keyed member lastMember positive ((mem_downs down).mp found) met
    exact ⟨_, (mem_ups _).mpr made, metBack⟩
  · rintro ⟨up, found, met⟩
    obtain ⟨made, metBack⟩ := returned up found met
    exact ⟨_, (mem_downs _).mpr made, metBack⟩
  · exact fun down found other otherFound met otherMet => eq_of_isAt keyed member lastMember bounds
      free ((mem_downs down).mp found) met ((mem_downs other).mp otherFound) otherMet
  · intro up found other otherFound met otherMet
    -- Both are the one walk down, turned around.
    obtain ⟨made, metBack⟩ := returned up found met
    rw [eq_reverse_of_isAt keyed member lastMember bounds free made metBack
      ((mem_ups other).mp otherFound) otherMet, List.reverse_reverse]
  · rintro _ ⟨down, found, rfl⟩ _ ⟨up, upFound, rfl⟩ met upMet
    have made := (mem_downs down).mp found
    obtain rfl := eq_reverse_of_isAt keyed member lastMember bounds free made met
      ((mem_ups up).mp upFound) upMet
    have line := ((isAt_iff keyed member lastMember positive).mp ⟨made, met⟩).1
    refine ⟨down, line, rfl, rfl, rfl, ?_⟩
    rw [← List.map_reverse]
    rfl

/-- Two rows that are each other's parent, walked around more than once. -/
theorem opposite_mutualParents :
    ∃ downRows upRows : List TreeRow,
      Relation.Yields ⟨.descendants, true, .ofRow ⟨.int 1, .int 2, .text "one", none⟩, .int 3⟩
        { model := .standard } mutualParents downRows ∧
      Relation.Yields ⟨.ancestors, true, .ofRow ⟨.int 2, .int 1, .text "two", none⟩, .int 3⟩
        { model := .standard } mutualParents upRows ∧
      ((∃ down ∈ downRows, down.isAt (.int 2) 3 = true) ↔
        ∃ up ∈ upRows, up.isAt (.int 1) (-3) = true) ∧
      downRows.countP (TreeRow.isAt (.int 2) 3) ≤ 1 ∧
      upRows.countP (TreeRow.isAt (.int 1) (-3)) ≤ 1 := by
  have keyed : mutualParents.IsKeyed TreeModel.standard.keyKind := isKeyed_mutualParents
  have apart : TreeModel.standard.NamesApart := by decide
  have bounds : ∀ bound, some (3 : Int) = some bound → 0 ≤ bound ∧ bound < 0x8000000000000000 := by
    simp
  obtain ⟨downRows, upRows, downYields, upYields, alike⟩ := opposite_lineages keyed apart
    List.mem_cons_self (List.mem_cons_of_mem _ List.mem_cons_self) rfl rfl bounds
    fun unlimited => absurd unlimited (Option.some_ne_none 3)
  exact ⟨downRows, upRows, downYields, upYields, (alike 3).1, (alike 3).2.1, (alike 3).2.2.1⟩

end AdjacencyForest
