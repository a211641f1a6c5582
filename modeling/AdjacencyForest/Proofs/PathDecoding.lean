import AdjacencyForest.Proofs.PreOrder
import AdjacencyForest.Proofs.Provenance
import AdjacencyForest.Proofs.RepeatedKeys
import AdjacencyForest.Proofs.RootPaths

/-!
# Walks read from paths

A path is the texts of a walk's keys with the separator between them. If some character of the separator
stands in no key, the texts are read back by cutting the path where the separator is found first, then
where it is found first behind that, and so on: an occurrence that began within a key would have its
first such character where a key or the beginning of the separator stands, which have none. So a path
tells the walk, and with it the row and its depth.

Main statements: `partsFrom_intercalate`, texts are read back from what they are joined to;
`Reaches.parts_path`, the path of a walk; `paths_tell_walks`, what the paths of a recursive expression
and of the nodes of a session tell.
-/

namespace AdjacencyForest

/-! ## Cutting at a separator -/

namespace Text

/-- The parts of a text between the occurrences of a separator, each of which is searched behind the one
before; the characters to be skipped belong to the occurrence that was found last. -/
def partsFrom (separator : List Char) : (skipped : Nat) → List Char → List (List Char)
  | _, [] => [[]]
  | skipped + 1, _ :: rest => partsFrom separator skipped rest
  | 0, c :: rest =>
    if separator.isPrefixOf (c :: rest) then [] :: partsFrom separator (separator.length - 1) rest
    else (partsFrom separator 0 rest).modifyHead (c :: ·)

def parts (separator text : String) : List String :=
  (partsFrom separator.toList 0 text.toList).map String.ofList

variable {separator before after text rest part : List Char} {mark c : Char} {skipped : Nat}
  {texts : List (List Char)}

theorem partsFrom_ne_nil (separator : List Char) (skipped : Nat) (text : List Char) :
    partsFrom separator skipped text ≠ [] := by
  fun_induction partsFrom separator skipped text <;> simp_all

theorem partsFrom_skip (skip : List Char) :
    partsFrom separator skip.length (skip ++ rest) = partsFrom separator 0 rest := by
  induction skip with
  | nil => rfl
  | cons c skip ih => exact ih

theorem partsFrom_separator_append (nonempty : separator ≠ []) :
    partsFrom separator 0 (separator ++ rest) = [] :: partsFrom separator 0 rest := by
  obtain ⟨c, later, rfl⟩ := List.exists_cons_of_ne_nil nonempty
  have found : (c :: later).isPrefixOf (c :: (later ++ rest)) = true :=
    List.isPrefixOf_iff_prefix.mpr (List.prefix_append (c :: later) rest)
  rw [List.cons_append, partsFrom, if_pos found]
  exact congrArg ([] :: ·) (partsFrom_skip later)

theorem partsFrom_cons (unfound : ¬ separator <+: c :: text) :
    partsFrom separator 0 (c :: text) = (partsFrom separator 0 text).modifyHead (c :: ·) := by
  rw [partsFrom, if_neg (mt List.isPrefixOf_iff_prefix.mp unfound)]

theorem firstPart_eq_head (separator text : List Char) :
    some (ShownNode.firstPart separator text) = (partsFrom separator 0 text).head? := by
  induction text with
  | nil => rfl
  | cons c rest ih =>
    rw [ShownNode.firstPart, partsFrom]
    split
    · rfl
    · obtain ⟨first, more, parts⟩ :=
        List.exists_cons_of_ne_nil (partsFrom_ne_nil separator 0 rest)
      rw [parts] at ih ⊢
      exact congrArg (fun part => some (c :: part)) (Option.some.inj ih)

theorem holds_eq (nonempty : separator ≠ []) (text : List Char) :
    ShownNode.holds separator text = decide (1 < (partsFrom separator 0 text).length) := by
  induction text with
  | nil => simp [ShownNode.holds, partsFrom, nonempty]
  | cons c rest ih =>
    rw [ShownNode.holds, partsFrom]
    split
    next found =>
      have more := List.length_pos_iff.mpr (partsFrom_ne_nil separator (separator.length - 1) rest)
      simpa [found] using more
    next unfound => rw [List.length_modifyHead, ← ih, Bool.eq_false_of_not_eq_true unfound,
      Bool.false_or]

/-! ## Reading back -/

/-- The separator does not begin within a text in front of it that has no mark. -/
theorem not_prefix_of_mark (first : mark ∉ before) (clear : mark ∉ c :: part) :
    ¬ before ++ mark :: after <+: (c :: part) ++ ((before ++ mark :: after) ++ rest) := by
  intro found
  have marked : before ++ [mark] <+: (c :: part ++ before) ++ (mark :: after ++ rest) := by
    refine List.IsPrefix.trans ?_ (by simpa using found)
    simp
  have within : before ++ [mark] <+: c :: part ++ before :=
    List.prefix_of_prefix_length_le marked (List.prefix_append _ _) (by simp)
  have stands : mark ∈ c :: part ++ before := within.subset (by simp)
  exact (List.mem_append.mp stands).elim clear first

theorem partsFrom_append (found : mark ∈ separator) (clear : mark ∉ part) :
    partsFrom separator 0 (part ++ (separator ++ rest)) = part :: partsFrom separator 0 rest := by
  obtain ⟨before, after, rfl, first⟩ := List.eq_append_cons_of_mem found
  induction part with
  | nil => exact partsFrom_separator_append (by simp)
  | cons c part ih =>
    have later := ih fun inside => clear (List.mem_cons_of_mem c inside)
    have unfound := @not_prefix_of_mark before after rest part mark c first clear
    rw [List.cons_append] at unfound ⊢
    rw [partsFrom_cons unfound, later]
    rfl

theorem partsFrom_of_not_mem (found : mark ∈ separator) (clear : mark ∉ text) :
    partsFrom separator 0 text = [text] := by
  induction text with
  | nil => rfl
  | cons c text ih =>
    rw [partsFrom_cons fun begins => clear (begins.subset found),
      ih fun inside => clear (List.mem_cons_of_mem c inside)]
    rfl

/-- Texts without a character of the separator are read back from what they are joined to. -/
theorem partsFrom_intercalate (found : mark ∈ separator) (nonempty : texts ≠ [])
    (clear : ∀ text ∈ texts, mark ∉ text) :
    partsFrom separator 0 (separator.intercalate texts) = texts := by
  induction texts with
  | nil => exact absurd rfl nonempty
  | cons text texts ih =>
    have first := clear text List.mem_cons_self
    cases texts with
    | nil =>
      rw [List.intercalate_singleton]
      exact partsFrom_of_not_mem found first
    | cons next texts =>
      rw [List.intercalate_cons_cons, List.append_assoc, partsFrom_append found first,
        ih (List.cons_ne_nil _ _) fun other member => clear other (List.mem_cons_of_mem text member)]

theorem parts_intercalate {separator : String} {texts : List String} (found : mark ∈ separator.toList)
    (nonempty : texts ≠ []) (clear : ∀ text ∈ texts, mark ∉ text.toList) :
    parts separator (separator.intercalate texts) = texts := by
  rw [parts, String.toList_intercalate, partsFrom_intercalate found (by simpa using nonempty)
    (by simpa using clear), List.map_map]
  exact (List.map_congr_left fun text _ => String.ofList_toList).trans (List.map_id texts)

end Text

/-! ## Walks of an expression -/

/-- The expression makes a row of a walk: an anchor row of the walk that has only been started, and of a
longer walk a successor of what it makes of the walk without its last step. -/
inductive RecursiveExpression.Reaches (expression : RecursiveExpression) (table : Table) :
    List Row → TreeRow → Prop
  | anchor {treeRow : TreeRow} (selected : treeRow ∈ expression.anchorRows table) :
    expression.Reaches table [treeRow.row] treeRow
  | step {walk : List Row} {treeRow later : TreeRow} (reached : expression.Reaches table walk treeRow)
    (joined : later ∈ expression.successors table treeRow) :
    expression.Reaches table (walk ++ [later.row]) later

namespace RecursiveExpression

variable {expression : RecursiveExpression} {table : Table} {treeRow other : TreeRow} {row : Row}
  {walk : List Row} {kind : KeyKind} {rows : List TreeRow}

theorem mem_anchorRows (selected : treeRow ∈ expression.anchorRows table) :
    treeRow.row ∈ table ∧ treeRow = ⟨treeRow.row, Value.ofInt expression.initialDepth,
      (treeRow.row.value expression.keyColumn).asText⟩ := by
  obtain ⟨row, found, rfl⟩ := List.mem_map.mp selected
  exact ⟨(List.mem_filter.mp found).1, rfl⟩

theorem mem_successors (joined : other ∈ expression.successors table treeRow) :
    other.row ∈ table ∧ other = expression.extend treeRow other.row := by
  unfold successors at joined
  split at joined
  · obtain ⟨row, found, rfl⟩ := List.mem_map.mp joined
    exact ⟨(List.mem_filter.mp found).1, rfl⟩
  · cases joined

/-- Every row of the result is made of a walk. -/
theorem exists_reaches (complete : expression.rows? table = some rows) :
    ∀ treeRow ∈ rows, ∃ walk, expression.Reaches table walk treeRow :=
  drain_keeps _ (fun _ selected => ⟨_, .anchor selected⟩)
    (fun _ ⟨_, reached⟩ _ joined => ⟨_, .step reached joined⟩) complete

namespace Reaches

theorem ne_nil (reached : expression.Reaches table walk treeRow) : walk ≠ [] := by
  cases reached <;> simp

theorem members (reached : expression.Reaches table walk treeRow) : ∀ row ∈ walk, row ∈ table := by
  induction reached with
  | anchor selected => exact List.forall_mem_singleton.mpr (mem_anchorRows selected).1
  | step _ joined ih =>
    exact List.forall_mem_append.mpr ⟨ih, List.forall_mem_singleton.mpr (mem_successors joined).1⟩

/-- A walk is made one row of. -/
theorem unique (reached : expression.Reaches table walk treeRow)
    (otherReached : expression.Reaches table walk other) : treeRow = other := by
  induction reached generalizing other with
  | @anchor treeRow selected =>
    generalize single : [treeRow.row] = walk at otherReached
    cases otherReached with
    | anchor otherSelected =>
      rw [(mem_anchorRows selected).2, (mem_anchorRows otherSelected).2, List.singleton_inj.mp single]
    | step before =>
      exact absurd (List.append_eq_singleton_iff.mp single.symm) (by simp [before.ne_nil])
  | @step walk treeRow later reached joined ih =>
    generalize longer : walk ++ [later.row] = whole at otherReached
    cases otherReached with
    | anchor =>
      exact absurd (List.append_eq_singleton_iff.mp longer) (by simp [reached.ne_nil])
    | step before otherJoined =>
      obtain ⟨rfl, last⟩ := List.append_singleton_inj.mp longer
      rw [(mem_successors joined).2, (mem_successors otherJoined).2, ih before, last]

/-- The path is the texts of the walk's keys with the separator between them. -/
theorem path_eq (reached : expression.Reaches table walk treeRow) (keyed : table.IsKeyed kind)
    (key : expression.keyColumn = .key) :
    treeRow.path = .text (expression.spec.separator.intercalate (walk.map Row.keyText)) := by
  induction reached with
  | anchor selected =>
    obtain ⟨member, same⟩ := mem_anchorRows selected
    rw [same, key]
    simp [Row.value, Value.asText, KeyKind.text?_key (keyed.key _ member)]
  | step reached joined ih =>
    obtain ⟨member, same⟩ := mem_successors joined
    rw [same, extend, key, ih, Row.value, Value.appendKey_text (KeyKind.text?_key (keyed.key _ member)),
      List.map_append, String.intercalate_append_of_ne_nil (by simpa using reached.ne_nil) (by simp)]
    simp

end Reaches
end RecursiveExpression

/-! ## Keys without a mark -/

/-- Some character of the separator stands in no key: for integers in none at all, for texts in none of
the table. -/
def KeyKind.IsMarkedBy (separator : String) (table : Table) : KeyKind → Prop
  | .integer => ∃ mark ∈ separator.toList, mark ≠ '-' ∧ Text.isAsciiDigit mark = false
  | .text => ∃ mark ∈ separator.toList, ∀ row ∈ table, mark ∉ row.keyText.toList

namespace Table.IsKeyed

variable {kind : KeyKind} {table : Table} {row other : Row} {walk otherWalk : List Row}
  {separator : String}

theorem exists_mark (keyed : table.IsKeyed kind) (marked : kind.IsMarkedBy separator table) :
    ∃ mark ∈ separator.toList, ∀ row ∈ table, mark ∉ row.keyText.toList := by
  cases kind with
  | integer =>
    obtain ⟨mark, found, notMinus, notDigit⟩ := marked
    refine ⟨mark, found, fun row member stands => ?_⟩
    obtain ⟨i, -, text⟩ := keyed.exists_keyText member
    rw [text] at stands
    rcases eq_or_isAsciiDigit_of_mem_writeInteger stands with minus | digit
    · exact notMinus minus
    · exact absurd digit (by simp [notDigit])
  | text => exact marked

theorem eq_of_text (keyed : table.IsKeyed kind) (member : row ∈ table) (otherMember : other ∈ table)
    (same : row.keyText = other.keyText) : row = other := by
  cases kind with
  | integer => exact keyed.eq_of_keyText member otherMember same
  | text =>
    refine keyed.eq_of_key member otherMember ?_
    have admitted := keyed.key row member
    have otherAdmitted := keyed.key other otherMember
    unfold Row.keyText at same
    cases key : row.key <;> cases otherKey : other.key <;>
      simp_all [KeyKind.Admits, Value.text?]

theorem eq_of_texts (keyed : table.IsKeyed kind) (members : ∀ row ∈ walk, row ∈ table)
    (otherMembers : ∀ row ∈ otherWalk, row ∈ table)
    (same : walk.map Row.keyText = otherWalk.map Row.keyText) : walk = otherWalk := by
  induction walk generalizing otherWalk with
  | nil => exact (List.map_eq_nil_iff.mp same.symm).symm
  | cons row walk ih =>
    obtain ⟨other, rest, rfl, first, later⟩ := List.map_eq_cons_iff.mp same.symm
    obtain ⟨member, members⟩ := List.forall_mem_cons.mp members
    obtain ⟨otherMember, otherMembers⟩ := List.forall_mem_cons.mp otherMembers
    rw [keyed.eq_of_text member otherMember first.symm, ih members otherMembers later.symm]

end Table.IsKeyed

/-! ## What a path tells -/

section Decoding

open RecursiveExpression

variable {registry : Registry} {engine : Engine} {model : TreeModel} {source : Source}
  {spec : Traversal} {expression : RecursiveExpression} {table : Table} {treeRow other : TreeRow}
  {walk : List Row}

theorem keyColumn_of_compile (compiled : compile registry engine model source spec = .ok expression)
    (key : spec.localKey = model.keyName) : expression.keyColumn = .key := by
  obtain ⟨-, -, -, -, found, -⟩ := compile_eq_ok compiled
  have first : model.column? model.keyName = some .key := by
    unfold TreeModel.column? TreeModel.columns
    split <;> simp [TreeModel.columnName]
  rw [key, first] at found
  exact (Option.some.inj found).symm

/-- The path can be cut into the texts of the walk's keys. -/
theorem RecursiveExpression.Reaches.parts_path (reached : expression.Reaches table walk treeRow)
    (keyed : table.IsKeyed model.keyKind) (key : expression.keyColumn = .key)
    (marked : model.keyKind.IsMarkedBy expression.spec.separator table) :
    ∃ path, treeRow.path = .text path ∧
      Text.parts expression.spec.separator path = walk.map Row.keyText := by
  obtain ⟨mark, found, clear⟩ := keyed.exists_mark marked
  refine ⟨_, reached.path_eq keyed key,
    Text.parts_intercalate found (by simpa using reached.ne_nil) fun text listed => ?_⟩
  obtain ⟨row, stands, rfl⟩ := List.mem_map.mp listed
  exact clear row (reached.members row stands)

theorem RecursiveExpression.Reaches.eq_of_path (reached : expression.Reaches table walk treeRow)
    {otherWalk : List Row} (otherReached : expression.Reaches table otherWalk other)
    (keyed : table.IsKeyed model.keyKind) (key : expression.keyColumn = .key)
    (marked : model.keyKind.IsMarkedBy expression.spec.separator table)
    (same : treeRow.path = other.path) : walk = otherWalk ∧ treeRow = other := by
  obtain ⟨path, shown, parts⟩ := reached.parts_path keyed key marked
  obtain ⟨otherPath, otherShown, otherParts⟩ := otherReached.parts_path keyed key marked
  obtain rfl : path = otherPath := Value.text.inj (shown.symm.trans (same.trans otherShown))
  obtain rfl := keyed.eq_of_texts reached.members otherReached.members (parts.symm.trans otherParts)
  exact ⟨rfl, reached.unique otherReached⟩

/-- The node tells of a walk the key that it starts from, and whether it has a step. -/
def ShownNode.Tells (model : TreeModel) (node : ShownNode) (walk : List Row) : Prop :=
  (∃ first, walk.head? = some first ∧ node.firstOnPath model = .ok first.keyText) ∧
    node.isNested model = .ok (decide (1 < walk.length))

theorem RecursiveExpression.Reaches.tells (reached : expression.Reaches table walk treeRow)
    (keyed : table.IsKeyed model.keyKind) (key : expression.keyColumn = .key)
    (separator : expression.spec.separator = model.separator)
    (marked : model.keyKind.IsMarkedBy model.separator table) :
    (Entity.ofTreeRow treeRow).shown.Tells model walk := by
  obtain ⟨path, shown, parts⟩ := reached.parts_path keyed key (separator ▸ marked)
  obtain ⟨mark, found, -⟩ := keyed.exists_mark marked
  have nonempty : model.separator.toList ≠ [] := List.ne_nil_of_mem found
  have given : (Entity.ofTreeRow treeRow).shown.pathText model = .ok path := by
    have same : (Entity.ofTreeRow treeRow).shown.path = treeRow.path.toJson := rfl
    unfold ShownNode.pathText
    rw [same, shown]
    rfl
  rw [separator, Text.parts] at parts
  obtain ⟨first, rest, rfl⟩ := List.exists_cons_of_ne_nil reached.ne_nil
  constructor
  · refine ⟨first, rfl, ?_⟩
    have head := congrArg List.head? parts
    rw [List.head?_map, ← Text.firstPart_eq_head] at head
    have whole : model.separator.isEmpty = false := by simpa using nonempty
    unfold ShownNode.firstOnPath
    rw [given]
    simp only [bind, Except.bind, whole]
    exact congrArg Except.ok (Option.some.inj head)
  · have length := congrArg List.length parts
    rw [List.length_map, List.length_map] at length
    unfold ShownNode.isNested
    rw [given, ← length]
    exact congrArg Except.ok (Text.holds_eq nonempty path.toList)

end Decoding

namespace Session

variable {session after : Session} {query : TreeQuery} {expression : RecursiveExpression}
  {scopes : List Scope} {entities : List Entity}

/-- The nodes that a query of an expression answers show rows of the expression. -/
theorem exists_rows_of_run_all (chain : (TreeQuery.ofExpression expression).applyAll scopes = .ok query)
    (ran : (all query).run.run session = (.ok entities, after)) :
    ∃ rows, expression.rows? after.table = some rows ∧
      ∀ entity ∈ entities, ∃ treeRow ∈ rows, entity = .ofTreeRow treeRow := by
  obtain ⟨criteria, rfl, -⟩ := TreeQuery.applyAll_eq_ok chain
  unfold all at ran
  rw [run_bind] at ran
  split at ran
  next read prepared shown =>
    rw [run_take_of_expression rfl] at ran
    cases ran
    obtain ⟨rows, found, rfl⟩ := Option.map_eq_some_iff.mp (rows?_of_run_rows shown)
    have table (read : List TreeRow) : (prepared.overwrite read).table = prepared.table :=
      table_learnRows _ _
    refine ⟨rows, (table _).symm ▸ found, fun entity answered => ?_⟩
    obtain ⟨treeRow, listed, rfl⟩ := List.mem_map.mp answered
    obtain ⟨original, member, rfl⟩ := List.mem_map.mp listed
    have first := List.mem_of_find?_eq_some (find?_eq_firstOf member)
    exact ⟨_, (TreeQuery.mem_matching.mp ((TreeQuery.arranged_perm _ _).mem_iff.mp first)).1, rfl⟩
  next => cases ran

end Session

open RecursiveExpression in
/-- In any result of a recursive expression a path tells the walk that it is written for: cut at the
separator it gives the texts of the walk's keys, so rows with one path are the same row at the same
depth. And each node that a query of the expression answers shows the path of one of these rows, whose
first part is the key of the walk's first row, and which has the separator iff the walk has a step. -/
theorem paths_tell_walks {registry : Registry} {engine : Engine} {model : TreeModel} {source : Source}
    {spec : Traversal} {expression : RecursiveExpression} {table : Table} {rows : List TreeRow}
    (compiled : compile registry engine model source spec = .ok expression)
    (key : spec.localKey = model.keyName) (keyed : table.IsKeyed model.keyKind)
    (marked : model.keyKind.IsMarkedBy spec.separator table)
    (complete : expression.rows? table = some rows) :
    (∀ treeRow ∈ rows, ∃ walk path, expression.Reaches table walk treeRow ∧
      (∀ other, expression.Reaches table other treeRow → other = walk) ∧
      treeRow.path = .text path ∧ Text.parts spec.separator path = walk.map Row.keyText) ∧
    (∀ treeRow ∈ rows, ∀ other ∈ rows, treeRow.path = other.path →
      treeRow.row = other.row ∧ treeRow.depth = other.depth) ∧
    (spec.separator = model.separator →
      ∀ (session after : Session) (scopes : List Scope) (query : TreeQuery) (entities : List Entity),
        (TreeQuery.ofExpression expression).applyAll scopes = .ok query →
        (Session.all query).run.run session = (.ok entities, after) → after.table = table →
        ∀ entity ∈ entities, ∃ treeRow ∈ rows, ∃ walk, expression.Reaches table walk treeRow ∧
          entity = .ofTreeRow treeRow ∧ entity.shown.Tells model walk) := by
  have keyColumn := keyColumn_of_compile compiled key
  obtain ⟨-, rfl, -⟩ := compile_eq_ok compiled
  have exists_walk := exists_reaches complete
  refine ⟨fun treeRow member => ?_, fun treeRow member other otherMember same => ?_,
    fun separator session after scopes query entities chain ran now entity answered => ?_⟩
  · obtain ⟨walk, reached⟩ := exists_walk treeRow member
    obtain ⟨path, shown, parts⟩ := reached.parts_path keyed keyColumn marked
    exact ⟨walk, path, reached, fun other otherReached =>
      (otherReached.eq_of_path reached keyed keyColumn marked rfl).1, shown, parts⟩
  · obtain ⟨walk, reached⟩ := exists_walk treeRow member
    obtain ⟨otherWalk, otherReached⟩ := exists_walk other otherMember
    obtain ⟨-, rfl⟩ := reached.eq_of_path otherReached keyed keyColumn marked same
    exact ⟨rfl, rfl⟩
  · subst now
    obtain ⟨shownRows, found, shows⟩ := Session.exists_rows_of_run_all chain ran
    obtain rfl : rows = shownRows := Option.some.inj (complete.symm.trans found)
    obtain ⟨treeRow, member, rfl⟩ := shows entity answered
    obtain ⟨walk, reached⟩ := exists_walk treeRow member
    exact ⟨treeRow, member, walk, reached, rfl,
      reached.tells keyed keyColumn separator (separator ▸ marked)⟩

/-- The model of the service with a separator that begins like a key. -/
def digitSeparated : TreeModel := { TreeModel.standard with separator := "1." }

/-- The paths of three rows in a row, with a separator that begins like a key. -/
theorem paths_tell_walks_digitSeparated :
    ∃ expression rows,
      RecursiveExpression.compile .standard .sqlite digitSeparated ⟨"nodes", none⟩
        (treeTraversal digitSeparated none) = .ok expression ∧
      expression.rows? threeInARow = some rows ∧
      rows.map TreeRow.path = [.text "1", .text "11.2", .text "11.21.3"] ∧
      ∀ treeRow ∈ rows, ∃ walk path, expression.Reaches threeInARow walk treeRow ∧
        treeRow.path = .text path ∧ Text.parts "1." path = walk.map Row.keyText := by
  obtain ⟨expression, rows, compiled, complete, paths⟩ : ∃ expression rows,
      RecursiveExpression.compile .standard .sqlite digitSeparated ⟨"nodes", none⟩
        (treeTraversal digitSeparated none) = .ok expression ∧
      expression.rows? threeInARow = some rows ∧
      rows.map TreeRow.path = [.text "1", .text "11.2", .text "11.21.3"] :=
    ⟨_, _, rfl, rfl, rfl⟩
  have keyed : threeInARow.IsKeyed digitSeparated.keyKind := isKeyed_threeInARow
  have marked : digitSeparated.keyKind.IsMarkedBy "1." threeInARow :=
    ⟨'.', by decide, by decide, by decide⟩
  obtain ⟨tells, -, -⟩ := paths_tell_walks compiled rfl keyed marked complete
  refine ⟨expression, rows, compiled, complete, paths, fun treeRow member => ?_⟩
  obtain ⟨walk, path, reached, -, shown, parts⟩ := tells treeRow member
  exact ⟨walk, path, reached, shown, parts⟩

end AdjacencyForest
