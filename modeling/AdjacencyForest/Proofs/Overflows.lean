import AdjacencyForest.Proofs.AndSelf
import AdjacencyForest.Proofs.Demands
import AdjacencyForest.Proofs.PayloadCells
import AdjacencyForest.Proofs.ReadBack
import AdjacencyForest.Proofs.RoundTrip

/-!
# Integers that the store does not take

Integers of requests have any size, those of the store 64 bits. Where a request hands on one that is too
large, no refusal of the service is given: the fault is left to the server.

Main statements: `answeredIff_node`, a demand for a node; `exists_listedWalks`, walks in either order;
`answeredIff_answerRelation`, `answeredIff_answerPage`, `answeredIff_answerCreate`,
`answeredIff_answerUpdate` and `answeredIff_answerExport`, the integers that decide for each of them.
-/

namespace AdjacencyForest.Service

variable {α β : Type} {fits : Prop} {step : Outcome α} {next : α → Outcome β} {answer : α}

/-- The outcome is an answer, or a refusal for the client's own fault. -/
def IsAnswered (outcome : Outcome α) : Prop :=
  ∀ refusal, outcome = .error refusal → refusal.IsClientError

namespace IsAnswered

theorem of_ok (answered : step = .ok answer) : IsAnswered step := by
  rintro refusal refused
  exact absurd (answered.symm.trans refused) (by simp)

theorem status {code : Nat} (client : 400 ≤ code ∧ code < 500) (detail : String) :
    IsAnswered (.error (.status code detail) : Outcome α) := by
  rintro refusal ⟨⟩
  exact client

theorem bind (first : IsAnswered step) (rest : ∀ a, step = .ok a → IsAnswered (next a)) :
    IsAnswered (step >>= next) := by
  cases done : step with
  | ok a => exact rest a done
  | error refusal =>
    rintro other refused
    obtain rfl := Except.error.inj refused
    exact first refusal done

theorem not_fault (cause : Fault) : ¬ IsAnswered (.error (.fault cause) : Outcome α) :=
  fun answered => absurd (answered _ rfl).2 (lt_irrefl 500)

end IsAnswered

/-- The outcome is answered if something fits the store, and fails for an integer otherwise. -/
structure AnsweredIff (fits : Prop) (outcome : Outcome α) : Prop where
  answered : fits → IsAnswered outcome
  overflows : ¬ fits → outcome = .error (.fault .integerOverflow)

namespace AnsweredIff

theorem of_answered (holds : fits) (answered : IsAnswered step) : AnsweredIff fits step :=
  ⟨fun _ => answered, fun beyond => absurd holds beyond⟩

/-- Nothing is handed on. -/
theorem of_nothing (answered : IsAnswered step) :
    AnsweredIff (∀ i ∈ ([] : List Int), fitsInt64 i = true) step :=
  .of_answered (List.forall_mem_nil _) answered

theorem of_step {work : Except Fault α} (done : fits → ∃ a, work = .ok a)
    (refused : ¬ fits → work = .error .integerOverflow) : AnsweredIff fits (orFault work) where
  answered holds := by
    obtain ⟨a, made⟩ := done holds
    exact .of_ok (orFault_eq_ok.mpr made)
  overflows beyond := by
    rw [refused beyond]
    rfl

theorem bind (first : AnsweredIff fits step) (rest : ∀ a, step = .ok a → IsAnswered (next a)) :
    AnsweredIff fits (step >>= next) :=
  ⟨fun holds => (first.answered holds).bind rest,
    fun beyond => bind_of_error (first.overflows beyond) _⟩

theorem congr {others : Prop} (same : fits ↔ others) (settled : AnsweredIff fits step) :
    AnsweredIff others step :=
  ⟨fun holds => settled.answered (same.mpr holds), fun beyond => settled.overflows fun holds =>
    beyond (same.mp holds)⟩

theorem map {convert : α → β} (settled : AnsweredIff fits step) :
    AnsweredIff fits (step.map convert) where
  answered holds refusal refused := settled.answered holds refusal (map_eq_error.mp refused)
  overflows beyond := map_eq_error.mpr (settled.overflows beyond)

theorem iff (settled : AnsweredIff fits step) : IsAnswered step ↔ fits := by
  refine ⟨fun answered => ?_, settled.answered⟩
  by_contra beyond
  exact IsAnswered.not_fault _ (settled.overflows beyond ▸ answered)

end AnsweredIff

variable {settings : Settings} {table : Table} {request : Request} {row : Row} {key : String}
  {draft : NodeDraft} {id parent : Int} {limit : Option Int} {order : WalkOrder} {asked : NodeDemand}
  {shown : List TreeRow}

/-! ## Nodes of a key -/

theorem bindInteger_of_beyond (beyond : ¬ fitsInt64 id = true) :
    bindInteger id = .error .integerOverflow := if_neg beyond

theorem nodeOfKey_of_beyond (beyond : ¬ fitsInt64 id = true) :
    nodeOfKey table id = .error (.fault .integerOverflow) := by
  unfold nodeOfKey rowOf?
  rw [bindInteger_of_beyond beyond]
  rfl

/-- A demand for a node: the row is looked for first, and only if it is there the rest is asked. -/
theorem answeredIff_node {next : Row → Outcome α} (keyed : table.IsKeyed .integer)
    (later : ∀ row ∈ table, row.key = .int id → fitsInt64 id = true →
      AnsweredIff (∀ i ∈ asked.integers settings, fitsInt64 i = true) (next row)) :
    AnsweredIff (∀ i ∈ (Demand.node id asked).integers settings table, fitsInt64 i = true)
      (nodeOfKey table id >>= next) := by
  by_cases fits : fitsInt64 id = true
  · cases found : table.find? (.int id) with
    | none =>
      have absent := Table.find?_eq_none_iff_contains.mp found
      refine .of_answered (by simp [Demand.integers, absent, fits]) ?_
      rw [bind_of_error (nodeOfKey_of_missing fits found)]
      exact .status (by decide) _
    | some row =>
      obtain ⟨member, rowKey⟩ := (Table.find?_iff keyed).mp found
      rw [bind_of_ok (nodeOfKey_eq_ok.mpr ⟨fits, found⟩)]
      refine (later row member rowKey fits).congr ?_
      simp [Demand.integers, Table.contains_of_find? found, fits]
  · refine ⟨fun all => absurd (all id List.mem_cons_self) fits, fun _ => ?_⟩
    exact bind_of_error (nodeOfKey_of_beyond fits) _

/-! ## Walks -/

/-- The walks of a query in a forest, which always end: in either order they are listed, or an integer
is refused that limits their depth. -/
theorem exists_listedWalks (forest : table.IsForest)
    (supported : settings.registry.grammarFor .sqlite = .ok .sqlite) {query : DepthQuery}
    (asked : query.IsAsked table) :
    ∃ expression, settings.setting.query (query.start settings.treeMaxDepth) =
        .ok (.ofExpression expression) ∧
      ∀ limit order,
        ((∀ i ∈ (settings.treeMaxDepth.toList ++ limit.toList).map (query.direction.sign * ·),
            fitsInt64 i = true) →
          ∃ shown, orderedRows table (narrowed query.direction expression limit) order = .ok shown ∧
            ∀ treeRow ∈ shown, ∃ walk, (∀ row ∈ walk, row ∈ table) ∧
              treeRow = (query.plan .standard table).storedRow walk) ∧
        (¬ (∀ i ∈ (settings.treeMaxDepth.toList ++ limit.toList).map (query.direction.sign * ·),
            fitsInt64 i = true) →
          orderedRows table (narrowed query.direction expression limit) order =
            .error .integerOverflow) := by
  have apart : TreeModel.standard.NamesApart := by decide
  obtain ⟨expression, built, compiled⟩ :=
    @DepthQuery.exists_query .standard settings.registry query apart supported settings.treeMaxDepth
  refine ⟨expression, built, fun limit order => ?_⟩
  have criterion := DepthQuery.accepts_criterion asked
  have parameters : (narrowed query.direction expression limit).parameters =
      query.criterion.parameters ++ ((settings.treeMaxDepth.toList ++ limit.toList).map
        (query.direction.sign * ·)).map fun i => (.depth, .int i) := by
    simp only [parameters_narrowed, DepthQuery.parameters_of_compile apart compiled,
      List.append_assoc, List.map_append, List.map_map, Function.comp_def]
  -- All integers are bound in the one query, so one that does not fit refuses it.
  refine ⟨fun fits => ?_, fun beyond => ?_⟩
  · have takes : query.StoreTakes settings.treeMaxDepth := fun bound given =>
      fits _ (List.mem_map_of_mem (List.mem_append_left _ (by simp [given])))
    obtain ⟨same, levels, sameBuilt, -, ended, found⟩ :=
      DepthQuery.exists_rows_of_finite forest.keyed apart supported asked takes
        fun _ => avoidsCycles_of_forest forest _
    obtain rfl : expression = same := Option.some.inj
      (congrArg TreeQuery.expression (Except.ok.inj (built.symm.trans sameBuilt)))
    obtain ⟨kept, narrowedRows, part⟩ : ∃ kept : List TreeRow,
        (narrowed query.direction expression limit).rows? table = some kept ∧ kept.Sublist _ :=
      exists_rows?_narrowed found
    obtain ⟨shown, ordered, members, -⟩ := exists_orderedRows_of_unsorted order recursive_narrowed
      unsorted_narrowed (parameters ▸ accepts_depths criterion fits) narrowedRows
    refine ⟨shown, ordered, fun treeRow inside => ?_⟩
    obtain ⟨walk, listed, rfl⟩ := List.mem_map.mp (part.subset (members treeRow inside))
    exact ⟨walk, ((WalkPlan.mem_enumeration ended).mp listed).members, rfl⟩
  · refine orderedRows_of_refused recursive_narrowed ?_ order
    rw [parameters]
    exact refuses_depths criterion beyond

theorem exists_expression_of_related {relation : Relation} {query : TreeQuery}
    (related : settings.setting.related relation = .ok query) :
    ∃ expression, query = .ofExpression expression := by
  obtain ⟨source, -, related⟩ := bind_eq_ok.mp related
  obtain ⟨expression, -, related⟩ := bind_eq_ok.mp related
  exact ⟨expression, (pure_eq_ok.mp related).symm⟩

theorem isAnswered_answerWalk (showable : ∀ treeRow ∈ shown, IsShowable treeRow) :
    IsAnswered (answerWalk shown) := by
  obtain ⟨answer, answered, -⟩ := answerWalk_eq_ok showable
  exact .of_ok answered

section Walks

variable (forest : table.IsForest) (stored : table.IsStored)
  (presentable : ∀ row ∈ table, IsPresentable row)
  (supported : settings.registry.grammarFor .sqlite = .ok .sqlite)
include forest stored supported

theorem answeredIff_lineRows (member : row ∈ table) (direction : Direction) (andSelf : Bool) :
    AnsweredIff
      (∀ i ∈ (NodeDemand.line direction andSelf order limit).integers settings, fitsInt64 i = true)
      (orFault do
        let query ← relationQuery settings direction.kinship ⟨id, andSelf, order, limit⟩ row
        orderedRows table query order) := by
  obtain ⟨expression, built, listed⟩ := exists_listedWalks forest supported
    (@isAsked_relatives andSelf table row direction forest stored member)
  obtain ⟨taken, refused⟩ := listed limit order
  rw [bind_of_ok (relationQuery_narrowed built)]
  exact .of_step (fun fits => (taken fits).imp fun _ shown => shown.1) refused

include presentable

theorem answeredIff_answerRelation (direction : Direction) (andSelf : Bool) :
    AnsweredIff (∀ i ∈ (Demand.node id (.line direction andSelf order limit)).integers settings table,
        fitsInt64 i = true)
      (answerRelation settings table direction.kinship ⟨id, andSelf, order, limit⟩) := by
  refine answeredIff_node forest.keyed fun row member rowKey _ =>
    (answeredIff_lineRows forest stored supported member direction andSelf).bind fun shown listed => ?_
  obtain ⟨query, queried, ordered⟩ := bind_eq_ok.mp (orFault_eq_ok.mp listed)
  have proper : direction.kinship ≠ .bare := by cases direction <;> decide
  exact isAnswered_answerWalk ((isTraversal_relationQuery proper queried).isShowable_ordered
    forest.keyed presentable stored.count ordered)

theorem answeredIff_answerSiblings {includeSelf : Bool}
    (valid : Check.both (pathKey key) (request.parameter "include_self" (.ok false) truth) =
      .ok (id, includeSelf)) :
    AnsweredIff (∀ i ∈ (Demand.node id (.siblings includeSelf)).integers settings table,
      fitsInt64 i = true) (answerSiblings settings table request key) := by
  unfold answerSiblings
  rw [bind_of_ok (orInvalid_eq_ok.mpr valid)]
  refine answeredIff_node forest.keyed fun row member rowKey _ => .of_nothing ?_
  have linked := forest.isLinked stored member
  obtain ⟨i, rowKey, inside⟩ := linked.key
  obtain ⟨query, same, related, applied, accepted, found⟩ := @yields_beside .standard _ table row
    forest.keyed member (Value.IsLink.ofJson_eq (.inr ⟨i, rowKey, inside⟩)) linked.parent.ofJson_eq
    (by decide) supported includeSelf
  obtain rfl : query = same := Except.ok.inj applied
  obtain ⟨expression, rfl⟩ := exists_expression_of_related related
  obtain ⟨shown, ordered, -⟩ := exists_orderedRows_of_unsorted .depth rfl rfl accepted found
  have listed : orFault (do
      let query ← settings.setting.related ⟨.siblings, includeSelf, .ofRow row, .null⟩
      orderedRows table query .depth) = .ok shown :=
    orFault_eq_ok.mpr (bind_eq_ok.mpr ⟨_, related, ordered⟩)
  rw [bind_of_ok listed]
  have proper : Kinship.siblings ≠ .bare := by decide
  exact isAnswered_answerWalk ((isTraversal_related proper (rfl : _ = Json.ofOption Json.int none)
    related).isShowable_ordered forest.keyed presentable stored.count ordered)

omit presentable in
theorem answeredIff_answerPath (address : pathKey key = .ok id) :
    AnsweredIff (∀ i ∈ (Demand.node id .path).integers settings table, fitsInt64 i = true)
      (answerPath settings table key) := by
  unfold answerPath
  rw [bind_of_ok (orInvalid_eq_ok.mpr address)]
  refine answeredIff_node forest.keyed fun row member rowKey _ => ?_
  have rows := @answeredIff_lineRows settings table row id none .breadth forest stored supported member
    .up true
  refine (rows.bind fun _ _ => .of_ok rfl).congr ?_
  simp [NodeDemand.integers]

omit stored presentable in
theorem treeRows_cases :
    ((∀ i ∈ settings.treeMaxDepth.toList, fitsInt64 i = true) →
      ∃ shown, treeRows settings table = .ok shown ∧ ∀ treeRow ∈ shown, ∃ walk,
        (∀ row ∈ walk, row ∈ table) ∧
        treeRow = (DepthQuery.tree.plan .standard table).storedRow walk) ∧
    (¬ (∀ i ∈ settings.treeMaxDepth.toList, fitsInt64 i = true) →
      treeRows settings table = .error .integerOverflow) := by
  obtain ⟨expression, built, listed⟩ :=
    @exists_listedWalks settings table forest supported .tree trivial
  have made : treeRows settings table =
      orderedRows table (narrowed .down expression none) .depth := bind_of_ok built
  rw [made]
  simpa [DepthQuery.direction, Direction.sign] using listed none .depth

theorem answeredIff_answerTree :
    AnsweredIff (∀ i ∈ settings.treeMaxDepth.toList, fitsInt64 i = true)
      (answerTree settings table) := by
  obtain ⟨listed, refused⟩ := treeRows_cases forest supported
  refine (AnsweredIff.of_step (fun fits => (listed fits).imp fun _ => And.left) refused).bind
    fun shown made => ?_
  obtain ⟨query, built, ordered⟩ := bind_eq_ok.mp (orFault_eq_ok.mp made)
  exact isAnswered_answerWalk
    ((isTraversal_tree built).isShowable_ordered forest.keyed presentable stored.count ordered)

end Walks

/-! ## Lists -/

section Lists

variable (presentable : ∀ row ∈ table, IsPresentable row)
include presentable

theorem isAnswered_answerNodes {rows : List Row} (inside : ∀ row ∈ rows, row ∈ table) :
    IsAnswered (answerNodes rows) := by
  obtain ⟨answer, answered, -⟩ := exists_answerNodes presentable inside
  exact .of_ok answered

theorem isAnswered_answerProposals {term : String} (takes : SearchTakes table term)
    (read : request.parameter "q" (Check.fail .missing .null) text = .ok term) :
    IsAnswered (answerProposals table request) := by
  rw [answerProposals, bind_of_ok (orInvalid_eq_ok.mpr read),
    bind_of_ok (orFault_eq_ok.mpr (searchRows_eq_ok takes))]
  exact isAnswered_answerNodes presentable fun row member =>
    (mem_foundRows.mp (List.mem_of_mem_take member)).1

variable (keyed : table.IsKeyed .integer)
include keyed

theorem answeredIff_answerChildren (address : pathKey key = .ok id) :
    AnsweredIff (∀ i ∈ (Demand.children id).integers settings table, fitsInt64 i = true)
      (answerChildren table key) := by
  refine ⟨fun fits => ?_, fun beyond => ?_⟩
  · obtain ⟨answer, answered, -⟩ :=
      answerChildren_lists keyed presentable (fits id List.mem_cons_self)
    exact .of_ok (answered key address)
  · have beyond : ¬ fitsInt64 id = true := fun fits =>
      beyond fun i member => List.mem_singleton.mp member ▸ fits
    unfold answerChildren childrenOf
    rw [bind_of_ok (orInvalid_eq_ok.mpr address), bindInteger_of_beyond beyond]
    rfl

theorem answeredIff_answerPage {page : PageRequest} (takes : SearchTakes table page.term)
    (read : PageRequest.ofRequest request = .ok page) :
    AnsweredIff (∀ i ∈ (Demand.page page).integers settings table, fitsInt64 i = true)
      (answerPage table request) := by
  have listed : page.rows table = (do
      let _ ← bindInteger page.size
      let _ ← bindInteger ((page.page - 1) * page.size)
      return (pageOf page.page.toNat page.size.toNat (foundRows table page.term),
        (foundRows table page.term).length)) := bind_of_ok (searched_eq_ok keyed takes)
  rw [answerPage, bind_of_ok (orInvalid_eq_ok.mpr read)]
  refine (AnsweredIff.of_step (fun fits => ?_) fun beyond => ?_).bind fun told made => ?_
  · rw [listed, bind_of_ok (bindInteger_eq_ok.mpr ⟨fits _ List.mem_cons_self, rfl⟩),
      bind_of_ok (bindInteger_eq_ok.mpr ⟨fits _ (List.mem_cons_of_mem _ List.mem_cons_self), rfl⟩)]
    exact ⟨_, rfl⟩
  · rw [listed]
    by_cases fits : fitsInt64 page.size = true
    · have beyond : ¬ fitsInt64 ((page.page - 1) * page.size) = true := fun product =>
        beyond (by simp [Demand.integers, fits, product])
      rw [bind_of_ok (bindInteger_eq_ok.mpr ⟨fits, rfl⟩), bindInteger_of_beyond beyond]
      rfl
    · rw [bindInteger_of_beyond fits]
      rfl
  · rw [orFault_eq_ok, listed] at made
    obtain ⟨-, -, made⟩ := bind_eq_ok.mp made
    obtain ⟨-, -, made⟩ := bind_eq_ok.mp made
    obtain rfl := pure_eq_ok.mp made
    obtain ⟨views, shown⟩ := exists_areShownAs fun row (member : row ∈ foundRows table page.term) =>
      presentable row (mem_foundRows.mp member).1
    dsimp only
    rw [(shown.pageOf _ _).viewAll_eq_ok 0]
    exact .of_ok rfl

end Lists

/-! ## Writing -/

theorem checkParent_eq_lookup (other : parent ≠ 0) : checkParent table (some parent) = (do
    match ← orFault (rowOf? table parent) with
    | some _ => return
    | none => throw (.status 400 s!"Parent with id {parent} not found")) := if_neg other

theorem checkParent_of_missing (other : parent ≠ 0) (fits : fitsInt64 parent = true)
    (missing : table.find? (.int parent) = none) : checkParent table (some parent) =
      .error (.status 400 s!"Parent with id {parent} not found") := by
  rw [checkParent_eq_lookup other, bind_of_ok (orFault_eq_ok.mpr (rowOf?_eq_ok.mpr ⟨fits, rfl⟩)),
    missing]
  rfl

theorem answeredIff_checkParent :
    AnsweredIff (∀ i ∈ draft.lookedUp, fitsInt64 i = true) (checkParent table draft.parent) := by
  unfold NodeDraft.lookedUp
  cases draft.parent with
  | none => exact .of_answered (by simp) (.of_ok rfl)
  | some parent =>
    by_cases zero : parent = 0
    · exact .of_answered (by simp [zero]) (.of_ok (if_pos zero))
    · refine ⟨fun fits => ?_, fun beyond => ?_⟩
      · have fits : fitsInt64 parent = true := fits parent (by simp [zero])
        cases found : table.find? (.int parent) with
        | none =>
          rw [checkParent_of_missing zero fits found]
          exact .status (by decide) _
        | some row =>
          rw [checkParent_eq_lookup zero,
            bind_of_ok (orFault_eq_ok.mpr (rowOf?_eq_ok.mpr ⟨fits, rfl⟩)), found]
          exact .of_ok rfl
      · have beyond : ¬ fitsInt64 parent = true := by simpa [zero] using beyond
        rw [checkParent_eq_lookup zero]
        unfold rowOf?
        rw [bindInteger_of_beyond beyond]
        rfl

/-- The data of a draft is accepted if the store takes its parent. -/
theorem accepts_draft {columns : List Column} {given : Json}
    (keyed : ∃ value, Value.ofParameter (.column .key) given = .ok value)
    (fits : ∀ parent, draft.parent = some parent → fitsInt64 parent = true) :
    TreeQuery.checkParameters
      (TreeModel.boundData columns { draft.toFields with key := given }) = .ok () := by
  refine TreeQuery.checkParameters_eq_ok.mpr fun parameter bound => ?_
  obtain ⟨column, -, rfl⟩ := List.mem_map.mp bound
  cases column with
  | key => exact keyed
  | label => exact ⟨.text draft.label, rfl⟩
  | payload => exact ⟨.null, rfl⟩
  | parent =>
    rw [if_neg (by decide), NodeFields.value, NodeDraft.toFields]
    cases asked : draft.parent with
    | none => exact ⟨.null, rfl⟩
    | some parent =>
      exact ⟨.int parent, by simp [Json.ofOption, Value.ofParameter, Value.ofJson, fits parent asked]⟩

theorem fits_parent_of_checkParent (checked : checkParent table draft.parent = .ok ()) (parent : Int)
    (given : draft.parent = some parent) : fitsInt64 parent = true := by
  rcases checkParent_eq_ok.mp checked parent given with rfl | ⟨fits, -⟩
  · rfl
  · exact fits

theorem insertNode_draft (fits : ∀ parent, draft.parent = some parent → fitsInt64 parent = true) :
    TreeModel.standard.insertNode table draft.toFields = .ok (table.insert .integer
      (TreeModel.standard.rowOf (.int table.nextKey) draft.toFields), .int table.nextKey) :=
  TreeModel.insertNode_eq_ok.mpr ⟨accepts_draft ⟨.null, rfl⟩ fits, rfl, table.contains_nextKey, rfl⟩

theorem answeredIff_answerCreate {data : Option Json} (body : request.body.data? = .ok data)
    (valid : draftOf data = .ok draft) :
    AnsweredIff (∀ i ∈ (Demand.creation draft).integers settings table, fitsInt64 i = true)
      (answerCreate table request) := by
  rw [answerCreate, bind_of_ok body, bind_of_ok (orInvalid_eq_ok.mpr valid)]
  refine answeredIff_checkParent.bind fun _ checked => ?_
  rw [bind_of_ok (orFault_eq_ok.mpr (insertNode_draft (fits_parent_of_checkParent checked)))]
  have admitted : KeyKind.integer.Admits (.int table.nextKey) := trivial
  obtain ⟨answer, answered⟩ := exists_answerRow (Table.find?_insert_self table.contains_nextKey)
    (isPresentable_rowOf (NodeDraft.payload_of_draftOf valid) admitted)
  exact .of_ok (bind_eq_ok.mpr ⟨answer, answered, rfl⟩)

section Rows

variable (keyed : table.IsKeyed .integer) (stored : table.IsStored)
include keyed stored

theorem isAnswered_checkMove (supported : settings.registry.grammarFor .sqlite = .ok .sqlite)
    (member : row ∈ table) (parent : Option Int) :
    IsAnswered (checkMove settings table row parent) := by
  cases parent with
  | none => exact .of_ok rfl
  | some parent =>
    obtain ⟨i, rowKey⟩ := KeyKind.admits_integer_iff.mp (keyed.key row member)
    obtain ⟨below, told⟩ := exists_isAtOrBelow keyed rowKey (stored.keys row member i rowKey)
      stored.count supported (.int parent)
    unfold checkMove
    dsimp only
    rw [bind_of_ok (orFault_eq_ok.mpr told)]
    cases below with
    | true => exact .status (by decide) _
    | false => exact .of_ok rfl

theorem updateNode_draft (member : row ∈ table)
    (fits : ∀ parent, draft.parent = some parent → fitsInt64 parent = true) :
    TreeModel.standard.updateNode table row.key (.ofRow row)
        { draft.toFields with key := row.key.toJson } =
      .ok (table.modify row.key (TreeModel.rewritten (.ofRow row)
        { draft.toFields with key := row.key.toJson }), row.key) := by
  obtain ⟨i, rowKey⟩ := KeyKind.admits_integer_iff.mp (keyed.key row member)
  have inside := stored.keys row member i rowKey
  have accepted : ∃ value, Value.ofParameter (.column .key) row.key.toJson = .ok value :=
    ⟨.int i, by simp [rowKey, Value.toJson, Value.ofParameter, Value.ofJson, inside]⟩
  exact (TreeModel.updateNode_eq_ok (sameKey_ofRow keyed member draft)).mpr
    ⟨accepts_draft accepted fits, rfl, rfl⟩

theorem answeredIff_answerUpdate (supported : settings.registry.grammarFor .sqlite = .ok .sqlite)
    {data : Option Json} (body : request.body.data? = .ok data)
    (valid : Check.both (pathKey key) (draftOf data) = .ok (id, draft)) :
    AnsweredIff (∀ i ∈ (Demand.node id (.change draft)).integers settings table, fitsInt64 i = true)
      (answerUpdate settings table request key) := by
  rw [answerUpdate, bind_of_ok body, bind_of_ok (orInvalid_eq_ok.mpr valid)]
  refine answeredIff_node keyed fun row member rowKey _ =>
    answeredIff_checkParent.bind fun _ checked =>
      (isAnswered_checkMove keyed stored supported member _).bind fun _ _ => ?_
  have fits := fits_parent_of_checkParent checked
  dsimp only
  rw [bind_of_ok (orFault_eq_ok.mpr (updateNode_draft keyed stored member fits))]
  obtain ⟨answer, answered⟩ := exists_answerRow
    (Table.find?_modify_self ((Table.find?_iff keyed).mpr ⟨member, rfl⟩))
    (isPresentable_rewritten (NodeDraft.payload_of_draftOf (Check.both_eq_ok.mp valid).2)
      (keyed.key row member) (keyed.parent row member) (sameKey_ofRow keyed member draft))
  exact .of_ok (bind_eq_ok.mpr ⟨answer, answered, rfl⟩)

omit stored in
theorem answeredIff_answerDelete (address : pathKey key = .ok id) :
    AnsweredIff (∀ i ∈ (Demand.node id .removal).integers settings table, fitsInt64 i = true)
      (answerDelete table key) := by
  rw [answerDelete, bind_of_ok (orInvalid_eq_ok.mpr address)]
  refine answeredIff_node keyed fun row member rowKey fits => .of_nothing ?_
  rw [bind_of_ok (orFault_eq_ok.mpr (childrenOf_eq_ok keyed fits))]
  dsimp only
  split
  · exact .status (by decide) _
  · exact .of_ok rfl

omit stored in
theorem answeredIff_answerShow (presentable : ∀ row ∈ table, IsPresentable row)
    (address : pathKey key = .ok id) :
    AnsweredIff (∀ i ∈ (Demand.node id .view).integers settings table, fitsInt64 i = true)
      (answerShow table key) := by
  rw [answerShow, bind_of_ok (orInvalid_eq_ok.mpr address)]
  refine answeredIff_node keyed fun row member rowKey fits => .of_nothing ?_
  obtain ⟨view, shown⟩ := (presentable row member).exists_viewRow
  rw [shown]
  exact .of_ok rfl

end Rows

/-! ## Workbooks -/

/-- The cells of a row of a tree can be written, apart from its label. -/
theorem exists_exportedCells {treeRow : TreeRow} (showable : IsShowable treeRow)
    (label : LabelFits treeRow.row)
    (path : ∀ text, treeRow.path = .text text → ∀ c ∈ text.toList, Cell.isWritable c = true)
    (anyMissing : Bool) :
    ∀ value ∈ exportRow anyMissing treeRow, ∃ cell, Cell.ofJson value = .ok cell := by
  obtain ⟨i, key⟩ := KeyKind.admits_integer_iff.mp showable.presentable.key
  obtain ⟨text, labelText⟩ := showable.presentable.label
  obtain ⟨depth, atDepth⟩ := showable.depth
  obtain ⟨pathText, pathGiven⟩ := showable.path
  have parent : ∃ cell, Cell.ofJson (exportParent anyMissing treeRow.row.parent) = .ok cell := by
    rcases showable.presentable.parent.imp_right KeyKind.admits_integer_iff.mp with
      root | ⟨j, parent⟩
    · exact ⟨.blank, by rw [root]; rfl⟩
    · rw [parent]
      cases anyMissing <;> exact ⟨_, rfl⟩
  have payload : ∃ cell, Cell.ofJson (payloadText (treeRow.row.payload.getD .null)) = .ok cell := by
    rcases showable.presentable.payload with null | ⟨fields, object⟩
    · exact ⟨.blank, by rw [null]; rfl⟩
    · rw [object]
      exact exists_ofText_print (.obj fields)
  rw [exportRow_eq, key, labelText, atDepth, pathGiven]
  simp only [List.forall_mem_cons, List.not_mem_nil, false_implies, implies_true, and_true]
  exact ⟨⟨_, rfl⟩, exists_ofText_of_cut (label text labelText), parent, payload, ⟨_, rfl⟩,
    exists_ofText (path pathText pathGiven)⟩

section Sheet

variable (forest : table.IsForest) (stored : table.IsStored)
  (presentable : ∀ row ∈ table, IsPresentable row)
  (supported : settings.registry.grammarFor .sqlite = .ok .sqlite)
include forest stored presentable supported

theorem exists_exportSheet (made : treeRows settings table = .ok shown)
    (labels : ∀ treeRow ∈ shown, LabelFits treeRow.row) :
    ∃ sheet, sheetOfRows (exportValues shown) = .ok sheet := by
  obtain ⟨query, built, ordered⟩ := bind_eq_ok.mp made
  have showable := (isTraversal_tree built).isShowable_ordered forest.keyed presentable stored.count
    ordered
  -- The rows were listed, so the limit was one that the store takes.
  have walked : ∀ treeRow ∈ shown, ∃ walk, (∀ row ∈ walk, row ∈ table) ∧
      treeRow = (DepthQuery.tree.plan .standard table).storedRow walk := by
    obtain ⟨listed, refused⟩ := treeRows_cases forest supported
    by_cases fits : ∀ i ∈ settings.treeMaxDepth.toList, fitsInt64 i = true
    · obtain ⟨same, listed, walked⟩ := listed fits
      exact Except.ok.inj (made.symm.trans listed) ▸ walked
    · exact absurd (made.symm.trans (refused fits)) (by simp)
  have each : ∀ treeRow ∈ shown, ∀ anyMissing, ∃ line,
      (exportRow anyMissing treeRow).mapM Cell.ofJson = .ok line ∧ True := by
    intro treeRow member anyMissing
    obtain ⟨walk, members, same⟩ := walked treeRow member
    have path : ∀ text, treeRow.path = .text text → ∀ c ∈ text.toList, Cell.isWritable c = true := by
      rintro text given
      rw [same] at given
      exact Value.text.inj given ▸ writable_path forest.keyed members
    obtain ⟨line, written, -⟩ := @exists_mapM _ _ _ _ (fun _ _ => True) _ fun value inside =>
      (exists_exportedCells (showable treeRow member) (labels treeRow member) path anyMissing value
        inside).imp fun _ cell => ⟨cell, trivial⟩
    exact ⟨line, written, trivial⟩
  obtain ⟨lines, sheet, -⟩ := @exists_sheet_of_lines _ (fun _ _ => True) each
  exact ⟨_, sheet⟩

theorem answeredIff_answerExport (texts : Demand.sheet.TextsFit settings table) :
    AnsweredIff (∀ i ∈ Demand.sheet.integers settings table, fitsInt64 i = true)
      (answerExport settings table) := by
  obtain ⟨listed, refused⟩ := treeRows_cases forest supported
  unfold answerExport
  refine (AnsweredIff.of_step (fun fits => (listed fits).imp fun _ => And.left) refused).bind
    fun shown made => ?_
  have made := orFault_eq_ok.mp made
  dsimp only
  split
  · exact .status (by decide) _
  · obtain ⟨sheet, written⟩ := exists_exportSheet forest stored presentable supported made
      (texts shown made)
    exact .of_ok (bind_eq_ok.mpr ⟨sheet, orFault_eq_ok.mpr written, rfl⟩)

end Sheet

end AdjacencyForest.Service
