import AdjacencyForest.Proofs.Answers
import AdjacencyForest.Proofs.Chains
import AdjacencyForest.Proofs.FiniteWalks
import AdjacencyForest.Proofs.Presentation
import AdjacencyForest.Proofs.Relatives

/-!
# Answers that can be given

On a table whose rows can all be shown no request is refused because of what the table holds. Walks
may reach cycles: then they end at a limit of depth, or they do not end at all.

Main statements: `isAnswerable_respond`, for one request; `presentable_along_run`, which runs keep all
rows such that they can be shown, and that they are answered as long as they do.
-/

namespace AdjacencyForest.Service

open Table TreeModel RecursiveExpression

/-- What the table holds is no reason to refuse an answer. -/
def IsAnswerable {α : Type} (outcome : Outcome α) : Prop :=
  ∀ issues, outcome ≠ .error (.invalidAnswer issues)

namespace IsAnswerable

variable {α β : Type} {step : Outcome α} {next : α → Outcome β} {answer : α}

theorem of_ok (answered : step = .ok answer) : IsAnswerable step := by
  rintro issues refused
  exact absurd (answered.symm.trans refused) (by simp)

theorem pure (answer : α) : IsAnswerable (pure answer) := of_ok rfl

theorem status (code : Nat) (detail : String) :
    IsAnswerable (.error (.status code detail) : Outcome α) := by
  rintro issues ⟨⟩

theorem fault (cause : Fault) : IsAnswerable (.error (.fault cause) : Outcome α) := by
  rintro issues ⟨⟩

theorem bind (first : IsAnswerable step) (rest : ∀ a, step = .ok a → IsAnswerable (next a)) :
    IsAnswerable (step >>= next) := by
  cases done : step with
  | ok a => exact rest a done
  | error refusal =>
    rintro issues refused
    obtain rfl := Except.error.inj refused
    exact first issues done

theorem map {convert : α → β} (first : IsAnswerable step) : IsAnswerable (step.map convert) := by
  cases done : step with
  | ok a => exact of_ok rfl
  | error refusal =>
    rintro issues refused
    obtain rfl := Except.error.inj refused
    exact first issues done

theorem orFault (work : Except Fault α) : IsAnswerable (orFault work) := by
  cases work with
  | ok a => exact of_ok rfl
  | error cause =>
    change IsAnswerable (.error (Refusal.ofFault cause) : Outcome α)
    unfold Refusal.ofFault
    split
    · exact status _ _
    · exact fault _

theorem ofIssues (issues : List Issue) : IsAnswerable (.error (.ofIssues issues) : Outcome α) := by
  unfold Refusal.ofIssues
  split
  · rintro _ ⟨⟩
  · exact fault _

theorem orInvalid (check : Check α) : IsAnswerable (orInvalid check) := by
  cases check with
  | ok a => exact of_ok rfl
  | error issues => exact ofIssues issues

end IsAnswerable

variable {settings : Settings} {table after : Table} {request : Request} {row : Row}
  {rows : List Row} {draft : NodeDraft} {key : String} {query next : TreeQuery}
  {treeRows shown : List TreeRow} {order : WalkOrder} {scope : Scope} {walk : WalkRequest}

theorem isAnswerable_data (body : RequestBody) : IsAnswerable body.data? := by
  cases body with
  | empty | json | file => exact .of_ok rfl
  | text content contentType =>
    unfold RequestBody.data?
    dsimp only
    split
    · exact .of_ok rfl
    · split
      · refine IsAnswerable.map ?_
        unfold readData
        dsimp only
        split
        · exact .of_ok rfl
        · split
          · exact .status _ _
          · rintro _ ⟨⟩
      · exact .of_ok rfl

theorem isAnswerable_nodeOfKey (table : Table) (id : Int) : IsAnswerable (nodeOfKey table id) := by
  refine (IsAnswerable.orFault _).bind fun found _ => ?_
  cases found with
  | some row => exact .pure row
  | none => exact .status _ _

theorem isAnswerable_checkParent (table : Table) (parent : Option Int) :
    IsAnswerable (checkParent table parent) := by
  cases parent with
  | none => exact .of_ok rfl
  | some id =>
    unfold checkParent
    dsimp only
    split
    · exact .pure _
    · refine (IsAnswerable.orFault _).bind fun found _ => ?_
      cases found with
      | some row => exact .pure _
      | none => exact .status _ _

theorem isAnswerable_checkMove (settings : Settings) (table : Table) (row : Row)
    (parent : Option Int) : IsAnswerable (checkMove settings table row parent) := by
  cases parent with
  | none => exact .of_ok rfl
  | some id =>
    refine (IsAnswerable.orFault _).bind fun below _ => ?_
    split
    · exact .status _ _
    · exact .pure _

/-! ## Nodes -/

theorem isAnswerable_answerNodes (presentable : ∀ row ∈ rows, IsPresentable row) :
    IsAnswerable (answerNodes rows) := by
  obtain ⟨answer, answered, -⟩ := answerNodes_eq_ok presentable
  exact .of_ok answered

theorem isAnswerable_viewRow (presentable : IsPresentable row) :
    IsAnswerable (orUnanswerable (viewRow row)) := by
  obtain ⟨view, shown⟩ := presentable.exists_viewRow
  rw [shown]
  exact .of_ok rfl

theorem mem_byKey : row ∈ byKey rows ↔ row ∈ rows := List.mem_mergeSort

theorem mem_of_searchRows {term : String} (found : searchRows table term = .ok rows) :
    ∀ row ∈ rows, row ∈ table := by
  unfold searchRows at found
  split at found <;> cases found
  exact fun row member => (List.mem_filter.mp member).1

theorem mem_of_searched {term : String} (found : searched table term = .ok rows) :
    ∀ row ∈ rows, row ∈ table := by
  unfold Service.searched at found
  dsimp only at found
  split at found
  · obtain ⟨chosen, all, done⟩ := bind_eq_ok.mp found
    obtain rfl := pure_eq_ok.mp all
    obtain rfl := pure_eq_ok.mp done
    exact fun row member => mem_byKey.mp member
  · obtain ⟨chosen, searched, done⟩ := bind_eq_ok.mp found
    obtain rfl := pure_eq_ok.mp done
    exact fun row member => mem_of_searchRows searched row (mem_byKey.mp member)

section

variable (presentable : ∀ row ∈ table, IsPresentable row)
include presentable

theorem isAnswerable_answerRow (key : Value) : IsAnswerable (answerRow table key) := by
  unfold answerRow
  split
  · exact .fault _
  next row found =>
    exact (isAnswerable_viewRow (presentable row (mem_of_find? found).1)).bind fun _ _ => .pure _

theorem isAnswerable_answerShow (key : String) : IsAnswerable (answerShow table key) := by
  refine (IsAnswerable.orInvalid _).bind fun id _ =>
    (isAnswerable_nodeOfKey table id).bind fun row found => ?_
  have member := (mem_of_find? (nodeOfKey_eq_ok.mp found).2).1
  exact (isAnswerable_viewRow (presentable row member)).bind fun _ _ => .pure _

theorem isAnswerable_answerPage (request : Request) : IsAnswerable (answerPage table request) := by
  refine (IsAnswerable.orInvalid _).bind fun page _ => (IsAnswerable.orFault _).bind fun found listed => ?_
  obtain ⟨chosen, searched, listed⟩ := bind_eq_ok.mp (orFault_eq_ok.mp listed)
  obtain ⟨-, -, listed⟩ := bind_eq_ok.mp listed
  obtain ⟨-, -, listed⟩ := bind_eq_ok.mp listed
  obtain rfl := pure_eq_ok.mp listed
  have members : ∀ row ∈ pageOf page.page.toNat page.size.toNat chosen, IsPresentable row :=
    fun row member => presentable row
      (mem_of_searched searched row (List.mem_of_mem_drop (List.mem_of_mem_take member)))
  obtain ⟨views, shown, -⟩ :=
    exists_viewAll (fun row member => viewRow_eq_ok (members row member)) 0
  refine IsAnswerable.bind ?_ fun _ _ => .pure _
  rw [shown]
  exact .of_ok rfl

theorem isAnswerable_answerProposals (request : Request) :
    IsAnswerable (answerProposals table request) := by
  refine (IsAnswerable.orInvalid _).bind fun term _ => (IsAnswerable.orFault _).bind fun found listed => ?_
  refine isAnswerable_answerNodes fun row member => presentable row ?_
  exact mem_of_searchRows (orFault_eq_ok.mp listed) row (mem_byKey.mp (List.mem_of_mem_take member))

theorem isAnswerable_answerChildren (key : String) : IsAnswerable (answerChildren table key) := by
  refine (IsAnswerable.orInvalid _).bind fun id _ => (IsAnswerable.orFault _).bind fun found listed => ?_
  obtain ⟨value, -, listed⟩ := bind_eq_ok.mp (orFault_eq_ok.mp listed)
  obtain rfl := pure_eq_ok.mp listed
  exact isAnswerable_answerNodes fun row member =>
    presentable row (List.mem_filter.mp (mem_byKey.mp member)).1

theorem isAnswerable_answerCreate (request : Request) :
    IsAnswerable (answerCreate table request) := by
  refine (isAnswerable_data _).bind fun data _ => (IsAnswerable.orInvalid _).bind fun draft valid => ?_
  refine (isAnswerable_checkParent table _).bind fun _ _ =>
    (IsAnswerable.orFault _).bind fun written inserted => ?_
  have shown := isPresentable_insertNode presentable
    (NodeDraft.payload_of_draftOf (orInvalid_eq_ok.mp valid)) (orFault_eq_ok.mp inserted)
  exact (isAnswerable_answerRow shown _).bind fun _ _ => .pure _

theorem isAnswerable_answerUpdate (keyed : table.IsKeyed .integer) (settings : Settings)
    (request : Request) (key : String) :
    IsAnswerable (answerUpdate settings table request key) := by
  refine (isAnswerable_data _).bind fun data _ =>
    (IsAnswerable.orInvalid _).bind fun given valid => ?_
  obtain ⟨-, valid⟩ := Check.both_eq_ok.mp (orInvalid_eq_ok.mp valid)
  refine (isAnswerable_nodeOfKey table _).bind fun row found =>
    (isAnswerable_checkParent table _).bind fun _ _ =>
    (isAnswerable_checkMove settings table row _).bind fun _ _ =>
    (IsAnswerable.orFault _).bind fun written updated => ?_
  have shown := isPresentable_updateNode keyed presentable (NodeDraft.payload_of_draftOf valid) found
    (orFault_eq_ok.mp updated)
  exact (isAnswerable_answerRow shown _).bind fun _ _ => .pure _

theorem isAnswerable_answerScope (scope : Scope) : IsAnswerable (answerScope table scope) := by
  refine (IsAnswerable.orFault _).bind fun found listed => ?_
  obtain ⟨query, applied, queried⟩ := bind_eq_ok.mp (orFault_eq_ok.mp listed)
  obtain ⟨criteria, rfl, -⟩ := TreeQuery.applyAll_eq_ok applied
  obtain ⟨-, rows⟩ := queryRows_eq_ok.mp queried
  obtain ⟨source, yielded, rfl⟩ := Option.map_eq_some_iff.mp rows
  refine isAnswerable_answerNodes fun row member => ?_
  obtain ⟨treeRow, shown, rfl⟩ := List.mem_map.mp member
  have inside := (List.mem_filter.mp ((TreeQuery.arranged_perm _ _).subset shown)).1
  exact presentable _ (TreeRow.yielded_of_sourceRows? yielded treeRow inside).member

end

theorem isAnswerable_answerDelete (table : Table) (key : String) :
    IsAnswerable (answerDelete table key) := by
  refine (IsAnswerable.orInvalid _).bind fun id _ =>
    (isAnswerable_nodeOfKey table id).bind fun row _ => (IsAnswerable.orFault _).bind fun children _ => ?_
  dsimp only
  split
  · exact .status _ _
  · exact .pure _

theorem isAnswerable_uploadOf (body : RequestBody) : IsAnswerable (uploadOf body) := by
  unfold uploadOf
  dsimp only
  split
  · split
    · exact .ofIssues _
    · split
      · exact .of_ok rfl
      · exact .status _ _
  · exact .ofIssues _

theorem isAnswerable_answerImport (settings : Settings) (table : Table) (request : Request) :
    IsAnswerable (answerImport settings table request) := by
  refine (isAnswerable_uploadOf _).bind fun content _ => ?_
  split
  · exact .status _ _
  · exact .pure _

theorem isAnswerable_answerExport (settings : Settings) (table : Table) :
    IsAnswerable (answerExport settings table) := by
  refine (IsAnswerable.orFault _).bind fun rows _ => ?_
  dsimp only
  split
  · exact .status _ _
  · exact (IsAnswerable.orFault _).bind fun _ _ => .pure _

/-! ## Walks -/

/-- The query reads a traversal of the nodes whose depths start next to zero, with whatever conditions
and orders. -/
def IsTraversal (settings : Settings) (query : TreeQuery) : Prop :=
  ∃ source spec criterion start limit expression, query.expression = some expression ∧
    spec.Fits .standard criterion start limit ∧ (-1 ≤ start ∧ start ≤ 1) ∧
    compile settings.registry .sqlite .standard source spec = .ok expression

theorem IsTraversal.apply (traversal : IsTraversal settings query)
    (applied : query.apply scope = .ok next) : IsTraversal settings next := by
  obtain ⟨criteria, rfl, -⟩ := TreeQuery.apply_eq_ok applied
  exact traversal

theorem isTraversal_related {relation : Relation} {limit : Option Int}
    (proper : relation.kinship ≠ .bare) (given : relation.maxDepth = Json.ofOption Json.int limit)
    (related : settings.setting.related relation = .ok query) : IsTraversal settings query := by
  obtain ⟨source, -, related⟩ := bind_eq_ok.mp related
  obtain ⟨expression, compiled, related⟩ := bind_eq_ok.mp related
  obtain rfl := pure_eq_ok.mp related
  obtain ⟨kinship, andSelf, node, maxDepth⟩ := relation
  dsimp only at proper given
  subst given
  have fits : ∃ criterion limit', (Relation.traversal ⟨kinship, andSelf, node,
      Json.ofOption Json.int limit⟩ .standard).Fits .standard criterion
        (Relation.initialDepth ⟨kinship, andSelf, node, Json.ofOption Json.int limit⟩) limit' := by
    cases kinship with
    | bare => exact absurd rfl proper
    | ancestors | descendants =>
      cases andSelf <;> exact ⟨_, _, Traversal.fits_ofModel _ _ limit⟩
    | siblings => cases andSelf <;> exact ⟨_, _, Traversal.fits_ofModel _ _ (some 0)⟩
  obtain ⟨criterion, limit', fits⟩ := fits
  refine ⟨source, _, criterion, _, limit', expression, rfl, fits, ?_, compiled⟩
  unfold Relation.initialDepth
  split <;> omega

theorem isTraversal_tree (built : treeQuery settings = .ok query) : IsTraversal settings query := by
  obtain ⟨source, -, built⟩ := bind_eq_ok.mp built
  obtain ⟨expression, compiled, built⟩ := bind_eq_ok.mp built
  obtain rfl := pure_eq_ok.mp built
  exact ⟨source, _, _, 0, _, expression, rfl, Traversal.fits_ofModel .down false settings.treeMaxDepth,
    by decide, compiled⟩

theorem isTraversal_relationQuery {kinship : Kinship} (proper : kinship ≠ .bare)
    (queried : relationQuery settings kinship walk row = .ok query) : IsTraversal settings query := by
  obtain ⟨related, built, narrowed⟩ := bind_eq_ok.mp queried
  have traversal := isTraversal_related proper rfl built
  split at narrowed
  · exact pure_eq_ok.mp narrowed ▸ traversal
  · exact traversal.apply narrowed
  · exact traversal.apply narrowed

/-- The rows of a query on a traversal are rows of the table with an integer and a text. -/
theorem IsTraversal.isShowable (traversal : IsTraversal settings query)
    (keyed : table.IsKeyed .integer) (presentable : ∀ row ∈ table, IsPresentable row)
    (fitsLength : fitsInt64 table.length = true)
    (queried : queryRows query table = .ok treeRows) : ∀ treeRow ∈ treeRows, IsShowable treeRow := by
  obtain ⟨source, spec, criterion, start, limit, expression, recursive, fits, near, compiled⟩ :=
    traversal
  obtain ⟨accepted, rows⟩ := queryRows_eq_ok.mp queried
  obtain ⟨yielded, found, rfl⟩ := Option.map_eq_some_iff.mp rows
  rw [TreeQuery.sourceRows?, recursive] at found
  have bound : TreeQuery.checkParameters expression.parameters = .ok () := by
    rw [TreeQuery.checkParameters_eq_ok] at accepted ⊢
    refine fun parameter member => accepted parameter ?_
    rw [TreeQuery.parameters, recursive]
    exact List.mem_append_left _ member
  have keyed' : table.IsKeyed TreeModel.standard.keyKind := keyed
  have counted := isCounted_of_rows? keyed' fits near compiled bound fitsLength found
  intro treeRow member
  have inside := (List.mem_filter.mp ((TreeQuery.arranged_perm _ _).subset member)).1
  obtain ⟨i, depth, -⟩ := (counted treeRow inside).depth
  exact ⟨presentable _ (TreeRow.yielded_of_rows? found treeRow inside).member, ⟨i, depth⟩,
    (counted treeRow inside).path⟩

theorem mem_walkRows (walked : walkRows table query = .ok shown) :
    ∃ rows, queryRows query table = .ok rows ∧ ∀ treeRow ∈ shown, treeRow ∈ rows := by
  obtain ⟨rows, queried, walked⟩ := bind_eq_ok.mp walked
  obtain rfl := pure_eq_ok.mp walked
  exact ⟨rows, queried, fun treeRow member => mem_of_mem_shownRows member⟩

theorem IsTraversal.isShowable_ordered (traversal : IsTraversal settings query)
    (keyed : table.IsKeyed .integer) (presentable : ∀ row ∈ table, IsPresentable row)
    (fitsLength : fitsInt64 table.length = true)
    (ordered : orderedRows table query order = .ok shown) :
    ∀ treeRow ∈ shown, IsShowable treeRow := by
  cases order with
  | depth =>
    obtain ⟨sorted, applied, walked⟩ := bind_eq_ok.mp ordered
    obtain ⟨rows, queried, members⟩ := mem_walkRows walked
    exact fun treeRow member => (traversal.apply applied).isShowable keyed presentable fitsLength
      queried treeRow (members treeRow member)
  | breadth =>
    obtain ⟨sorted, applied, settled⟩ := bind_eq_ok.mp ordered
    obtain ⟨met, walked, settled⟩ := bind_eq_ok.mp settled
    obtain rfl := pure_eq_ok.mp settled
    obtain ⟨rows, queried, members⟩ := mem_walkRows walked
    exact fun treeRow member => (traversal.apply applied).isShowable keyed presentable fitsLength
      queried treeRow (members treeRow ((settleRuns_perm met []).subset member))

theorem IsTraversal.isAnswerable (traversal : IsTraversal settings query)
    (keyed : table.IsKeyed .integer) (presentable : ∀ row ∈ table, IsPresentable row)
    (fitsLength : fitsInt64 table.length = true)
    (ordered : orderedRows table query order = .ok shown) : IsAnswerable (answerWalk shown) := by
  obtain ⟨answer, answered, -⟩ := answerWalk_eq_ok
    (traversal.isShowable_ordered keyed presentable fitsLength ordered)
  exact .of_ok answered

section

variable (keyed : table.IsKeyed .integer) (presentable : ∀ row ∈ table, IsPresentable row)
  (fitsLength : fitsInt64 table.length = true)
include keyed presentable fitsLength

theorem isAnswerable_answerRelation (settings : Settings) {kinship : Kinship}
    (proper : kinship ≠ .bare) (walk : WalkRequest) :
    IsAnswerable (answerRelation settings table kinship walk) := by
  refine (isAnswerable_nodeOfKey table _).bind fun row _ =>
    (IsAnswerable.orFault _).bind fun rows listed => ?_
  obtain ⟨query, queried, ordered⟩ := bind_eq_ok.mp (orFault_eq_ok.mp listed)
  exact (isTraversal_relationQuery proper queried).isAnswerable keyed presentable fitsLength ordered

theorem isAnswerable_answerSiblings (settings : Settings) (request : Request) (key : String) :
    IsAnswerable (answerSiblings settings table request key) := by
  refine (IsAnswerable.orInvalid _).bind fun asked _ =>
    (isAnswerable_nodeOfKey table _).bind fun row _ =>
    (IsAnswerable.orFault _).bind fun rows listed => ?_
  obtain ⟨query, related, ordered⟩ := bind_eq_ok.mp (orFault_eq_ok.mp listed)
  have proper : Kinship.siblings ≠ .bare := by decide
  exact (isTraversal_related proper (rfl : _ = Json.ofOption Json.int none) related).isAnswerable keyed
    presentable fitsLength ordered

theorem isAnswerable_answerTree (settings : Settings) : IsAnswerable (answerTree settings table) := by
  refine (IsAnswerable.orFault _).bind fun rows listed => ?_
  obtain ⟨query, built, ordered⟩ := bind_eq_ok.mp (orFault_eq_ok.mp listed)
  exact (isTraversal_tree built).isAnswerable keyed presentable fitsLength ordered

theorem isAnswerable_perform (settings : Settings) (request : Request) (key : String)
    (action : Action) : IsAnswerable (perform settings table request key action) := by
  cases action with
  | exportNodes => exact (isAnswerable_answerExport settings table).map
  | importNodes => exact isAnswerable_answerImport settings table request
  | listNodes => exact (isAnswerable_answerPage presentable request).map
  | createNode => exact isAnswerable_answerCreate presentable request
  | showNode => exact (isAnswerable_answerShow presentable key).map
  | updateNode => exact isAnswerable_answerUpdate presentable keyed settings request key
  | deleteNode => exact isAnswerable_answerDelete table key
  | ancestors =>
    exact ((IsAnswerable.orInvalid _).bind fun walk _ =>
      isAnswerable_answerRelation keyed presentable fitsLength settings (by decide) walk).map
  | descendants =>
    exact ((IsAnswerable.orInvalid _).bind fun walk _ =>
      isAnswerable_answerRelation keyed presentable fitsLength settings (by decide) walk).map
  | siblings =>
    exact (isAnswerable_answerSiblings keyed presentable fitsLength settings request key).map
  | searchParents => exact (isAnswerable_answerProposals presentable request).map
  | wholeTree => exact (isAnswerable_answerTree keyed presentable fitsLength settings).map
  | roots => exact (isAnswerable_answerScope presentable .isRoot).map
  | leaves => exact (isAnswerable_answerScope presentable .isLeaf).map
  | children => exact (isAnswerable_answerChildren presentable key).map
  | pathTo =>
    -- Only the keys of the path are shown.
    exact ((IsAnswerable.orInvalid _).bind fun id _ => (isAnswerable_nodeOfKey table id).bind
      fun row _ => (IsAnswerable.orFault _).bind fun _ _ => .pure _).map

theorem isAnswerable_respond (settings : Settings) (request : Request) :
    IsAnswerable (respond settings table request).2 := by
  have answerable : IsAnswerable (outcome settings table request) := by
    unfold outcome
    split
    · exact .fault _
    · split
      · exact isAnswerable_perform keyed presentable fitsLength settings request _ _
      · exact .status _ _
      · exact .status _ _
  unfold respond
  cases done : outcome settings table request with
  | ok result => exact .of_ok rfl
  | error refusal =>
    intro issues refused
    obtain rfl := Except.error.inj refused
    exact answerable issues done

end

/-! ## Rows that cannot be shown -/

theorem isObjectOrNull_of_valid {input payload : Json} (valid : objectOrNull input = .ok payload) :
    IsObjectOrNull input := by
  unfold objectOrNull at valid
  split at valid
  · exact .inl rfl
  · exact .inr ⟨_, rfl⟩
  · cases valid

theorem isPresentable_of_viewRow (keyed : table.IsKeyed .integer) (member : row ∈ table)
    {view : NodeView} (shown : viewRow row = .ok view) : IsPresentable row where
  key := keyed.key row member
  parent := keyed.parent row member
  label := by
    obtain ⟨parts, joint, -⟩ := map_eq_ok.mp shown
    have label : Json.lookup? "label" (rowFields row) = _ :=
      NodeDraft.label_of_draft (Check.both_eq_ok.mp joint).1
    have text : row.label.toJson = .str parts.1.label := Option.some.inj label
    refine ⟨parts.1.label, ?_⟩
    cases held : row.label <;> rw [held] at text <;> cases text
    rfl
  payload := by
    obtain ⟨parts, joint, -⟩ := map_eq_ok.mp shown
    obtain ⟨drafted, described, -⟩ := map_eq_ok.mp (Check.both_eq_ok.mp joint).1
    obtain ⟨-, rest⟩ := Check.both_eq_ok.mp described
    obtain ⟨-, payload⟩ := Check.both_eq_ok.mp rest
    have given : Check.within (.name "meta") (objectOrNull (row.payload.getD .null)) = _ := payload
    exact isObjectOrNull_of_valid (mapError_eq_ok.mp given)

/-- A request for the node of a row that cannot be shown is refused because of the row. -/
theorem respond_hidden (keyed : table.IsKeyed .integer) (member : row ∈ table)
    (hidden : ¬ IsPresentable row) (asked : request.Asks .showNode key)
    (sendable : request.body.isSendable = true) {id : Int} (address : pathKey key = .ok id)
    (rowKey : row.key = .int id) (fits : fitsInt64 id = true) (settings : Settings) :
    ∃ issues, (respond settings table request).2 = .error (.invalidAnswer issues) := by
  have found : nodeOfKey table id = .ok row :=
    nodeOfKey_eq_ok.mpr ⟨fits, (find?_iff keyed).mpr ⟨member, rowKey⟩⟩
  have address : orInvalid (pathKey key) = .ok id := orInvalid_eq_ok.mpr address
  have performed : outcome settings table request = reading table (answerShow table key) :=
    outcome_of_asks sendable asked
  cases shown : viewRow row with
  | ok view => exact absurd (isPresentable_of_viewRow keyed member shown) hidden
  | error issues =>
    refine ⟨issues.map (Issue.within (.name "response")), ?_⟩
    have refused : answerShow table key =
        .error (.invalidAnswer (issues.map (Issue.within (.name "response")))) := by
      unfold answerShow
      simp only [address, found, shown, bind, Except.bind]
      rfl
    simp [respond, performed, refused, reading, Except.map]

/-! ## Runs -/

/-- Along a run all rows can be shown iff no request that is accepted imports a sheet which describes a
node that cannot. On each table where they can, no request is refused because of what the table holds;
a row that cannot be shown makes the request for its node be refused so. -/
theorem presentable_along_run (keyed : table.IsKeyed .integer)
    (presentable : ∀ row ∈ table, IsPresentable row) (requests : List Request) :
    ((∀ n, ∀ row ∈ tableAfter settings table (requests.take n), IsPresentable row) ↔
        ∀ n request, requests[n]? = some request →
          ¬ Spoils settings (tableAfter settings table (requests.take n)) request) ∧
      ∀ n, fitsInt64 (tableAfter settings table (requests.take n)).length = true →
        ((∀ row ∈ tableAfter settings table (requests.take n), IsPresentable row) →
          ∀ request, IsAnswerable
            (respond settings (tableAfter settings table (requests.take n)) request).2) ∧
        ∀ row ∈ tableAfter settings table (requests.take n), ¬ IsPresentable row →
          ∀ request key id, request.Asks .showNode key → request.body.isSendable = true →
            pathKey key = .ok id → row.key = .int id → fitsInt64 id = true →
            ¬ IsAnswerable
              (respond settings (tableAfter settings table (requests.take n)) request).2 := by
  have keyedAlong (n : Nat) : (tableAfter settings table (requests.take n)).IsKeyed .integer :=
    isKeyed_tableAfter keyed _
  refine ⟨⟨fun shown n request found => ?_, fun sound n => ?_⟩, fun n fitsLength =>
    ⟨fun shown request => isAnswerable_respond (keyedAlong n) shown fitsLength settings request,
      fun row member hidden request key id asked sendable address rowKey fits answerable => ?_⟩⟩
  · rw [← isPresentable_respond_iff (keyedAlong n) (shown n), ← tableAfter_take_succ found]
    exact shown (n + 1)
  · induction n with
    | zero => exact presentable
    | succ n ih =>
      cases found : requests[n]? with
      | some request =>
        rw [tableAfter_take_succ found]
        exact (isPresentable_respond_iff (keyedAlong n) ih).mpr (sound n request found)
      | none =>
        rw [List.take_add_one, found, Option.toList_none, List.append_nil]
        exact ih
  · obtain ⟨issues, refused⟩ := respond_hidden (keyedAlong n) member hidden asked sendable address
      rowKey fits settings
    exact answerable issues refused

/-- A sheet with a blank cell where the label of a row is to stand. -/
def blankSheet : Sheet := [[.text "id", .text "label"], [.number (.ofInt 1), .blank]]

def blankRecord : ImportRecord := ⟨1, some .null, none, none⟩

def blankTable : Table := [⟨.int 1, .null, .null, none⟩]

theorem isReadAs_blankRecord : IsReadAs blankSheet [blankRecord] := by
  have found : contentRows blankSheet = [[.text "id", .text "label"], [.int 1, .blank]] := by
    decide +kernel
  refine isReadAs_of_contentRows found rfl fun index record listed => ?_
  cases index with
  | zero =>
    obtain rfl := Option.some.inj listed
    exact {
      key := ⟨.int 1, by cbv, .inl rfl⟩
      label := by cbv
      parent := by
        cbv
        exact .none
      payload := by
        cbv
        exact .none }
  | succ index => cases listed

theorem importSheet_blankSheet : importSheet {} loneRoot blankSheet = .ok (blankTable, 1) := by
  have valid : ∀ record ∈ [blankRecord], record.IsValid := by
    intro record member
    obtain rfl := List.mem_singleton.mp member
    exact ⟨by decide, by decide, by simp [blankRecord], by simp [blankRecord]⟩
  have labels : loneRoot.HasLabels := by simp [Table.HasLabels, loneRoot]
  rw [importSheet_eq isForest_loneRoot.keyed labels isReadAs_blankRecord valid (by decide)]
  cbv

def importBlank : Request := importRequest.uploading "nodes.xlsx" blankSheet

def showFirst : Request := { method := "GET", path := "/api/nodes/1" }

theorem outcome_importBlank : outcome {} loneRoot importBlank =
    .ok (blankTable, .json (.obj [("detail", .str "Successfully processed 1 rows.")])) := by
  have named : "nodes.xlsx".endsWith ".xlsx" = true := by decide +kernel
  rw [importBlank, outcome_uploading {} loneRoot blankSheet asks_importRequest named,
    importSheet_blankSheet]
  rfl

theorem spoils_importBlank : Spoils {} loneRoot importBlank := by
  have read : recordsOf blankSheet = [blankRecord] :=
    recordsOf_eq isReadAs_blankRecord (by simp [blankRecord])
  refine ⟨"", blankSheet, asks_importRequest, ?_, ⟨_, outcome_importBlank⟩, blankRecord,
    by simp [read], fun shown => ?_⟩
  · exact uploadOf_uploading (by decide +kernel)
  · obtain ⟨s, text⟩ := shown.label
    rw [read] at text
    cases text

theorem isPresentable_loneRoot : ∀ row ∈ loneRoot, IsPresentable row := by
  intro row member
  obtain rfl := List.mem_singleton.mp member
  exact ⟨trivial, .inl rfl, ⟨"root", rfl⟩, .inl rfl⟩

/-- Before the import of the blank cell every request can be answered; after it the node cannot be
shown. -/
theorem not_presentable_along_importBlank :
    (¬ ∀ n, ∀ row ∈ tableAfter {} loneRoot ([importBlank].take n), IsPresentable row) ∧
      (∀ request, IsAnswerable (respond {} loneRoot request).2) ∧
      ¬ IsAnswerable (respond {} (tableAfter {} loneRoot [importBlank]) showFirst).2 := by
  have along := @presentable_along_run {} loneRoot isForest_loneRoot.keyed isPresentable_loneRoot
    [importBlank]
  have after : tableAfter {} loneRoot [importBlank] = blankTable :=
    respond_fst_of_ok outcome_importBlank
  have asked : showFirst.Asks .showNode "1" := by
    unfold Request.Asks
    decide +kernel
  have hidden : ¬ IsPresentable ⟨.int 1, .null, .null, none⟩ := fun shown => by
    obtain ⟨s, text⟩ := shown.label
    cases text
  refine ⟨fun shown => along.1.mp shown 0 importBlank rfl spoils_importBlank,
    (along.2 0 (by decide)).1 isPresentable_loneRoot, ?_⟩
  refine (along.2 1 ?_).2 ⟨.int 1, .null, .null, none⟩ ?_ hidden showFirst "1" 1 asked rfl
    (by cbv) rfl (by decide)
  · rw [List.take_succ_cons, List.take_zero, after]
    decide
  · rw [List.take_succ_cons, List.take_zero, after]
    exact List.mem_singleton.mpr rfl

end AdjacencyForest.Service
