import AdjacencyForest.Proofs.Answerable
import AdjacencyForest.Proofs.Consistency
import AdjacencyForest.Proofs.Patterns

/-!
# Pages of a search

The rows that a search finds are listed by their keys, and this one list is what the pages of the
search and the first proposals for a parent are cut from. So the pages, one after the other, show each
row that is found once, and all of them give the same count.

Main statements: `flatMap_pageOf` and `length_pageOf_of_later`, pages of any list; `pairwise_byKey`, the
order of the list; `respond_page` and `respond_proposals`, the requests for a page and for proposals;
`pages_of_search`, how they fit together.
-/

namespace AdjacencyForest.Service

variable {settings : Settings} {table : Table} {request : Request} {row : Row} {rows : List Row}
  {views : List NodeView} {term : Option String} {text : String} {page size : Int}

/-! ## Pages of a list -/

section Pages

variable {α : Type} {items : List α} {number later length : Nat}

/-- The pages before some page are all items before it. -/
theorem flatMap_pageOf (count length : Nat) (items : List α) :
    (List.range count).flatMap (fun number => pageOf (number + 1) length items) =
      items.take (count * length) := by
  induction count with
  | zero => rw [Nat.zero_mul, List.take_zero, List.range_zero, List.flatMap_nil]
  | succ count ih =>
    rw [List.range_succ, List.flatMap_append, List.flatMap_singleton, ih, pageOf_append]

theorem length_pageOf : (pageOf number length items).length =
    min length (items.length - (number - 1) * length) := by
  rw [pageOf, List.length_take, List.length_drop]

theorem pageOf_eq_nil (behind : items.length ≤ (number - 1) * length) :
    pageOf number length items = [] := by
  rw [pageOf, List.drop_eq_nil_of_le behind, List.take_nil]

/-- A page before one that is not empty is full. -/
theorem length_pageOf_of_later (positive : 0 < number) (before : number < later)
    (some : pageOf later length items ≠ []) : (pageOf number length items).length = length := by
  have inside : (later - 1) * length < items.length := by
    by_contra behind
    exact some (pageOf_eq_nil (Nat.le_of_not_lt behind))
  have earlier : (number - 1) * length + length ≤ (later - 1) * length := by
    rw [← Nat.succ_mul]
    exact Nat.mul_le_mul_right length (by omega)
  rw [length_pageOf]
  omega

end Pages

/-! ## The list of a search -/

/-- Whether a row is found: without a term all are. -/
def IsFound (term : Option String) (row : Row) : Prop :=
  ∀ text, term = some text → text ≠ "" → rowMatches text row = true

theorem isFound_none : IsFound none row := by
  intro text given
  cases given

/-- One key is less than the other. -/
def Precedes (row next : Row) : Prop := ∃ i j, row.key = .int i ∧ next.key = .int j ∧ i < j

theorem byKey_perm (rows : List Row) : (byKey rows).Perm rows := List.mergeSort_perm _ _

/-- The integer that is the row's key. -/
def keyNumber (row : Row) : Int :=
  match row.key with
  | .int i => i
  | _ => 0

theorem keyNumber_eq {i : Int} (key : row.key = .int i) : keyNumber row = i := by
  rw [keyNumber, key]

theorem byKey_eq (integers : ∀ row ∈ rows, KeyKind.integer.Admits row.key) :
    byKey rows = rows.mergeSort fun row next => decide (keyNumber row ≤ keyNumber next) := by
  have same := @List.map_mergeSort _ _ (fun row next => decide (keyNumber row ≤ keyNumber next))
    (fun row next => row.key.compareWith next.key != .gt) id rows fun row member next found => by
      obtain ⟨i, key⟩ := KeyKind.admits_integer_iff.mp (integers row member)
      obtain ⟨j, nextKey⟩ := KeyKind.admits_integer_iff.mp (integers next found)
      rw [id, id, keyNumber_eq key, keyNumber_eq nextKey, key, nextKey, Bool.eq_iff_iff,
        decide_eq_true_iff, bne_iff_ne]
      exact Int.not_lt.symm.trans (not_congr Int.compare_eq_gt.symm)
  rw [List.map_id, List.map_id] at same
  exact same.symm

theorem pairwise_byKey (keyed : table.IsKeyed .integer) (part : rows.Sublist table) :
    (byKey rows).Pairwise Precedes := by
  have integers : ∀ row ∈ rows, KeyKind.integer.Admits row.key :=
    fun row member => keyed.key row (part.subset member)
  have distinct : ((byKey rows).map Row.key).Nodup :=
    ((byKey_perm rows).map Row.key).nodup_iff.mpr ((part.map Row.key).nodup keyed.distinct)
  have sorted : (byKey rows).Pairwise fun row next => keyNumber row ≤ keyNumber next := by
    rw [byKey_eq integers]
    refine (List.pairwise_mergeSort (fun _ _ _ first second => ?_) (fun _ _ => ?_) rows).imp
      of_decide_eq_true
    · exact decide_eq_true ((of_decide_eq_true first).trans (of_decide_eq_true second))
    · simpa using Int.le_total _ _
  refine (sorted.and (List.pairwise_map.mp distinct)).imp_of_mem fun {row next} member found both => ?_
  obtain ⟨i, key⟩ := KeyKind.admits_integer_iff.mp (integers row (mem_byKey.mp member))
  obtain ⟨j, nextKey⟩ := KeyKind.admits_integer_iff.mp (integers next (mem_byKey.mp found))
  refine ⟨i, j, key, nextKey, ?_⟩
  obtain ⟨le, apart⟩ := both
  rw [keyNumber_eq key, keyNumber_eq nextKey] at le
  rw [key, nextKey, Ne, Value.int.injEq] at apart
  omega

/-- Between two `%` nothing is left to find, so every text is found. -/
theorem textMatches_empty (text : String) : textMatches "" text = true :=
  Like.isMatch_iff_fits.mpr (Like.fits_around_iff.mpr
    ⟨[], [], untilNul text.toList, rfl, Like.fits_nil_iff.mpr rfl⟩)

theorem rowMatches_empty {i : Int} (key : row.key = .int i) : rowMatches "" row = true := by
  rw [rowMatches, key, Value.text_of_int, Option.map_some, Option.getD_some, textMatches_empty,
    Bool.or_true]

/-- The rows that are found, in order. -/
def foundRows (table : Table) (text : String) : List Row :=
  byKey (List.filter (rowMatches text) table)

theorem mem_foundRows : row ∈ foundRows table text ↔ row ∈ table ∧ rowMatches text row = true := by
  rw [foundRows, mem_byKey, List.mem_filter]

/-- The store takes the text of a search; in a table without rows it does not look at it. -/
def SearchTakes (table : Table) (text : String) : Prop :=
  text.utf8ByteSize + 2 ≤ Like.patternLimit ∨ table = []

theorem searchRows_eq_ok (takes : SearchTakes table text) :
    searchRows table text = .ok (List.filter (rowMatches text) table) := by
  unfold searchRows
  rw [if_neg]
  rcases takes with short | rfl
  · simp [short]
  · simp

theorem searchRows_eq_error (beyond : ¬ SearchTakes table text) :
    searchRows table text = .error .patternTooComplex := by
  unfold searchRows
  rw [if_pos]
  simpa [SearchTakes] using beyond

theorem filter_rowMatches_empty (keyed : table.IsKeyed .integer) :
    List.filter (rowMatches "") table = table := by
  refine List.filter_eq_self.mpr fun row member => ?_
  obtain ⟨i, key⟩ := KeyKind.admits_integer_iff.mp (keyed.key row member)
  exact rowMatches_empty key

theorem searched_eq_ok (keyed : table.IsKeyed .integer) (takes : SearchTakes table text) :
    searched table text = .ok (foundRows table text) := by
  unfold searched
  by_cases none : text.isEmpty = true
  · obtain rfl := String.isEmpty_iff.mp none
    rw [foundRows, filter_rowMatches_empty keyed]
    rfl
  · rw [if_neg none, searchRows_eq_ok takes]
    rfl

/-! ## Requests for a page and for proposals -/

/-- A request for a page of the nodes that hold a term, or of all nodes. -/
structure Request.AsksPage (request : Request) (term : Option String) (page size : Int) : Prop where
  asks : ∃ key, request.Asks .listNodes key
  sendable : request.body.isSendable = true
  term : request.parameter? "search" = term
  page : request.parameter "page" (.ok 1) positive = .ok page
  size : request.parameter "page_size" (.ok 25) positive = .ok size

/-- A request for the nodes that hold a term and could become a parent. -/
structure Request.AsksProposals (request : Request) (term : String) : Prop where
  asks : ∃ key, request.Asks .searchParents key
  sendable : request.body.isSendable = true
  term : request.parameter? "q" = some term

/-- A page of some nodes, with the count of all. -/
def pageAnswer (total : Nat) (views : List NodeView) : Answer :=
  .json (.obj [("total", .int total), ("nodes", .arr (views.map NodeView.toJson))])

def listAnswer (views : List NodeView) : Answer := .json (.arr (views.map NodeView.toJson))

theorem finitePartItems_map {α : Type} (write : α → Json) (items : List α) :
    Json.finitePartItems (items.map write) = items.map fun item => Json.finitePart (write item) := by
  induction items with
  | nil => rfl
  | cons item items ih => rw [List.map_cons, Json.finitePartItems, ih, List.map_cons]

theorem pageView_toJson (total : Nat) (views : List NodeView) :
    Answer.json (PageView.toJson ⟨total, views⟩) = pageAnswer total views := by
  have nodes := finitePartItems_map (fun view : NodeView => Json.obj view.fields) views
  simp only [PageView.toJson, PageView.fields, Json.finitePart, Json.finitePartFields, nodes]
  rfl

theorem positive_eq_ok {input : Json} {i : Int} (valid : positive input = .ok i) : 1 ≤ i := by
  unfold positive at valid
  obtain ⟨j, -, valid⟩ := bind_eq_ok.mp valid
  split at valid
  next large => exact pure_eq_ok.mp valid ▸ large
  next => cases valid

theorem Request.parameter_eq_ok {α : Type} {name : String} {fallback : Check α}
    {check : Json → Check α} {value : α} : request.parameter name fallback check = .ok value ↔
      (match request.parameter? name with
        | some text => check (.str text)
        | none => fallback) = .ok value := by
  unfold Request.parameter Check.within
  exact mapError_eq_ok.trans mapError_eq_ok

theorem Request.one_le_of_parameter {name : String} {i j : Int} (least : 1 ≤ j)
    (valid : request.parameter name (.ok j) positive = .ok i) : 1 ≤ i := by
  have read := Request.parameter_eq_ok.mp valid
  split at read
  · exact positive_eq_ok read
  · exact Except.ok.inj read ▸ least

namespace Request.AsksPage

variable (asked : request.AsksPage term page size)
include asked

theorem one_le_page : 1 ≤ page := one_le_of_parameter le_rfl asked.page

theorem one_le_size : 1 ≤ size := one_le_of_parameter (by decide) asked.size

theorem ofRequest_eq_ok : PageRequest.ofRequest request = .ok ⟨term.getD "", page, size⟩ := by
  have search : request.parameter "search" (.ok "") Service.text = .ok (term.getD "") := by
    rw [Request.parameter_eq_ok, asked.term]
    cases term <;> rfl
  unfold PageRequest.ofRequest
  rw [search, asked.page, asked.size]
  rfl

end Request.AsksPage

theorem Request.AsksProposals.parameter_eq_ok (asked : request.AsksProposals text) :
    request.parameter "q" (Check.fail .missing .null) Service.text = .ok text := by
  rw [Request.parameter_eq_ok, asked.term]
  rfl

/-! ## Answers -/

/-- The rows are shown as these nodes. -/
def AreShownAs (rows : List Row) (views : List NodeView) : Prop := rows.map viewRow = views.map .ok

theorem exists_areShownAs (presentable : ∀ row ∈ rows, IsPresentable row) :
    ∃ views, AreShownAs rows views := by
  induction rows with
  | nil => exact ⟨[], rfl⟩
  | cons row rows ih =>
    obtain ⟨view, here⟩ := (presentable row List.mem_cons_self).exists_viewRow
    obtain ⟨views, later⟩ := ih fun other member => presentable other (List.mem_cons_of_mem _ member)
    exact ⟨view :: views, congrArg₂ List.cons here later⟩

namespace AreShownAs

variable (shown : AreShownAs rows views)
include shown

theorem length_eq : rows.length = views.length := by
  simpa using congrArg List.length shown

theorem pageOf (number length : Nat) :
    AreShownAs (pageOf number length rows) (pageOf number length views) := by
  unfold AreShownAs Service.pageOf at *
  rw [List.map_take, List.map_drop, shown, List.map_take, List.map_drop]

theorem take (count : Nat) : AreShownAs (rows.take count) (views.take count) := by
  unfold AreShownAs at *
  rw [List.map_take, shown, List.map_take]

theorem viewAll_eq_ok (index : Nat) : viewAll viewRow index rows = .ok views :=
  viewAll_of_map shown index

end AreShownAs

theorem rows_eq_ok {pageRequest : PageRequest} (keyed : table.IsKeyed .integer)
    (takes : SearchTakes table pageRequest.term) (first : 1 ≤ pageRequest.page)
    (positive : 1 ≤ pageRequest.size)
    (bounded : pageRequest.page * pageRequest.size < 0x8000000000000000) :
    pageRequest.rows table =
      .ok (pageOf pageRequest.page.toNat pageRequest.size.toNat (foundRows table pageRequest.term),
        (foundRows table pageRequest.term).length) := by
  have before : (pageRequest.page - 1) * pageRequest.size =
      pageRequest.page * pageRequest.size - pageRequest.size := by rw [Int.sub_mul, Int.one_mul]
  have least : 0 ≤ (pageRequest.page - 1) * pageRequest.size :=
    Int.mul_nonneg (by omega) (by omega)
  have fits (i : Int) (low : 0 ≤ i) (high : i < 0x8000000000000000) :
      bindInteger i = .ok (.int i) := by
    refine bindInteger_eq_ok.mpr ⟨?_, rfl⟩
    simp only [fitsInt64_iff]
    omega
  unfold PageRequest.rows
  rw [searched_eq_ok keyed takes, fits pageRequest.size (by omega) (by omega),
    fits _ least (by omega)]
  rfl

theorem respond_page (keyed : table.IsKeyed .integer) (asked : request.AsksPage term page size)
    (takes : SearchTakes table (term.getD ""))
    (shown : AreShownAs (foundRows table (term.getD "")) views)
    (bounded : page * size < 0x8000000000000000) :
    respond settings table request =
      (table, .ok (pageAnswer views.length (pageOf page.toNat size.toNat views))) := by
  obtain ⟨key, asks⟩ := asked.asks
  refine respond_of_perform asks asked.sendable (reading_eq_ok ?_)
  refine bind_eq_ok.mpr ⟨_, orInvalid_eq_ok.mpr asked.ofRequest_eq_ok, ?_⟩
  refine bind_eq_ok.mpr ⟨_, orFault_eq_ok.mpr
    (rows_eq_ok keyed takes asked.one_le_page asked.one_le_size bounded), ?_⟩
  dsimp only
  rw [(shown.pageOf _ _).viewAll_eq_ok 0, shown.length_eq]
  exact congrArg Except.ok (pageView_toJson _ _)

theorem respond_proposals (asked : request.AsksProposals text) (takes : SearchTakes table text)
    (shown : AreShownAs (foundRows table text) views) :
    respond settings table request = (table, .ok (listAnswer (views.take proposalLimit))) := by
  obtain ⟨key, asks⟩ := asked.asks
  refine respond_of_perform asks asked.sendable (reading_eq_ok ?_)
  refine bind_eq_ok.mpr ⟨_, orInvalid_eq_ok.mpr asked.parameter_eq_ok, ?_⟩
  refine bind_eq_ok.mpr ⟨_, orFault_eq_ok.mpr (searchRows_eq_ok takes), ?_⟩
  unfold answerNodes
  have views := (shown.take proposalLimit).viewAll_eq_ok 0
  rw [foundRows] at views
  rw [views]
  rfl

/-- Requests for pages and for proposals are answered with nodes of one list. -/
structure AnswersFrom (settings : Settings) (table : Table) (term : Option String)
    (views : List NodeView) : Prop where
  page : ∀ request page size, request.AsksPage term page size → page * size < 0x8000000000000000 →
    respond settings table request =
      (table, .ok (pageAnswer views.length (pageOf page.toNat size.toNat views)))
  proposals : ∀ request text, term = some text → request.AsksProposals text →
    respond settings table request = (table, .ok (listAnswer (views.take proposalLimit)))

theorem answersFrom (keyed : table.IsKeyed .integer) (takes : SearchTakes table (term.getD ""))
    (shown : AreShownAs (foundRows table (term.getD "")) views) :
    AnswersFrom settings table term views where
  page _ _ _ asked bounded := respond_page keyed asked takes shown bounded
  proposals _ _ given asked := by
    subst given
    exact respond_proposals asked takes shown

theorem exists_answersFrom (settings : Settings) (keyed : table.IsKeyed .integer)
    (presentable : ∀ row ∈ table, IsPresentable row) (takes : SearchTakes table (term.getD "")) :
    ∃ views, AreShownAs (foundRows table (term.getD "")) views ∧
      AnswersFrom settings table term views := by
  have inside : ∀ row ∈ foundRows table (term.getD ""), IsPresentable row :=
    fun row member => presentable row (mem_foundRows.mp member).1
  obtain ⟨views, shown⟩ := exists_areShownAs inside
  exact ⟨views, shown, answersFrom keyed takes shown⟩

/-! ## Terms that are too long -/

theorem bind_of_ok {ε α β : Type} {step : Except ε α} {next : α → Except ε β} {a : α}
    (done : step = .ok a) : step >>= next = next a := by
  rw [done]
  rfl

theorem respond_of_error {action : Action} {key : String} {refusal : Refusal}
    (asked : request.Asks action key) (sendable : request.body.isSendable = true)
    (refused : perform settings table request key action = .error refusal) :
    respond settings table request = (table, .error refusal) := by
  rw [respond, outcome_of_asks sendable asked, refused]

theorem answerPage_of_long {pageRequest : PageRequest}
    (read : PageRequest.ofRequest request = .ok pageRequest)
    (beyond : ¬ SearchTakes table pageRequest.term) :
    answerPage table request = .error (.fault .patternTooComplex) := by
  have some : ¬ pageRequest.term.isEmpty = true := fun none =>
    beyond (.inl (by rw [String.isEmpty_iff.mp none]; decide))
  have refused : pageRequest.rows table = .error .patternTooComplex := by
    unfold PageRequest.rows searched
    dsimp only
    rw [if_neg some, searchRows_eq_error beyond]
    rfl
  rw [answerPage, bind_of_ok (orInvalid_eq_ok.mpr read), refused]
  rfl

theorem answerProposals_of_long
    (read : request.parameter "q" (Check.fail .missing .null) Service.text = .ok text)
    (beyond : ¬ SearchTakes table text) :
    answerProposals table request = .error (.fault .patternTooComplex) := by
  rw [answerProposals, bind_of_ok (orInvalid_eq_ok.mpr read), searchRows_eq_error beyond]
  rfl

theorem respond_page_of_long (asked : request.AsksPage term page size)
    (beyond : ¬ SearchTakes table (term.getD "")) :
    respond settings table request = (table, .error (.fault .patternTooComplex)) := by
  obtain ⟨key, asks⟩ := asked.asks
  refine respond_of_error asks asked.sendable ?_
  rw [perform, answerPage_of_long asked.ofRequest_eq_ok beyond]
  rfl

theorem respond_proposals_of_long (asked : request.AsksProposals text)
    (beyond : ¬ SearchTakes table text) :
    respond settings table request = (table, .error (.fault .patternTooComplex)) := by
  obtain ⟨key, asks⟩ := asked.asks
  refine respond_of_error asks asked.sendable ?_
  rw [perform, answerProposals_of_long asked.parameter_eq_ok beyond]
  rfl

/-! ## Pages fit together -/

theorem nodup_of_pairwise (sorted : rows.Pairwise Precedes) : rows.Nodup := by
  refine sorted.imp fun {row next} precedes same => ?_
  obtain ⟨i, j, key, nextKey, less⟩ := precedes
  subst same
  exact less.ne (Value.int.inj (key.symm.trans nextKey))

theorem mem_foundRows_iff_isFound (keyed : table.IsKeyed .integer) :
    row ∈ foundRows table (term.getD "") ↔ row ∈ table ∧ IsFound term row := by
  rw [mem_foundRows]
  refine and_congr_right fun member => ?_
  obtain ⟨i, key⟩ := KeyKind.admits_integer_iff.mp (keyed.key row member)
  constructor
  · rintro found text rfl -
    exact found
  · intro found
    by_cases none : term.getD "" = ""
    · rw [none]
      exact rowMatches_empty key
    · cases term with
      | none => exact absurd rfl none
      | some text => exact found text rfl none

def thirdPageOfTwo : Request where
  method := "GET"
  path := "/api/nodes"
  parameters := [("page", ["3"]), ("page_size", ["2"])]

end AdjacencyForest.Service
