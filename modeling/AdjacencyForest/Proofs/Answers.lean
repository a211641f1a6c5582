import AdjacencyForest.Proofs.Serving

/-!
# Answers with nodes

What an answer shows of the rows that it is made of: every row that can be shown is, in its place,
with its key and, in an answer to a walk, its depth.

Main statements: `answerNodes_eq_ok` and `answerWalk_eq_ok`.
-/

namespace AdjacencyForest

/-- The integer in a field of an object. -/
def Json.integer? (name : String) (node : Json) : Option Int :=
  match node.field? name with
  | some (.int i) => some i
  | _ => none

namespace Service

namespace Answer

/-- The nodes of an answer. -/
def nodes : Answer → List Json
  | .json (.arr nodes) => nodes
  | _ => []

/-- The keys of the nodes of an answer. -/
def ids (answer : Answer) : List Int := answer.nodes.filterMap (Json.integer? "id")

/-- The keys of those nodes that an answer shows at a depth. -/
def idsAtDepth (answer : Answer) (depth : Int) : List Int :=
  (answer.nodes.filter fun node => node.integer? "depth" == some depth).filterMap
    (Json.integer? "id")

end Answer

variable {α β : Type} {view : α → Check β} {items : List α} {row : Row} {rows : List Row}
  {treeRow : TreeRow} {treeRows : List TreeRow}

theorem exists_viewAll {related : α → β → Prop}
    (each : ∀ item ∈ items, ∃ shown, view item = .ok shown ∧ related item shown) (index : Nat) :
    ∃ views, viewAll view index items = .ok views ∧ List.Forall₂ related items views := by
  induction items generalizing index with
  | nil => exact ⟨[], rfl, .nil⟩
  | cons item rest ih =>
    obtain ⟨shown, first, fits⟩ := each item List.mem_cons_self
    obtain ⟨views, later, others⟩ :=
      ih (fun other member => each other (List.mem_cons_of_mem _ member)) (index + 1)
    refine ⟨shown :: views, ?_, .cons fits others⟩
    rw [viewAll, first, later]
    rfl

/-- Where each item is shown, all are. -/
theorem viewAll_of_map {views : List β} (shown : items.map view = views.map .ok) (index : Nat) :
    viewAll view index items = .ok views := by
  induction items generalizing views index with
  | nil =>
    obtain rfl : views = [] := by simpa [eq_comm] using shown
    rfl
  | cons item rest ih =>
    cases views with
    | nil => cases shown
    | cons first views =>
      obtain ⟨here, later⟩ := List.cons.inj shown
      rw [viewAll, here, ih later (index + 1)]
      rfl

theorem viewRow_eq_ok (presentable : IsPresentable row) :
    ∃ view, viewRow row = .ok view ∧ row.key = .int view.id := by
  obtain ⟨i, key⟩ := KeyKind.admits_integer_iff.mp presentable.key
  obtain ⟨view, shown⟩ := presentable.exists_viewRow
  refine ⟨view, shown, key.trans ?_⟩
  unfold viewRow NodeView.ofFields at shown
  obtain ⟨parts, joint, rfl⟩ := map_eq_ok.mp shown
  obtain ⟨-, id⟩ := Check.both_eq_ok.mp joint
  have found : Json.lookup? "id" (rowFields row) = some (.int i) := by
    rw [rowFields, key]
    rfl
  rw [required, found] at id
  exact congrArg Value.int (Except.ok.inj id)

theorem answerNodes_eq_ok (presentable : ∀ row ∈ rows, IsPresentable row) :
    ∃ answer, answerNodes rows = .ok answer ∧
      answer.ids.map Value.int = rows.map Row.key := by
  obtain ⟨views, shown, related⟩ :=
    exists_viewAll (fun row member => viewRow_eq_ok (presentable row member)) 0
  refine ⟨.json (.arr (views.map NodeView.toJson)), ?_, ?_⟩
  · unfold answerNodes orUnanswerable
    rw [shown]
    rfl
  · clear shown presentable
    induction related with
    | nil => rfl
    | cons key _ ih =>
      rw [List.map_cons, List.map_cons, key, ← ih]
      rfl

/-! ## Walks -/

/-- A row of a walk that can be shown. -/
structure IsShowable (treeRow : TreeRow) : Prop where
  presentable : IsPresentable treeRow.row
  depth : ∃ i, treeRow.depth = .int i
  path : ∃ s, treeRow.path = .text s

/-- The node is shown as the row is. -/
def Shows (treeRow : TreeRow) (view : TreeNodeView) : Prop :=
  treeRow.row.key = .int view.node.id ∧ treeRow.depth = .int view.depth

theorem exists_viewTreeRow (showable : IsShowable treeRow) :
    ∃ view, viewTreeRow treeRow = .ok view ∧ Shows treeRow view ∧ treeRow.path = .text view.path := by
  obtain ⟨depth, atDepth⟩ := showable.depth
  obtain ⟨path, text⟩ := showable.path
  obtain ⟨i, key⟩ := KeyKind.admits_integer_iff.mp showable.presentable.key
  obtain ⟨s, label⟩ := showable.presentable.label
  have parent := showable.presentable.parent.imp_right KeyKind.admits_integer_iff.mp
  unfold viewTreeRow rowFields Shows
  rw [key, label, text, atDepth]
  rcases parent with parent | ⟨j, parent⟩ <;>
    rcases showable.presentable.payload with payload | ⟨fields, payload⟩ <;>
    rw [parent, payload] <;>
    exact ⟨_, rfl, ⟨rfl, rfl⟩, rfl⟩

theorem exists_answerWalk (showable : ∀ treeRow ∈ treeRows, IsShowable treeRow) :
    ∃ views, answerWalk treeRows = .ok (.json (.arr (views.map TreeNodeView.toJson))) ∧
      List.Forall₂ (fun treeRow view => Shows treeRow view ∧ treeRow.path = .text view.path)
        treeRows views := by
  obtain ⟨views, shown, related⟩ :=
    exists_viewAll (fun treeRow member => exists_viewTreeRow (showable treeRow member)) 0
  refine ⟨views, ?_, related⟩
  unfold answerWalk orUnanswerable
  rw [shown]
  rfl

theorem exists_treeViews (showable : ∀ treeRow ∈ treeRows, IsShowable treeRow) :
    ∃ views, treeRows.map viewTreeRow = views.map .ok ∧ List.Forall₂ Shows treeRows views := by
  induction treeRows with
  | nil => exact ⟨[], rfl, .nil⟩
  | cons treeRow rest ih =>
    obtain ⟨view, here, shows, -⟩ := exists_viewTreeRow (showable treeRow List.mem_cons_self)
    obtain ⟨views, later, others⟩ := ih fun other found => showable other (List.mem_cons_of_mem _ found)
    exact ⟨view :: views, congrArg₂ List.cons here later, .cons shows others⟩

theorem answerWalk_of_map {views : List TreeNodeView} (shown : treeRows.map viewTreeRow = views.map .ok) :
    answerWalk treeRows = .ok (.json (.arr (views.map TreeNodeView.toJson))) := by
  unfold answerWalk orUnanswerable
  rw [viewAll_of_map shown 0]
  rfl

theorem ids_views (views : List TreeNodeView) :
    Answer.ids (.json (.arr (views.map TreeNodeView.toJson))) = views.map fun view => view.node.id := by
  induction views with
  | nil => rfl
  | cons view rest ih => exact congrArg (view.node.id :: ·) ih

theorem ids_of_shows {views : List TreeNodeView} (related : List.Forall₂ Shows treeRows views) :
    (Answer.ids (.json (.arr (views.map TreeNodeView.toJson)))).map Value.int =
      treeRows.map fun treeRow => treeRow.row.key := by
  induction related with
  | nil => rfl
  | cons shows _ ih =>
    rw [List.map_cons, List.map_cons, shows.1, ← ih]
    rfl

theorem idsAtDepth_of_shows {views : List TreeNodeView} (depth : Int)
    (related : List.Forall₂ Shows treeRows views) :
    (Answer.idsAtDepth (.json (.arr (views.map TreeNodeView.toJson))) depth).map Value.int =
      (treeRows.filter fun treeRow => treeRow.depth == .int depth).map
        fun treeRow => treeRow.row.key := by
  unfold Answer.idsAtDepth Answer.nodes
  dsimp only
  induction related with
  | nil => rfl
  | @cons treeRow view _ _ shows _ ih =>
    have shownDepth : view.toJson.integer? "depth" = some view.depth := rfl
    have shownKey : view.toJson.integer? "id" = some view.node.id := rfl
    rw [List.map_cons, List.filter_cons, List.filter_cons, shownDepth, shows.2]
    by_cases here : view.depth = depth
    · rw [if_pos (by simpa using here), if_pos (by simpa using here), List.filterMap_cons, shownKey,
        List.map_cons, List.map_cons, ih, shows.1]
    · rw [if_neg (by simpa using here), if_neg (by simpa using here), ih]

theorem answerWalk_eq_ok (showable : ∀ treeRow ∈ treeRows, IsShowable treeRow) :
    ∃ answer, answerWalk treeRows = .ok answer ∧
      answer.ids.map Value.int = treeRows.map (fun treeRow => treeRow.row.key) ∧
      ∀ depth, (answer.idsAtDepth depth).map Value.int =
        (treeRows.filter fun treeRow => treeRow.depth == .int depth).map
          fun treeRow => treeRow.row.key := by
  obtain ⟨views, answered, related⟩ := exists_answerWalk showable
  have shows : List.Forall₂ Shows treeRows views := related.imp fun _ _ => And.left
  exact ⟨_, answered, ids_of_shows shows, fun depth => idsAtDepth_of_shows depth shows⟩

end Service
end AdjacencyForest
