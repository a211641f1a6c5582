import AdjacencyForest.Service.Validation

/-!
# Schemas

The four shapes in which nodes come and go: a node to be created, a stored node, a node of a
traversal, and a page of nodes. Each is validated from data; fields that a shape does not name are
ignored.

Main statement: a valid node to be created has the label that was given (`label_of_draft`).
-/
namespace AdjacencyForest.Service

/-- A node as a request describes it. -/
structure NodeDraft where
  label : String
  parent : Option Int
  payload : Json

/-- A stored node. -/
structure NodeView where
  draft : NodeDraft
  id : Int

/-- A node of a traversal. -/
structure TreeNodeView where
  node : NodeView
  depth : Int
  path : String

/-- A page of nodes with the count of all. -/
structure PageView where
  total : Int
  nodes : List NodeView

namespace NodeDraft

def ofFields (fields : List (String × Json)) : Check NodeDraft :=
  (Check.both (required text "label" fields)
    (Check.both (optional (orNull integer) none "parent_id" fields)
      (optional objectOrNull (.obj []) "meta" fields))).map
    fun parts => ⟨parts.1, parts.2.1, parts.2.2⟩

/-- A node to be created, from an object. -/
def ofJson (input : Json) : Check NodeDraft :=
  match input with
  | .obj fields => ofFields fields
  | _ => Check.fail .modelType input

/-- A node to be created, from the body of a request. -/
def ofBody (input : Json) : Check NodeDraft :=
  match input with
  | .obj fields => ofFields fields
  | _ => Check.fail .modelAttributesType input

def fields (draft : NodeDraft) : List (String × Json) :=
  [("label", .str draft.label), ("parent_id", Json.ofOption Json.int draft.parent),
    ("meta", draft.payload)]

theorem label_of_draft {fields : List (String × Json)} {draft : NodeDraft}
    (valid : ofFields fields = .ok draft) :
    Json.lookup? "label" fields = some (.str draft.label) := by
  unfold ofFields at valid
  generalize joint : Check.both (required text "label" fields) _ = checked at valid
  cases checked with
  | error issues => simp [Except.map] at valid
  | ok parts =>
    simp only [Except.map, Except.ok.injEq] at valid
    subst valid
    exact lookup_of_required_text (Check.both_eq_ok.mp joint).1

end NodeDraft

namespace NodeView

def ofFields (fields : List (String × Json)) : Check NodeView :=
  (Check.both (NodeDraft.ofFields fields) (required integer "id" fields)).map
    fun parts => ⟨parts.1, parts.2⟩

/-- A stored node, from an object. -/
def ofJson (input : Json) : Check NodeView :=
  match input with
  | .obj fields => ofFields fields
  | _ => Check.fail .modelAttributesType input

def fields (view : NodeView) : List (String × Json) := view.draft.fields ++ [("id", .int view.id)]

/-- The node as data; numbers that are not finite are null. -/
def toJson (view : NodeView) : Json := Json.finitePart (.obj view.fields)

end NodeView

namespace TreeNodeView

def ofFields (fields : List (String × Json)) : Check TreeNodeView :=
  (Check.both (NodeView.ofFields fields)
    (Check.both (required integer "depth" fields) (required text "path" fields))).map
    fun parts => ⟨parts.1, parts.2.1, parts.2.2⟩

/-- A node of a traversal, from an object. -/
def ofJson (input : Json) : Check TreeNodeView :=
  match input with
  | .obj fields => ofFields fields
  | _ => Check.fail .modelAttributesType input

def fields (view : TreeNodeView) : List (String × Json) :=
  view.node.fields ++ [("depth", .int view.depth), ("path", .str view.path)]

/-- The node as data; numbers that are not finite are null. -/
def toJson (view : TreeNodeView) : Json := Json.finitePart (.obj view.fields)

end TreeNodeView

namespace PageView

def nodesOf (input : Json) : Check (List NodeView) :=
  match input with
  | .arr items => Check.eachFrom NodeView.ofJson 0 items
  | _ => Check.fail .listType input

/-- A page, from an object. -/
def ofJson (input : Json) : Check PageView :=
  match input with
  | .obj fields =>
    (Check.both (required integer "total" fields) (required nodesOf "nodes" fields)).map
      fun parts => ⟨parts.1, parts.2⟩
  | _ => Check.fail .modelType input

def fields (view : PageView) : List (String × Json) :=
  [("total", .int view.total), ("nodes", .arr (view.nodes.map fun node => .obj node.fields))]

/-- The page as data; numbers that are not finite are null. -/
def toJson (view : PageView) : Json := Json.finitePart (.obj view.fields)

end PageView
end AdjacencyForest.Service
