import AdjacencyForest.Traversal.Criterion

/-!
# Traversal specifications

A `Traversal` says all of a traversal but what it reads: the key columns, the anchor, the
direction, the depth of the anchor rows and the limit of depth. `TraversalRequest` is what a caller
gives; `TraversalRequest.validate` refuses it unless direction, key names and anchor are there.

Main statement: of several faults the direction's is reported, then the key names'
(`validate_of_invalidDirection`).
-/
namespace AdjacencyForest

/-- Toward the parents or toward the children. -/
inductive Direction where
  | up
  | down
  deriving DecidableEq, Repr

namespace Direction

def ofJson? : Json → Option Direction
  | .str "asc" => some .up
  | .str "desc" => some .down
  | _ => none

def word : Direction → String
  | .up => "asc"
  | .down => "desc"

end Direction

/-- Which rows a traversal starts from: by a constraint on named columns, or by a criterion; left
open where a relation does not say it. -/
inductive Anchor where
  | constraint (constraint : Constraint)
  | criterion (criterion : Criterion)
  | unspecified

def Anchor.onTable (model : TreeModel) : Anchor → Except Fault Criterion
  | .constraint given => given.onTable model
  | .criterion given => .ok given
  | .unspecified => .error .notImplemented

/-- A traversal. Depths may be given as any data that counts as an integer. -/
structure Traversal where
  localKey : String
  parentKey : String
  anchor : Anchor
  direction : Direction
  initialDepth : Json
  includeSelf : Json
  depthName : String
  pathName : String
  separator : String
  expressionName : String
  maxDepth : Json

/-- A traversal as a caller asks for it. -/
structure TraversalRequest where
  localKey : Json
  parentKey : Json
  /-- Absent if what was given cannot select rows. -/
  anchor : Option Anchor
  direction : Json := .str "desc"
  initialDepth : Json := .int 0
  includeSelf : Json := .bool false
  depthName : String := "depth"
  pathName : String := "path"
  separator : String := "."
  expressionName : String := "tree_cte"
  maxDepth : Json := .null

/-- The traversal that is asked for, or the first thing that is wrong with it. -/
def TraversalRequest.validate (request : TraversalRequest) : Except Fault Traversal :=
  match Direction.ofJson? request.direction with
  | none => .error (.invalidDirection request.direction)
  | some direction =>
    if request.localKey.isFalsy || request.parentKey.isFalsy then .error .missingKeyName
    else match request.anchor with
      | none => .error .missingConstraint
      | some anchor => .ok {
          localKey := request.localKey.plain
          parentKey := request.parentKey.plain
          anchor := anchor
          direction := direction
          initialDepth := request.initialDepth
          includeSelf := request.includeSelf
          depthName := request.depthName
          pathName := request.pathName
          separator := request.separator
          expressionName := request.expressionName
          maxDepth := request.maxDepth }

theorem TraversalRequest.validate_of_invalidDirection {request : TraversalRequest}
    (invalid : Direction.ofJson? request.direction = none) :
    request.validate = .error (.invalidDirection request.direction) := by
  simp [validate, invalid]

namespace Traversal

/-- The fields of a traversal by name, in order of the names; the anchor is not shown. -/
def fields (spec : Traversal) : List (String × Json) :=
  [("ascending", .bool (spec.direction = .up)), ("depth_name", .str spec.depthName),
    ("direction", .str spec.direction.word), ("expression_name", .str spec.expressionName),
    ("include_self", spec.includeSelf), ("initial_depth", spec.initialDepth),
    ("local_key", .str spec.localKey), ("max_depth", spec.maxDepth),
    ("parent_key", .str spec.parentKey), ("path_name", .str spec.pathName),
    ("path_separator", .str spec.separator)]

/-- Whether two traversals agree in all but their anchors. -/
def alike (spec other : Traversal) : Bool :=
  Json.alike (.obj spec.fields) (.obj other.fields)

/-- A traversal is a value: no field of it can be set. -/
def assign (_ : Traversal) (field : String) : Except Fault Traversal :=
  .error (.frozenField field)

/-- The traversal of a model with the given direction, anchor and depths. -/
def ofModel (model : TreeModel) (direction : Direction) (anchor : Anchor) (initialDepth : Json)
    (includeSelf : Bool) (maxDepth : Json) : Traversal where
  localKey := model.keyName
  parentKey := model.parentName
  anchor := anchor
  direction := direction
  initialDepth := initialDepth
  includeSelf := .bool includeSelf
  depthName := model.depthName
  pathName := model.pathName
  separator := model.separator
  expressionName := model.expressionName
  maxDepth := maxDepth

end Traversal

/-- The integer that data stands for: a number without its fraction, or a text that writes one. -/
def Json.toInteger : Json → Except Fault Int
  | .int i => .ok i
  | .bool b => .ok (if b then 1 else 0)
  | .num x => match x.truncate? with
    | some i => .ok i
    | none => match x with
      | .infinite _ => .error .infiniteInteger
      | _ => .error .undefinedInteger
  | .str s => match readInteger s with
    | .ok i => .ok i
    | .error fault => .error (.ofInteger fault)
  | _ => .error .notAnInteger

def Json.negated : Json → Except Fault Json
  | .int i => .ok (.int (-i))
  | .bool b => .ok (.int (if b then -1 else 0))
  | .num (.finite n m e) => .ok (.num (.finite (!n) m e))
  | .num (.infinite n) => .ok (.num (.infinite (!n)))
  | .num .nan => .ok (.num .nan)
  | _ => .error .notAnInteger

end AdjacencyForest
