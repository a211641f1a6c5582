import AdjacencyForest.Json.Parser
import AdjacencyForest.Service.Validation
import AdjacencyForest.Service.Workbook

/-!
# Requests and answers

A request has a method, an address, parameters and a body. Here are its parts as the service reads
them, and the ways in which a request is answered or refused. Of a repeated parameter the last value
counts.

Main statement: a refusal that holds a number which is not finite cannot be written
(`ofIssues_of_infinite`).
-/
namespace AdjacencyForest.Service

open Text

/-- What an uploaded file holds. -/
inductive FileContent where
  | workbook (sheet : Sheet)
  | text (content : String)

/-- The body of a request. -/
inductive RequestBody where
  | empty
  | json (value : Json)
  | text (content contentType : String)
  | file (field name : String) (content : FileContent)

/-- A request. -/
structure Request where
  method : String
  path : String
  parameters : List (String × List String) := []
  body : RequestBody := .empty

/-- What a request is answered. -/
inductive Answer where
  | json (body : Json)
  | workbook (sheet : Sheet)

/-- Why a request is not answered as it asks. -/
inductive Refusal where
  /-- A status and its text. -/
  | status (code : Nat) (detail : String)
  /-- The request is not valid. -/
  | invalidRequest (issues : List Issue)
  /-- What the table holds has not the form of an answer. -/
  | invalidAnswer (issues : List Issue)
  | fault (cause : Fault)

namespace Refusal

/-- The refusal of a fault: an engine without a grammar is reported with a status. -/
def ofFault : Fault → Refusal
  | .tree (.unsupportedDatabase dialect) =>
    .status 500 ((TreeError.unsupportedDatabase dialect).text?.getD "")
  | cause => .fault cause

/-- The refusal of an invalid request: it shows the inputs, which must be finite for that. -/
def ofIssues (issues : List Issue) : Refusal :=
  if issues.all fun issue => issue.input.allFinite then .invalidRequest issues
  else .fault .unwritableNumber

theorem ofIssues_of_infinite {issues : List Issue} {issue : Issue} (member : issue ∈ issues)
    (infinite : issue.input.allFinite = false) : ofIssues issues = .fault .unwritableNumber := by
  unfold ofIssues
  rw [if_neg]
  intro finite
  simp [List.all_eq_true.mp finite issue member] at infinite

end Refusal

abbrev Outcome (α : Type) := Except Refusal α

def orFault {α : Type} (step : Except Fault α) : Outcome α := step.mapError Refusal.ofFault

def orInvalid {α : Type} (check : Check α) : Outcome α := check.mapError Refusal.ofIssues

def orUnanswerable {α : Type} (check : Check α) : Outcome α :=
  (Check.within (.name "response") check).mapError Refusal.invalidAnswer

def pathKey (key : String) : Check Int :=
  Check.within (.name "path") (Check.within (.name "node_id") (integer (.str key)))

namespace Request

def parameter? (request : Request) (name : String) : Option String :=
  (Json.lookup? name request.parameters).bind List.getLast?

/-- A parameter as a check reads it; a fallback stands for one that is not there. -/
def parameter {α : Type} (request : Request) (name : String) (fallback : Check α)
    (check : Json → Check α) : Check α :=
  Check.within (.name "query") <| Check.within (.name name) <|
    match request.parameter? name with
    | some value => check (.str value)
    | none => fallback

end Request

/-- Whether the type of a content says that it is data. -/
def isDataType (contentType : String) : Bool :=
  let name := String.ofList (trimWith isBlank (contentType.toList.takeWhile (· != ';')))
  match name.toLower.splitOn "/" with
  | ["application", kind] => kind == "json" || kind.endsWith "+json"
  | _ => false

def withoutMark (content : List Char) : List Char :=
  match content with
  | c :: rest => if c = Char.ofNat 0xfeff then rest else c :: rest
  | [] => []

/-- A content as data: what is malformed is an issue at its position, and integers of too many
digits cannot be read at all. -/
def readData (content : String) : Outcome Json :=
  let text := withoutMark content.toList
  match Json.parseChars text with
  | .ok value => .ok value
  | .error failure => match failure.fault with
    | .integerTooLong _ => .error (.status 400 "There was an error parsing the body")
    | _ => .error (.invalidRequest
      [⟨.jsonInvalid, [.name "body", .position (failure.position text)], .obj []⟩])

namespace RequestBody

/-- The body as data, if there is one. What is not said to be data is no object. -/
def data? : RequestBody → Outcome (Option Json)
  | .empty => .ok none
  | .json value => .ok (some value)
  | .text content contentType =>
    if content.isEmpty then .ok none
    else if isDataType contentType then (readData content).map some
    else .ok (some (.str content))
  | .file _ name _ => .ok (some (.str name))

/-- Whether the body can be sent: data has finite numbers only. -/
def isSendable : RequestBody → Bool
  | .json value => value.allFinite
  | _ => true

end RequestBody
end AdjacencyForest.Service
