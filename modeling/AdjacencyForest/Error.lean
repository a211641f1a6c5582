import AdjacencyForest.Json.Printer

/-!
# Errors

`TreeError` is what the library raises about trees and their configuration; it has a message and
details. `Fault` is everything that can go wrong while a query is built or run, with the causes that
the store and the request layer add. The wording of all of them is here.

Main statement: an error without details reads as its message (`text?_eq_message`).
-/
namespace AdjacencyForest

/-- An error about trees. Its parameters may be any data, as callers give them. -/
inductive TreeError where
  | misuse (message : Json) (details : List (String × Json))
  | unsupportedDatabase (dialect : Json)
  | pathNotLoaded (model path : Json)

namespace TreeError

def message : TreeError → Json
  | .misuse message _ => message
  | .unsupportedDatabase _ => .str "This database is not supported."
  | .pathNotLoaded model path => .str s!"{model.plain} has no '{path.plain}' value loaded"

/-- The names and values that go with the message, in order. -/
def details : TreeError → List (String × Json)
  | .misuse _ details => details
  | .unsupportedDatabase dialect => [("dialect", dialect)]
  | .pathNotLoaded model _ => [("model", model)]

def detailText (details : List (String × Json)) : String :=
  ", ".intercalate (details.map fun detail => s!"{detail.1}={detail.2.display}")

/-- The full text: the message, and the details in brackets. A message that is no text cannot stand
alone. -/
def text? (error : TreeError) : Option String :=
  if error.details.isEmpty then
    match error.message with
    | .str message => some message
    | _ => none
  else some s!"{error.message.plain} ({detailText error.details})"

theorem text?_eq_message {error : TreeError} {message : String} (plain : error.details = [])
    (worded : error.message = .str message) : error.text? = some message := by
  simp [text?, plain, worded]

end TreeError

/-- Why building or running a query fails. -/
inductive Fault where
  /-- A traversal is neither up nor down. -/
  | invalidDirection (given : Json)
  | missingKeyName
  | missingConstraint
  | unboundQuery
  | depthOnBase
  | pathOnBase
  /-- A comparison of depths that is none of the known ones. -/
  | unknownOperator (given : Json)
  /-- A source text that names another table. -/
  | foreignSource (source table : String)
  | malformedInteger (text : String)
  | integerTooLong (digits : Nat)
  | notAnInteger
  | infiniteInteger
  | undefinedInteger
  | emptySeparator
  | noColumn (name : String)
  | notImplemented
  | frozenField (name : String)
  /-- An order comparison with null or a truth value. -/
  | unorderedComparand
  | tree (error : TreeError)
  | integerOverflow
  | unbindable (position : Nat) (kind : String)
  /-- A key that is already taken. -/
  | duplicateKey (table column : String)
  | missingKey (table column : String)
  /-- An integer key column was given something else. -/
  | keyMismatch
  | patternTooComplex
  /-- A failed flush was not rolled back. -/
  | pendingRollback
  | detached
  /-- A row that is to be loaded is gone. -/
  | rowGone
  /-- The rows of a walk do not end. -/
  | endlessWalk
  | noSuchAttribute
  /-- There is no node where one is needed. -/
  | noNode
  | unprintable
  /-- A number of an answer is not finite. -/
  | unwritableNumber
  | unwritableCell (text : String)
  | malformedUrl
  /-- The address of the embedded database names a user, a host or a port. -/
  | embeddedWithHost (url : String)
  | unknownDriver (name : String)
  /-- A known driver that is not there. -/
  | absentModule (name : String)

namespace Fault

/-- The wording; some faults have none of their own. -/
def message? : Fault → Option String
  | .invalidDirection given => some s!"invalid traversal direction {given.display}"
  | .missingKeyName => some "key column names are required"
  | .missingConstraint => some "an anchor constraint is required"
  | .unboundQuery => some "TreeQuery is not bound to a session"
  | .depthOnBase => some "depth is only available on a recursive expression"
  | .pathOnBase => some "path is only available on a recursive expression"
  | .unknownOperator given => some s!"Unsupported depth operator {given.display}"
  | .foreignSource source table =>
    some s!"{Text.quoted source} does not refer to table {Text.quoted table}"
  | .malformedInteger text => some s!"invalid literal for int() with base 10: {Text.quoted text}"
  | .integerTooLong digits =>
    some s!"Exceeds the limit ({digitLimit} digits) for integer string conversion: value has {digits} digits; use sys.set_int_max_str_digits() to increase the limit"
  | .infiniteInteger => some "cannot convert float infinity to integer"
  | .undefinedInteger => some "cannot convert float NaN to integer"
  | .emptySeparator => some "empty separator"
  | .noColumn name => some (Text.quoted name)
  | .notImplemented => some ""
  | .frozenField name => some s!"cannot assign to field {Text.quoted name}"
  | .unorderedComparand =>
    some "Only '=', '!=', 'is_()', 'is_not()', 'is_distinct_from()', 'is_not_distinct_from()' operators can be used with None/True/False"
  | .tree error => error.text?
  | .integerOverflow => some "Python int too large to convert to SQLite INTEGER"
  | .unbindable position kind =>
    some s!"Error binding parameter {position}: type {Text.quoted kind} is not supported"
  | .duplicateKey table column => some s!"UNIQUE constraint failed: {table}.{column}"
  | .missingKey table column => some s!"NOT NULL constraint failed: {table}.{column}"
  | .keyMismatch => some "datatype mismatch"
  | .patternTooComplex => some "LIKE or GLOB pattern too complex"
  | .unwritableNumber => some "Out of range float values are not JSON compliant"
  | .unwritableCell text => some s!"{text} cannot be used in worksheets."
  | .malformedUrl => some "Could not parse SQLAlchemy URL from given URL string"
  | .noNode => some "Class 'builtins.NoneType' is not mapped"
  | .embeddedWithHost url =>
    some s!"Invalid SQLite URL: {url}\nValid SQLite URL forms are sqlite:///:memory: or sqlite:////absolute/path/to/file.db"
  | .absentModule name => some s!"No module named {Text.quoted name}"
  | .unknownDriver name => some s!"Can't load plugin: sqlalchemy.dialects:{name}"
  | .notAnInteger | .pendingRollback | .detached | .rowGone | .endlessWalk | .noSuchAttribute
  | .unprintable => none

def ofInteger : IntegerFault → Fault
  | .malformed text => .malformedInteger text
  | .tooLong digits => .integerTooLong digits

end Fault
end AdjacencyForest
