import AdjacencyForest.Error
import AdjacencyForest.Model
import AdjacencyForest.Text.Blank

/-!
# Sources of a traversal

A traversal reads a model's table under its own name or under an alias. `Source.resolve` reads the
text form: the table's name, alone or followed by `as` and an alias.

Main statement: a text without blanks has no alias (`splitAlias_plain`).
-/
namespace AdjacencyForest

open Text

/-- The table of a model, maybe under an alias. -/
structure Source where
  tableName : String
  otherName : Option String
  deriving DecidableEq, Repr

namespace Source

/-- The name under which the columns of the source are reached. -/
def name (source : Source) : String := source.otherName.getD source.tableName

def isTable (source : Source) : Bool := source.otherName.isNone

/-- A letter of the word `as`, in either case; the long s is a variant of `s`. -/
def isLetterA (c : Char) : Bool := c == 'a' || c == 'A'

/-- The second letter of `as`. -/
def isLetterS (c : Char) : Bool := c == 's' || c == 'S' || c.toNat == 0x17f

/-- What follows the word `as` and blanks at the start of a text. -/
def afterWord? : List Char → Option (List Char)
  | a :: s :: blank :: rest =>
    if isLetterA a && isLetterS s && isBlank blank then some (rest.dropWhile isBlank) else none
  | _ => none

/-- What follows blanks, the word `as` and blanks at the start of a text. -/
def afterAs? : List Char → Option (List Char)
  | [] => none
  | c :: rest => if isBlank c then afterWord? (rest.dropWhile isBlank) else none

/-- The part before the first `as` between blanks, and the part after it. -/
def splitAlias : List Char → List Char × Option (List Char)
  | [] => ([], none)
  | c :: rest =>
    match afterAs? (c :: rest) with
    | some other => ([], some other)
    | none => ((splitAlias rest).map (c :: ·) id)

def resolve (tableName text : String) : Except Fault Source :=
  let (name, other) := splitAlias (trimWith isBlank text.toList)
  if String.ofList name = tableName then .ok ⟨tableName, other.map String.ofList⟩
  else .error (.foreignSource text tableName)

theorem afterAs?_of_not_isBlank {c : Char} (plain : isBlank c = false) (rest : List Char) :
    afterAs? (c :: rest) = none := by
  rw [afterAs?, plain]
  rfl

theorem splitAlias_plain {text : List Char} (plain : ∀ c ∈ text, isBlank c = false) :
    splitAlias text = (text, none) := by
  induction text with
  | nil => rfl
  | cons c rest ih =>
    rw [splitAlias, afterAs?_of_not_isBlank (plain c (by simp)),
      ih fun d member => plain d (by simp [member])]
    rfl

end Source

/-- Where a traversal is told to read from. -/
inductive SourceChoice where
  | table
  | named (text : String)
  | renamed (name : String)

def SourceChoice.resolve (tableName : String) : SourceChoice → Except Fault Source
  | .table => .ok ⟨tableName, none⟩
  | .named text => Source.resolve tableName text
  | .renamed name => .ok ⟨tableName, some name⟩

end AdjacencyForest
