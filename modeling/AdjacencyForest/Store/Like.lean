/-!
# Pattern matching

The matching rule of text searches: in a pattern `%` stands for any text, `_` for one character, and
everything else for itself, ASCII letters without regard to case.

Main statement: the pattern `%` matches every text (`isMatch_percent`).
-/
namespace AdjacencyForest.Like

/-- A character without its case, for ASCII letters. -/
def fold (c : Char) : Char := c.toLower

def isMatch : List Char → List Char → Bool
  | [], text => text.isEmpty
  | '%' :: pattern, [] => isMatch pattern []
  | '%' :: pattern, c :: text => isMatch pattern (c :: text) || isMatch ('%' :: pattern) text
  | _ :: _, [] => false
  | p :: pattern, c :: text => (p == '_' || fold p == fold c) && isMatch pattern text
termination_by pattern text => (pattern.length, text.length)

theorem isMatch_percent (text : List Char) : isMatch ['%'] text = true := by
  induction text with
  | nil => simp [isMatch]
  | cons c rest ih => simp [isMatch, ih]

/-- The longest pattern, in bytes, that is matched at all. -/
def patternLimit : Nat := 50000

end AdjacencyForest.Like
