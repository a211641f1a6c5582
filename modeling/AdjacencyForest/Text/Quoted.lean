import AdjacencyForest.Text.Printable

/-!
# Quoted text

The form in which messages show a text: in single quotes, or in double quotes if the text holds a
single quote and no double one; the quote in use and the backslash are escaped, and what is not
printable is written by its code point.

Main statement: a text of printable characters without quotes and backslashes is shown as it is.
-/
namespace AdjacencyForest.Text

/-- The last `width` hexadecimal digits of a number, in lower case. -/
def hexadecimal (width point : Nat) : List Char :=
  (List.range width).reverse.map fun place => Nat.digitChar (point / Nat.pow 16 place % 16)

/-- The shortest of the three escapes that can name the code point. -/
def escapedPoint (point : Nat) : List Char :=
  if point < 0x100 then '\\' :: 'x' :: hexadecimal 2 point
  else if point < 0x10000 then '\\' :: 'u' :: hexadecimal 4 point
  else '\\' :: 'U' :: hexadecimal 8 point

def quotedChar (quote c : Char) : List Char :=
  if c == quote || c == '\\' then ['\\', c]
  else if c == '\n' then ['\\', 'n']
  else if c == '\r' then ['\\', 'r']
  else if c == '\t' then ['\\', 't']
  else if isPrintable c then [c]
  else escapedPoint c.toNat

/-- Double quotes serve a text that holds single quotes only. -/
def quoteFor (text : List Char) : Char :=
  if text.contains '\'' && !text.contains '"' then '"' else '\''

def quotedChars (text : List Char) : List Char :=
  let quote := quoteFor text
  quote :: (text.flatMap (quotedChar quote) ++ [quote])

def quoted (text : String) : String :=
  String.ofList (quotedChars text.toList)

/-- The quoted form of a sequence of code points that need not be characters: a surrogate that
stands alone is written by its escape. -/
def quotedPoints (points : List Nat) : String :=
  let quote := quoteFor (points.map Char.ofNat)
  let written := points.flatMap fun point =>
    if Nat.isValidChar point then quotedChar quote (Char.ofNat point) else escapedPoint point
  String.ofList (quote :: (written ++ [quote]))

def isPlain (c : Char) : Bool :=
  isPrintable c && c != '\'' && c != '"' && c != '\\'

theorem quotedChar_of_isPlain {c : Char} (plain : isPlain c = true) : quotedChar '\'' c = [c] := by
  simp only [isPlain, Bool.and_eq_true, bne_iff_ne, ne_eq] at plain
  obtain ⟨⟨⟨printable, noSingle⟩, noDouble⟩, noBackslash⟩ := plain
  have notLine : ¬ c = '\n' := fun same => by subst same; simp [isPrintable] at printable
  have notReturn : ¬ c = '\r' := fun same => by subst same; simp [isPrintable] at printable
  have notTab : ¬ c = '\t' := fun same => by subst same; simp [isPrintable] at printable
  simp [quotedChar, noSingle, noBackslash, notLine, notReturn, notTab, printable]

theorem quotedChars_of_all_isPlain {text : List Char} (plain : ∀ c ∈ text, isPlain c = true) :
    quotedChars text = '\'' :: (text ++ ['\'']) := by
  have noSingle : '\'' ∉ text := fun member => absurd (plain _ member) (by decide)
  have same : text.flatMap (quotedChar '\'') = text := by
    induction text with
    | nil => rfl
    | cons c rest ih =>
      have head := quotedChar_of_isPlain (plain c (by simp))
      have tail := ih (fun d member => plain d (by simp [member])) (by simp_all)
      simp [List.flatMap_cons, head, tail]
  simp [quotedChars, quoteFor, noSingle, same]

end AdjacencyForest.Text
