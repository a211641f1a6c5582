import AdjacencyForest.Proofs.Evaluation
import AdjacencyForest.Sql.PathGrammar

/-!
# Reading SQL

How engines read the text of an expression: the tokens that it consists of, by the rules for quoted
names and text literals, and what the expression is that they make. The dialects differ in the quotes of
names, in whether a backslash in a text literal escapes the character after it, and in what joins texts.

| dialect    | names                | texts            | joins        |
|------------|----------------------|------------------|--------------|
| standard   | double quotes        | quotes           | two bars     |
| MySQL      | backticks            | quotes, escapes  | `concat`     |
| SQL Server | brackets             | quotes           | a plus sign  |

Limits on the length of names, and the rule of SQL Server that a backslash at the end of a line continues
a text on the next one, are left out.

Main statements: `runs_quoted` and `runs_literal`, a quoted name and a quoted text are read as the name
and the text, whatever characters they have; `readName_qualified`, names with points between them.
-/

namespace AdjacencyForest

open Text

/-! ## Dialects -/

/-- The dialects in which fragments of paths are written. -/
inductive SqlDialect where
  | standard
  | mysql
  | sqlServer
  deriving DecidableEq, Repr

namespace SqlDialect

def ofEngine : Engine → SqlDialect
  | .mysql | .mariadb => mysql
  | .sqlServer => sqlServer
  | .postgresql | .sqlite | .other _ => standard

/-- The quotes around a name; inside, the closing one is written twice. -/
def opening : SqlDialect → Char
  | standard => '"'
  | mysql => '\x60'
  | sqlServer => '['

def closing : SqlDialect → Char
  | standard => '"'
  | mysql => '\x60'
  | sqlServer => ']'

/-- A backslash in a text literal escapes the character after it. -/
def escapes (dialect : SqlDialect) : Bool := dialect = mysql

end SqlDialect

/-! ## Tokens -/

inductive SqlToken where
  /-- A word without quotes, in small letters, or a number. -/
  | word (chars : List Char)
  | name (chars : List Char)
  | text (chars : List Char)
  | symbol (c : Char)
  /-- Two bars. -/
  | bars
  deriving DecidableEq, Repr

/-- Where a text is read: between tokens, or within one of which some characters have been read. -/
inductive SqlMode where
  | between
  | word (read : List Char)
  | name (read : List Char)
  /-- After a quote in a name, which ends the name unless it is followed by another one. -/
  | nameQuote (read : List Char)
  | text (read : List Char)
  /-- After a backslash that escapes. -/
  | escape (read : List Char)
  /-- After a quote in a text, which ends the text unless it is followed by another one. -/
  | textQuote (read : List Char)
  | bar
  deriving DecidableEq, Repr

namespace SqlDialect

def isWordChar (c : Char) : Bool := c.isAlphanum || c == '_'

def isSymbol (c : Char) : Bool := c == '(' || c == ')' || c == ',' || c == '.' || c == '+'

/-- The characters that an escaped one stands for: before a percent sign or a line the backslash stays. -/
def unescape : Char → List Char
  | '0' => [Char.ofNat 0]
  | 'b' => [Char.ofNat 8]
  | 't' => ['\t']
  | 'n' => ['\n']
  | 'r' => ['\r']
  | 'Z' => [Char.ofNat 26]
  | '%' => ['\\', '%']
  | '_' => ['\\', '_']
  | c => [c]

/-- The first character behind a token. -/
def begin (dialect : SqlDialect) (c : Char) : Option (List SqlToken × SqlMode) :=
  if c = dialect.opening then some ([], .name [])
  else if c = '\'' then some ([], .text [])
  else if c = '|' then some ([], .bar)
  else if isWordChar c then some ([], .word [c.toLower])
  else if isSymbol c then some ([.symbol c], .between)
  else if c = ' ' then some ([], .between)
  else none

/-- The first character behind a token that has ended before it. -/
def next (dialect : SqlDialect) (token : SqlToken) (c : Char) : Option (List SqlToken × SqlMode) :=
  (dialect.begin c).map fun (tokens, mode) => (token :: tokens, mode)

/-- The tokens that end with a character, and where the text is read on. A text literal behind a word
without a blank is another kind of literal, and is refused. -/
def step (dialect : SqlDialect) (mode : SqlMode) (c : Char) : Option (List SqlToken × SqlMode) :=
  match mode with
  | .between => dialect.begin c
  | .word read =>
    if isWordChar c then some ([], .word (read ++ [c.toLower]))
    else if c = '\'' then none
    else dialect.next (.word read) c
  | .name read =>
    if c = dialect.closing then some ([], .nameQuote read) else some ([], .name (read ++ [c]))
  | .nameQuote read =>
    if c = dialect.closing then some ([], .name (read ++ [c])) else dialect.next (.name read) c
  | .text read =>
    if dialect.escapes && c == '\\' then some ([], .escape read)
    else if c = '\'' then some ([], .textQuote read)
    else some ([], .text (read ++ [c]))
  | .escape read => some ([], .text (read ++ unescape c))
  | .textQuote read =>
    if c = '\'' then some ([], .text (read ++ [c])) else dialect.next (.text read) c
  | .bar => if c = '|' then some ([.bars], .between) else none

def run (dialect : SqlDialect) : SqlMode → List Char → Option (List SqlToken × SqlMode)
  | mode, [] => some ([], mode)
  | mode, c :: rest => do
    let (tokens, after) ← dialect.step mode c
    let (later, last) ← run dialect after rest
    return (tokens ++ later, last)

/-- The token that ends with the text; a text that ends within a token is refused. -/
def finish : SqlMode → Option (List SqlToken)
  | .between => some []
  | .word read => some [.word read]
  | .nameQuote read => some [.name read]
  | .textQuote read => some [.text read]
  | .name _ | .text _ | .escape _ | .bar => none

def tokens (dialect : SqlDialect) (text : List Char) : Option (List SqlToken) := do
  let (tokens, mode) ← dialect.run .between text
  let last ← finish mode
  return tokens ++ last

end SqlDialect

/-! ## Expressions -/

/-- The types that a value can be cast to: texts of any length, or up to a length. -/
inductive SqlTextType where
  | unbounded
  | atMost (length : Nat)
  deriving DecidableEq, Repr

inductive SqlLeaf where
  | column (identifiers : List String)
  | literal (text : String)
  deriving DecidableEq, Repr

inductive SqlTerm where
  | leaf (leaf : SqlLeaf)
  | cast (term : SqlTerm) (type : SqlTextType)
  | joined (left right : SqlTerm)
  deriving DecidableEq, Repr

namespace SqlTerm

/-- The columns and literals in the order of the text. -/
def leaves : SqlTerm → List SqlLeaf
  | .leaf found => [found]
  | cast term _ => term.leaves
  | joined left right => left.leaves ++ right.leaves

end SqlTerm

namespace SqlDialect

/-- A name, or several with points between them. Empty names are refused. -/
def readName : List SqlToken → Option (List (List Char) × List SqlToken)
  | .name [] :: _ => none
  | .name part :: .symbol '.' :: rest => do
    let (parts, rest) ← readName rest
    return (part :: parts, rest)
  | .name part :: rest => some ([part], rest)
  | _ => none

def readType : List SqlToken → Option (SqlTextType × List SqlToken)
  | .word word :: .symbol '(' :: .word length :: .symbol ')' :: rest =>
    if word = "varchar".toList ∧ length = "max".toList then some (.unbounded, rest)
    else if word = "char".toList ∧ length.all isAsciiDigit then some (.atMost (ofDigits length), rest)
    else none
  | .word word :: rest => if word = "text".toList then some (.unbounded, rest) else none
  | _ => none

/-- What stands behind the term of a cast. -/
def readCastEnd : List SqlToken → Option (SqlTextType × List SqlToken)
  | .word word :: rest => do
    if word ≠ "as".toList then none
    let (type, rest) ← readType rest
    match rest with
    | .symbol ')' :: rest => some (type, rest)
    | _ => none
  | _ => none

/-- The arguments of a function up to the bracket, joined; there are at most as many as said. -/
def readArguments (nested : List SqlToken → Option (SqlTerm × List SqlToken)) :
    (most : Nat) → List SqlToken → Option (SqlTerm × List SqlToken)
  | 0, _ => none
  | most + 1, tokens => do
    let (term, rest) ← nested tokens
    match rest with
    | .symbol ',' :: rest => do
      let (later, rest) ← readArguments nested most rest
      return (.joined term later, rest)
    | .symbol ')' :: rest => some (term, rest)
    | _ => none

/-- A term without operators, where terms in brackets are read as given. -/
def readPrimary (dialect : SqlDialect) (nested : List SqlToken → Option (SqlTerm × List SqlToken)) :
    List SqlToken → Option (SqlTerm × List SqlToken)
  | .text chars :: rest => some (.leaf (.literal (String.ofList chars)), rest)
  | .word word :: .symbol '(' :: rest =>
    if word = "cast".toList then do
      let (term, rest) ← nested rest
      let (type, rest) ← readCastEnd rest
      return (.cast term type, rest)
    else if dialect = .mysql ∧ word = "concat".toList then
      readArguments nested rest.length rest
    else none
  | tokens => do
    let (parts, rest) ← readName tokens
    return (.leaf (.column (parts.map String.ofList)), rest)

/-- What stands behind an operator that joins texts. -/
def afterOperator? (dialect : SqlDialect) : List SqlToken → Option (List SqlToken)
  | .bars :: rest => if dialect = .standard then some rest else none
  | .symbol '+' :: rest => if dialect = .sqlServer then some rest else none
  | _ => none

/-- A term with operators, behind what has been read of it; no more tokens are read than said. -/
def readTerm (dialect : SqlDialect) : (most : Nat) → (SqlTerm → SqlTerm) → List SqlToken →
    Option (SqlTerm × List SqlToken)
  | 0, _, _ => none
  | most + 1, before, tokens => do
    let (term, rest) ← dialect.readPrimary (readTerm dialect most id) tokens
    match dialect.afterOperator? rest with
    | some rest => readTerm dialect most (SqlTerm.joined (before term)) rest
    | none => return (before term, rest)

/-- The expression that a text is. -/
def read (dialect : SqlDialect) (text : List Char) : Option SqlTerm := do
  let tokens ← dialect.tokens text
  let (term, rest) ← dialect.readTerm tokens.length id tokens
  if rest.isEmpty then some term else none

end SqlDialect

/-! ## Values -/

/-- The value as a text of the type. -/
def SqlTextType.convert (type : SqlTextType) (value : Value) : Value :=
  match type, value.asText with
  | .atMost length, .text s => .text (String.ofList (s.toList.take length))
  | _, converted => converted

/-- What two values are joined to, of which one is a text; the plus sign joins only texts. -/
def SqlDialect.join (dialect : SqlDialect) (left right : Value) : Option Value :=
  match left, right with
  | .null, _ | _, .null => some .null
  | .text s, .text t => some (.text (s ++ t))
  | .text _, _ | _, .text _ =>
    if dialect = .sqlServer then none else some (left.appendKey "" right)
  | _, _ => none

/-- The value of an expression, where the columns have values; `none` if it is a sum. -/
def SqlTerm.value? (dialect : SqlDialect) (columns : List String → Value) : SqlTerm → Option Value
  | leaf (.column identifiers) => some (columns identifiers)
  | leaf (.literal text) => some (.text text)
  | cast term type => (term.value? dialect columns).map type.convert
  | joined left right => do
    dialect.join (← left.value? dialect columns) (← right.value? dialect columns)

/-! ## Quoted names and texts -/

namespace SqlDialect

variable {dialect : SqlDialect} {mode middle last : SqlMode} {text more read : List Char}
  {tokens later rest : List SqlToken} {c : Char}

def quoted (dialect : SqlDialect) (name : List Char) : List Char :=
  dialect.opening :: (SqlStyle.double dialect.closing name ++ [dialect.closing])

/-- A text literal, with the backslashes written twice where they escape. -/
def literal (dialect : SqlDialect) (text : List Char) : List Char :=
  '\'' :: (SqlStyle.double '\''
    (if dialect.escapes then SqlStyle.double '\\' text else text) ++ ['\''])

/-- From a mode on the text is read as the tokens, and ends in a mode. -/
def Runs (dialect : SqlDialect) (mode : SqlMode) (text : List Char) (tokens : List SqlToken)
    (last : SqlMode) : Prop := dialect.run mode text = some (tokens, last)

namespace Runs

theorem nil : dialect.Runs mode [] [] mode := rfl

theorem cons (read : dialect.step mode c = some (tokens, middle))
    (runs : dialect.Runs middle text later last) :
    dialect.Runs mode (c :: text) (tokens ++ later) last := by
  unfold Runs at runs ⊢
  rw [run, read]
  simp [runs]

theorem append (first : dialect.Runs mode text tokens middle)
    (second : dialect.Runs middle more later last) :
    dialect.Runs mode (text ++ more) (tokens ++ later) last := by
  induction text generalizing mode tokens with
  | nil =>
    cases first
    exact second
  | cons c text ih =>
    unfold Runs at first
    rw [run] at first
    obtain ⟨⟨found, after⟩, read, first⟩ := Option.bind_eq_some_iff.mp first
    obtain ⟨⟨further, ended⟩, runs, first⟩ := Option.bind_eq_some_iff.mp first
    cases first
    rw [List.cons_append, List.append_assoc]
    exact cons read (ih runs)

end Runs

theorem tokens_eq (runs : dialect.Runs .between text tokens mode) (ends : finish mode = some later) :
    dialect.tokens text = some (tokens ++ later) := by
  unfold SqlDialect.tokens
  rw [show dialect.run .between text = some (tokens, mode) from runs]
  simp [ends]

theorem double_cons (c d : Char) (text : List Char) :
    SqlStyle.double c (d :: text) = (if d == c then [d, d] else [d]) ++ SqlStyle.double c text := by
  simp [SqlStyle.double]

/-- Inside its quotes a name is read on to its end: a quote that it has is followed by another one. -/
theorem runs_double (name : List Char) :
    dialect.Runs (.name read) (SqlStyle.double dialect.closing name) [] (.name (read ++ name)) := by
  induction name generalizing read with
  | nil => simpa [SqlStyle.double] using Runs.nil
  | cons c name ih =>
    have later := @ih (read ++ [c])
    rw [List.append_assoc, List.singleton_append] at later
    rw [double_cons]
    by_cases quote : c = dialect.closing
    · have ends : dialect.step (.name read) c = some ([], .nameQuote read) := if_pos quote
      have again : dialect.step (.nameQuote read) c = some ([], .name (read ++ [c])) := if_pos quote
      rw [if_pos (beq_iff_eq.mpr quote)]
      exact .cons ends (.cons again later)
    · have stays : dialect.step (.name read) c = some ([], .name (read ++ [c])) := if_neg quote
      rw [if_neg (mt beq_iff_eq.mp quote)]
      exact .cons stays later

theorem runs_quoted (name : List Char) :
    dialect.Runs .between (dialect.quoted name) [] (.nameQuote name) := by
  have opens : dialect.step .between dialect.opening = some ([], .name []) := if_pos rfl
  have closes : dialect.step (.name name) dialect.closing = some ([], .nameQuote name) := if_pos rfl
  exact .cons opens (.append (runs_double name) (.cons closes .nil))

/-- What a text literal has for a character. -/
def written (dialect : SqlDialect) (c : Char) : List Char :=
  if c = '\'' ∨ dialect.escapes = true ∧ c = '\\' then [c, c] else [c]

theorem literal_body_cons (content : List Char) :
    SqlStyle.double '\'' (if dialect.escapes then SqlStyle.double '\\' (c :: content)
      else c :: content) =
    dialect.written c ++ SqlStyle.double '\''
      (if dialect.escapes then SqlStyle.double '\\' content else content) := by
  unfold written
  cases dialect.escapes with
  | false => simp [double_cons]
  | true =>
    by_cases backslash : c = '\\'
    · subst backslash
      simp [double_cons]
    · simp [double_cons, backslash]

/-- Inside its quotes a text is read on to its end: a backslash that would escape is escaped itself, and
a quote is followed by another one. -/
theorem runs_literal_body (content : List Char) :
    dialect.Runs (.text read) (SqlStyle.double '\''
      (if dialect.escapes then SqlStyle.double '\\' content else content)) []
      (.text (read ++ content)) := by
  induction content generalizing read with
  | nil => simpa [SqlStyle.double] using Runs.nil
  | cons c content ih =>
    have later := @ih (read ++ [c])
    rw [List.append_assoc, List.singleton_append] at later
    rw [literal_body_cons, written]
    by_cases escaped : dialect.escapes = true ∧ c = '\\'
    · obtain ⟨escapes, rfl⟩ := escaped
      have begins : dialect.step (.text read) '\\' = some ([], .escape read) := by
        simp [step, escapes]
      have again : dialect.step (.escape read) '\\' = some ([], .text (read ++ ['\\'])) := rfl
      rw [if_pos (.inr ⟨escapes, rfl⟩), List.cons_append, List.singleton_append]
      exact .cons begins (.cons again later)
    · have plain : (dialect.escapes && c == '\\') = false := by simpa using escaped
      by_cases quote : c = '\''
      · subst quote
        have ends : dialect.step (.text read) '\'' = some ([], .textQuote read) := by
          simp [step]
        have again : dialect.step (.textQuote read) '\'' = some ([], .text (read ++ ['\''])) := rfl
        rw [if_pos (.inl rfl), List.cons_append, List.singleton_append]
        exact .cons ends (.cons again later)
      · have stays : dialect.step (.text read) c = some ([], .text (read ++ [c])) := by
          simp [step, plain, quote]
        rw [if_neg (not_or.mpr ⟨quote, escaped⟩)]
        exact .cons stays later

theorem runs_literal (content : List Char) :
    dialect.Runs .between (dialect.literal content) [] (.textQuote content) := by
  have opens : dialect.step .between '\'' = some ([], .text []) := by
    cases dialect <;> rfl
  have closes : dialect.step (.text content) '\'' = some ([], .textQuote content) := by
    simp [step]
  exact .cons opens (.append (runs_literal_body content) (.cons closes .nil))

/-! ## Names with points between them -/

variable {parts : List (List Char)} {nested : List SqlToken → Option (SqlTerm × List SqlToken)}

/-- The tokens of names with points behind them. -/
def qualifiers (parts : List (List Char)) : List SqlToken :=
  parts.flatMap fun part => [.name part, .symbol '.']

theorem runs_identifiers (parts : List (List Char)) (name : List Char) :
    dialect.Runs .between (PathGrammar.joinWith ['.'] ((parts ++ [name]).map dialect.quoted))
      (qualifiers parts) (.nameQuote name) := by
  induction parts with
  | nil => exact runs_quoted name
  | cons part parts ih =>
    have point : dialect.step (.nameQuote part) '.' =
        some ([.name part, .symbol '.'], .between) := by
      cases dialect <;> rfl
    obtain ⟨next, more, listed⟩ : ∃ next more,
        (parts ++ [name]).map dialect.quoted = next :: more :=
      List.exists_cons_of_ne_nil (by simp)
    rw [listed] at ih
    rw [List.cons_append, List.map_cons, listed, PathGrammar.joinWith, List.append_assoc,
      List.singleton_append]
    have whole := Runs.append (runs_quoted part) (.cons point ih)
    exact whole

theorem readName_qualified {name : List Char} (filled : ∀ part ∈ parts ++ [name], part ≠ [])
    (ended : rest.head? ≠ some (.symbol '.')) :
    readName (qualifiers parts ++ .name name :: rest) = some (parts ++ [name], rest) := by
  induction parts with
  | nil =>
    rw [qualifiers, List.flatMap_nil, List.nil_append, readName]
    · rfl
    · exact filled name (by simp)
    · rintro following rfl
      exact ended rfl
  | cons part parts ih =>
    have later := ih fun other member => filled other (List.mem_cons_of_mem _ member)
    have split : qualifiers (part :: parts) ++ .name name :: rest =
        .name part :: .symbol '.' :: (qualifiers parts ++ .name name :: rest) := rfl
    rw [split, readName, later]
    · rfl
    · exact filled part (by simp)

theorem readPrimary_qualified {name : List Char} (filled : ∀ part ∈ parts ++ [name], part ≠ [])
    (ended : rest.head? ≠ some (.symbol '.')) :
    dialect.readPrimary nested (qualifiers parts ++ .name name :: rest) =
      some (.leaf (.column ((parts ++ [name]).map String.ofList)), rest) := by
  have named : dialect.readPrimary nested (qualifiers parts ++ .name name :: rest) =
      (readName (qualifiers parts ++ .name name :: rest)).bind fun (found, rest) =>
        some (.leaf (.column (found.map String.ofList)), rest) := by
    cases parts <;> rfl
  rw [named, readName_qualified filled ended]
  rfl

end SqlDialect
end AdjacencyForest
