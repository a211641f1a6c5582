import AdjacencyForest.Sql.ReservedWords

/-!
# Database engines

An engine is known by its name; its `SqlStyle` holds all in which the SQL text of engines differs,
but for the path fragments.

Main statement: the engine of a name has that name (`name_ofName`).
-/
namespace AdjacencyForest

/-- A database engine. -/
inductive Engine where
  | mysql
  | mariadb
  | postgresql
  | sqlite
  | sqlServer
  | other (name : String)
  deriving DecidableEq, Repr

namespace Engine

def ofName : String → Engine
  | "mysql" => .mysql
  | "mariadb" => .mariadb
  | "postgresql" => .postgresql
  | "sqlite" => .sqlite
  | "mssql" => .sqlServer
  | name => .other name

def name : Engine → String
  | .mysql => "mysql"
  | .mariadb => "mariadb"
  | .postgresql => "postgresql"
  | .sqlite => "sqlite"
  | .sqlServer => "mssql"
  | .other name => name

theorem name_ofName (text : String) : (ofName text).name = text := by
  unfold ofName
  split <;> rfl

end Engine

/-- How a statement asks for its first row. -/
inductive RowLimit where
  /-- `LIMIT 1` on a line of its own, after a blank. -/
  | limit
  /-- `LIMIT 1 OFFSET 0`. -/
  | limitOffset
  /-- `TOP 1` before the columns. -/
  | top
  deriving DecidableEq, Repr

/-- The SQL text of an engine, as far as engines differ. -/
structure SqlStyle where
  /-- The quotes around a name. -/
  opening : Char
  closing : Char
  /-- A percent sign is written twice. -/
  doublesPercent : Bool
  /-- A backslash in a text is written twice. -/
  doublesBackslash : Bool
  joinWords : String
  withWords : String
  /-- The words for the truth values. -/
  trueWord : String
  falseWord : String
  rowLimit : RowLimit
  reserved : List String

namespace SqlStyle

def common : SqlStyle where
  opening := '"'
  closing := '"'
  doublesPercent := false
  doublesBackslash := false
  joinWords := " JOIN "
  withWords := "WITH RECURSIVE "
  trueWord := "1"
  falseWord := "0"
  rowLimit := .limit
  reserved := ReservedWords.common

def mysql : SqlStyle :=
  { common with
    opening := '\x60'
    closing := '\x60'
    doublesPercent := true
    doublesBackslash := true
    joinWords := " INNER JOIN "
    trueWord := "true"
    falseWord := "false"
    reserved := ReservedWords.mysql }

def ofEngine : Engine → SqlStyle
  | .mysql => mysql
  | .mariadb => { mysql with reserved := ReservedWords.mariadb }
  | .postgresql =>
    { common with
      doublesPercent := true
      trueWord := "true"
      falseWord := "false"
      reserved := ReservedWords.postgresql }
  | .sqlite =>
    { common with
      rowLimit := .limitOffset
      reserved := ReservedWords.sqlite }
  | .sqlServer =>
    { common with
      opening := '['
      closing := ']'
      withWords := "WITH "
      rowLimit := .top
      reserved := ReservedWords.sqlServer }
  | .other _ => common

def double (c : Char) (text : List Char) : List Char :=
  text.flatMap fun d => if d == c then [d, d] else [d]

def percents (style : SqlStyle) (text : List Char) : List Char :=
  if style.doublesPercent then double '%' text else text

/-- A name in quotes: the closing quote is written twice inside. -/
def quoteName (style : SqlStyle) (name : List Char) : List Char :=
  style.opening :: (style.percents (double style.closing name) ++ [style.closing])

/-- A character that a name without quotes may hold. The long s and the dotless i count as the
letters of which they are variants. -/
def isPlainNameChar (c : Char) : Bool :=
  ('a' ≤ c && c ≤ 'z') || ('0' ≤ c && c ≤ '9') || c == '_' || c == '$' ||
    c.toNat == 0x17f || c.toNat == 0x131

/-- The characters with which a name without quotes does not begin. -/
def isPlainNameStart (c : Char) : Bool := !(('0' ≤ c && c ≤ '9') || c == '$')

/-- A name without the line end after it, if there is one. -/
def withoutFinalLineEnd (name : List Char) : List Char :=
  if name.getLast? == some '\n' then name.dropLast else name

def isPlainName (style : SqlStyle) (name : List Char) : Bool :=
  let body := withoutFinalLineEnd name
  !body.isEmpty && body.all isPlainNameChar && (name.head?.map isPlainNameStart).getD false &&
    !style.reserved.contains (String.ofList name)

/-- A name, in quotes if it needs them. -/
def nameChars (style : SqlStyle) (name : List Char) : List Char :=
  if style.isPlainName name then name else style.quoteName name

def name (style : SqlStyle) (name : String) : String :=
  String.ofList (style.nameChars name.toList)

def textLiteral (style : SqlStyle) (text : String) : String :=
  let body := double '\'' text.toList
  let body := if style.doublesBackslash then double '\\' body else body
  String.ofList ('\'' :: (style.percents body ++ ['\'']))

theorem double_append (c : Char) (s t : List Char) :
    double c (s ++ t) = double c s ++ double c t := by
  simp [double]

end SqlStyle
end AdjacencyForest
