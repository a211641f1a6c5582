import AdjacencyForest.Error
import AdjacencyForest.Text.UpperCase

/-!
# Configuration

The four settings of the service, read from variables of its environment, each with a default.

Main statement: an empty limit of depth is no limit (`depthLimit_empty`).
-/
namespace AdjacencyForest

/-- The variables that are set. -/
structure Environment where
  databaseUrl : Option String := none
  logLevel : Option String := none
  treeMaxDepth : Option String := none
  seedDatabase : Option String := none

/-- The settings of the service. -/
structure Configuration where
  databaseUrl : String
  logLevel : String
  treeMaxDepth : Option Int
  seedDatabase : Bool
  /-- The kind of database that the address names. -/
  dialect : String
  deriving DecidableEq, Repr

/-- The parts of a database address that matter: the scheme, the text of the port, and whether a
user or a host is named. -/
structure DatabaseUrl where
  scheme : String
  port : Option String
  hasHost : Bool

namespace DatabaseUrl

/-- A character of a scheme. Letters and digits beyond ASCII are not told apart from other
characters of theirs. -/
def isSchemeChar (c : Char) : Bool :=
  c.isAlphanum || c == '_' || c == '+' || 0x80 ≤ c.toNat

/-- What stands before the last `@` of a text, if there is one, and what stands after it. -/
def splitLastAt (text : List Char) : Option (List Char × List Char) :=
  if text.contains '@' then
    let after := (text.reverse.takeWhile (· != '@')).reverse
    some (text.take (text.length - after.length - 1), after)
  else none

/-- Whether a user is named before the host, and the text from the host on: a name and, after a
colon, a password stand before an `@`. -/
def splitUser (rest : List Char) : Bool × List Char :=
  let first := rest.takeWhile fun c => c != ':' && c != '/'
  let later := rest.drop first.length
  let password := later.takeWhile (· != '@')
  if later.head? == some ':' && password.length < later.length then
    (!first.isEmpty || 1 < password.length, later.drop (password.length + 1))
  else match splitLastAt first with
    | some (user, host) => (!user.isEmpty, host ++ later)
    | none => (false, rest)

/-- An address is a scheme, `://` and a rest. -/
def ofString? (url : String) : Option DatabaseUrl :=
  let scheme := url.toList.takeWhile isSchemeChar
  match url.toList.drop scheme.length with
  | ':' :: '/' :: '/' :: rest =>
    if scheme.isEmpty then none
    else
      let (hasUser, place) := splitUser rest
      let host := place.takeWhile fun c => c != '/' && c != ':' && c != '?'
      let port := match place.drop host.length with
        | ':' :: port => some (String.ofList (port.takeWhile fun c => c != '/' && c != '?'))
        | _ => none
      some ⟨String.ofList scheme, port, hasUser || !host.isEmpty⟩
  | _ => none

/-- The kind of database and the driver, if one is named. -/
def dialectAndDriver (url : DatabaseUrl) : String × Option String :=
  let name := url.scheme.toList.takeWhile (· != '+')
  let after := url.scheme.toList.drop (name.length + 1)
  (String.ofList name,
    if name.length < url.scheme.toList.length then some (String.ofList after) else none)

/-- The number of the port; zero and an empty text are none. -/
def portNumber (url : DatabaseUrl) : Except Fault (Option Int) :=
  match url.port with
  | none => .ok none
  | some text =>
    if text.isEmpty then .ok none
    else match readInteger text with
      | .ok port => .ok (if port = 0 then none else some port)
      | .error fault => .error (.ofInteger fault)

end DatabaseUrl

namespace Configuration

/-- The kinds of databases and their drivers that are known but not there, and the module that each
lacks. -/
def absentModules : List ((String × Option String) × String) :=
  [(("sqlite", some "aiosqlite"), "aiosqlite"),
    (("sqlite", some "pysqlcipher"), "sqlcipher3"),
    (("postgresql", none), "psycopg"),
    (("postgresql", some "psycopg"), "psycopg"),
    (("postgresql", some "psycopg2"), "psycopg2"),
    (("postgresql", some "asyncpg"), "asyncpg"),
    (("postgresql", some "pg8000"), "pg8000"),
    (("mysql", none), "MySQLdb"),
    (("mysql", some "mysqldb"), "MySQLdb"),
    (("mysql", some "pymysql"), "pymysql"),
    (("mysql", some "aiomysql"), "aiomysql"),
    (("mysql", some "asyncmy"), "asyncmy"),
    (("mariadb", none), "MySQLdb"),
    (("mariadb", some "mysqldb"), "MySQLdb"),
    (("mariadb", some "pymysql"), "pymysql"),
    (("mariadb", some "mariadbconnector"), "mariadb"),
    (("mssql", none), "pyodbc"),
    (("mssql", some "pyodbc"), "pyodbc"),
    (("mssql", some "pymssql"), "pymssql"),
    (("oracle", none), "oracledb"),
    (("oracle", some "oracledb"), "oracledb"),
    (("oracle", some "cx_oracle"), "cx_Oracle")]

/-- The drivers of the embedded database that are there. -/
def embeddedDrivers : List (Option String) := [none, some "pysqlite"]

/-- The kind of database that an address names. The embedded database has neither user nor host. -/
def dialectOf (url : String) : Except Fault String :=
  match DatabaseUrl.ofString? url with
  | none => .error .malformedUrl
  | some parts => do
    let port ← parts.portNumber
    let (name, driver) := parts.dialectAndDriver
    if name = "sqlite" ∧ embeddedDrivers.contains driver then
      if parts.hasHost || port.isSome then throw (.embeddedWithHost url)
      return "sqlite"
    match absentModules.lookup (name, driver), driver with
    | some module, _ => throw (.absentModule module)
    | none, none => throw (.unknownDriver name)
    | none, some driver => throw (.unknownDriver s!"{name}.{driver}")

def affirmations : List String := ["1", "true", "yes"]

/-- The limit of depth: none if the variable is empty. -/
def depthLimit : Option String → Except Fault (Option Int)
  | none => .ok none
  | some text =>
    if text.isEmpty then .ok none
    else match readInteger text with
      | .ok limit => .ok (some limit)
      | .error fault => .error (.ofInteger fault)

theorem depthLimit_empty : depthLimit (some "") = .ok none := rfl

def ofEnvironment (environment : Environment) : Except Fault Configuration := do
  let url := environment.databaseUrl.getD "sqlite:///./tree.db"
  let limit ← depthLimit environment.treeMaxDepth
  let dialect ← dialectOf url
  return {
    databaseUrl := url
    logLevel := Text.upperCase (environment.logLevel.getD "INFO")
    treeMaxDepth := limit
    seedDatabase := affirmations.contains (environment.seedDatabase.getD "true").toLower
    dialect := dialect }

end Configuration
end AdjacencyForest
