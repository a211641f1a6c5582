import AdjacencyForest.Error
import AdjacencyForest.Sql.Engine

/-!
# Path grammars

The path of a row is built by two operations for which engines have different SQL: casting the
anchor's key to text, and appending a key to the running path. A `PathGrammar` is one such dialect;
a `Registry` says which engine uses which.

Main statement: registering a grammar decides what is found under that name and under no other
(`find?_register_same`, `find?_register_other`).
-/
namespace AdjacencyForest

/-- One dialect of path fragments. The base grammar knows quoting only. -/
inductive PathGrammar where
  | base
  | mysql
  | postgresql
  | sqlite
  | sqlServer
  deriving DecidableEq, Repr

/-- The two operations on paths. Columns may be qualified: `table.column`. -/
inductive PathFragment where
  /-- The key of the column as text. -/
  | start (column : String)
  /-- The running path, the separator and the key of the column. -/
  | append (running separator column : String)
  deriving DecidableEq, Repr

namespace PathGrammar

def segments (name : List Char) : List (List Char) :=
  name.foldr (fun c parts =>
    if c = '.' then [] :: parts
    else match parts with
      | part :: rest => (c :: part) :: rest
      | [] => [[c]]) [[]]

def joinWith (separator : List Char) : List (List Char) → List Char
  | [] => []
  | [part] => part
  | part :: next :: rest => part ++ separator ++ joinWith separator (next :: rest)

/-- A qualified name with each part in the engine's quotes. -/
def identifier (style : SqlStyle) (name : List Char) : List Char :=
  joinWith ['.'] ((segments name).map style.quoteName)

/-- A text literal. The grammar of MySQL writes a backslash twice. -/
def literal (grammar : PathGrammar) (text : List Char) : List Char :=
  let body := if grammar = .mysql then SqlStyle.double '\\' text else text
  '\'' :: (SqlStyle.double '\'' body ++ ['\''])

/-- The text of a fragment; the base grammar has none. -/
def fragment? (grammar : PathGrammar) (style : SqlStyle) (fragment : PathFragment) :
    Option (List Char) :=
  match grammar, fragment with
  | .base, _ => none
  | .mysql, .start column => some <|
    "cast(".toList ++ identifier style column.toList ++ " as char(65535))".toList
  | .mysql, .append running separator column => some <|
    "concat(".toList ++ identifier style running.toList ++ ", ".toList ++
      literal .mysql separator.toList ++ ", ".toList ++ identifier style column.toList ++ [')']
  | .sqlServer, .start column => some <|
    "cast(".toList ++ identifier style column.toList ++ " as varchar(max))".toList
  | .sqlServer, .append running separator column => some <|
    "cast(".toList ++ identifier style running.toList ++ " + ".toList ++
      literal .sqlServer separator.toList ++ " + cast(".toList ++ identifier style column.toList ++
      " as varchar(max)) as varchar(max))".toList
  | _, .start column => some <|
    "cast(".toList ++ identifier style column.toList ++ " as text)".toList
  | grammar, .append running separator column => some <|
    identifier style running.toList ++ " || ".toList ++ literal grammar separator.toList ++
      " || ".toList ++ identifier style column.toList

def fragment (grammar : PathGrammar) (style : SqlStyle) (fragment : PathFragment) :
    Except Fault String :=
  match grammar.fragment? style fragment with
  | some text => .ok (String.ofList text)
  | none => .error .notImplemented

end PathGrammar

/-- Which engine uses which grammar, by name. -/
abbrev Registry := List (String × PathGrammar)

namespace Registry

def standard : Registry :=
  [("mysql", .mysql), ("mariadb", .mysql), ("postgresql", .postgresql), ("sqlite", .sqlite),
    ("mssql", .sqlServer)]

def register (registry : Registry) (name : String) (grammar : PathGrammar) : Registry :=
  Json.setField name grammar registry

def unregister (registry : Registry) (name : String) : Registry :=
  registry.filter fun entry => entry.1 != name

def find? (registry : Registry) (name : String) : Option PathGrammar := Json.lookup? name registry

/-- The grammar of an engine; an engine without one is not supported. -/
def grammarFor (registry : Registry) (engine : Engine) : Except Fault PathGrammar :=
  match registry.find? engine.name with
  | some grammar => .ok grammar
  | none => .error (.tree (.unsupportedDatabase (.str engine.name)))

def names (registry : Registry) : List String :=
  (registry.map (·.1)).mergeSort fun a b => decide (a ≤ b)

theorem find?_register_same (registry : Registry) (name : String) (grammar : PathGrammar) :
    (registry.register name grammar).find? name = some grammar :=
  Json.lookup?_setField_same name grammar registry

theorem find?_register_other (registry : Registry) {name other : String} (different : other ≠ name)
    (grammar : PathGrammar) : (registry.register name grammar).find? other = registry.find? other :=
  Json.lookup?_setField_other different grammar registry

end Registry
end AdjacencyForest
