import AdjacencyForest.Proofs.SqlReading
import AdjacencyForest.Proofs.Steps
import AdjacencyForest.Sql.Statement

/-!
# Path fragments as engines read them

Whatever characters a separator has, each engine reads a fragment of a path as the running path, the
separator and the key, joined to one text; and the first fragment as a cast of the key. Percent signs
that are written twice for the driver are taken back first. Names may have any characters but percent
signs, which are written four times.

Main statements: `sent?_percents`, the percent signs that an engine is sent; `read_append` and
`read_start`, the fragments in each dialect; `fragments_are_read`, all of it for the engines of the
registry.
-/

namespace AdjacencyForest

open SqlDialect

/-! ## Percent signs -/

/-- A text without the doubling of percent signs; one that stands alone is refused. -/
def undoubled? : List Char → Option (List Char)
  | [] => some []
  | '%' :: '%' :: rest => (undoubled? rest).map ('%' :: ·)
  | '%' :: _ => none
  | c :: rest => (undoubled? rest).map (c :: ·)

/-- The text that the driver of an engine sends: some take percent signs for places of values. -/
def Engine.sent? (text : List Char) : Engine → Option (List Char)
  | .mysql | .mariadb | .postgresql => undoubled? text
  | .sqlite | .sqlServer | .other _ => some text

theorem undoubled?_double (text : List Char) :
    undoubled? (SqlStyle.double '%' text) = some text := by
  induction text with
  | nil => rfl
  | cons c text ih =>
    rw [double_cons]
    by_cases percent : c = '%'
    · subst percent
      simp [undoubled?, ih]
    · have alone (rest : List Char) : undoubled? (c :: rest) = (undoubled? rest).map (c :: ·) := by
        rw [undoubled?]
        · exact fun _ same => absurd same percent
        · exact percent
      simp [percent, alone, ih]

theorem sent?_percents (engine : Engine) (text : List Char) :
    engine.sent? ((SqlStyle.ofEngine engine).percents text) = some text := by
  cases engine <;> first | exact undoubled?_double text | rfl

/-! ## Names and texts of an engine -/

variable {engine : Engine} {parts : List (List Char)} {name part text : List Char}

theorem mem_double {c d : Char} : d ∈ SqlStyle.double c text ↔ d ∈ text := by
  simp only [SqlStyle.double, List.mem_flatMap]
  constructor
  · rintro ⟨e, found, given⟩
    split at given <;> simp_all
  · intro found
    exact ⟨d, found, by split <;> simp⟩

theorem double_eq_self {c : Char} (clear : c ∉ text) : SqlStyle.double c text = text := by
  induction text with
  | nil => rfl
  | cons d text ih =>
    rw [List.mem_cons, not_or] at clear
    rw [double_cons, ih clear.2, if_neg (mt beq_iff_eq.mp (Ne.symm clear.1)), List.singleton_append]

theorem percents_eq_self (style : SqlStyle) (clear : '%' ∉ text) : style.percents text = text := by
  unfold SqlStyle.percents
  split
  · exact double_eq_self clear
  · rfl

theorem quoteName_eq (engine : Engine) (clear : '%' ∉ part) :
    (SqlStyle.ofEngine engine).quoteName part = (ofEngine engine).quoted part := by
  unfold SqlStyle.quoteName SqlDialect.quoted
  rw [percents_eq_self _ (mt mem_double.mp clear)]
  cases engine <;> rfl

/-- The parts of the name between its points, of which none is empty or has a percent sign. -/
def HasPlainParts (name : String) : Prop :=
  ∀ part ∈ PathGrammar.segments name.toList, part ≠ [] ∧ '%' ∉ part

/-- The identifiers that a name with points stands for. -/
def identifiersOf (name : String) : List String :=
  (PathGrammar.segments name.toList).map String.ofList

theorem segments_ne_nil (name : List Char) : PathGrammar.segments name ≠ [] := by
  cases name with
  | nil => simp [PathGrammar.segments]
  | cons c name =>
    unfold PathGrammar.segments
    rw [List.foldr_cons]
    split
    · simp
    · split <;> simp

/-! ## The fragments in each dialect -/

namespace SqlDialect

variable {dialect : SqlDialect} {running column : List (List Char)} {separator : List Char}
  {more : List SqlToken}

/-- Names with points between them. -/
def qualified (dialect : SqlDialect) (parts : List (List Char)) : List Char :=
  PathGrammar.joinWith ['.'] (parts.map dialect.quoted)

/-- The names as they are read: they can be nothing else, as long as none is empty. -/
structure IsName (parts : List (List Char)) : Prop where
  nonempty : parts ≠ []
  filled : ∀ part ∈ parts, part ≠ []

def columnTerm (parts : List (List Char)) : SqlTerm := .leaf (.column (parts.map String.ofList))

def textTerm (text : List Char) : SqlTerm := .leaf (.literal (String.ofList text))

/-- The running path, the separator and the key, as a dialect joins them. -/
def appended (running : List (List Char)) (separator : List Char) (column : List (List Char)) :
    SqlDialect → SqlTerm
  | standard => .joined (.joined (columnTerm running) (textTerm separator)) (columnTerm column)
  | mysql => .joined (columnTerm running) (.joined (textTerm separator) (columnTerm column))
  | sqlServer =>
    .cast (.joined (.joined (columnTerm running) (textTerm separator))
      (.cast (columnTerm column) .unbounded)) .unbounded

theorem readTerm_last {most : Nat} {before : SqlTerm → SqlTerm} {tokens rest : List SqlToken}
    {term : SqlTerm} (primary : dialect.readPrimary (readTerm dialect most id) tokens = some (term, rest))
    (ended : dialect.afterOperator? rest = none) :
    readTerm dialect (most + 1) before tokens = some (before term, rest) := by
  rw [readTerm, primary]
  simp [ended]

theorem readTerm_joined {most : Nat} {before : SqlTerm → SqlTerm} {tokens rest more : List SqlToken}
    {term : SqlTerm} (primary : dialect.readPrimary (readTerm dialect most id) tokens = some (term, rest))
    (goes : dialect.afterOperator? rest = some more) :
    readTerm dialect (most + 1) before tokens =
      readTerm dialect most (SqlTerm.joined (before term)) more := by
  rw [readTerm, primary]
  simp [goes]

variable {nested : List SqlToken → Option (SqlTerm × List SqlToken)} {tokens rest : List SqlToken}
  {term later : SqlTerm} {most : Nat}

theorem readArguments_more (first : nested tokens = some (term, .symbol ',' :: more))
    (others : readArguments nested most more = some (later, rest)) :
    readArguments nested (most + 1) tokens = some (.joined term later, rest) := by
  rw [readArguments, first]
  simp [others]

theorem readArguments_last (first : nested tokens = some (term, .symbol ')' :: rest)) :
    readArguments nested (most + 1) tokens = some (term, rest) := by
  rw [readArguments, first]
  rfl

theorem readPrimary_concat (arguments : Nat) (enough : arguments ≤ tokens.length)
    (parsed : ∀ most, readArguments nested (most + arguments) tokens = some (term, rest)) :
    mysql.readPrimary nested (.word "concat".toList :: .symbol '(' :: tokens) = some (term, rest) := by
  have listed : mysql.readPrimary nested (.word "concat".toList :: .symbol '(' :: tokens) =
      readArguments nested tokens.length tokens := rfl
  obtain ⟨most, length⟩ := Nat.exists_eq_add_of_le' enough
  rw [listed, length, parsed]

theorem readPrimary_cast {type : SqlTextType} (inner : nested tokens = some (term, more))
    (ended : readCastEnd more = some (type, rest)) :
    dialect.readPrimary nested (.word "cast".toList :: .symbol '(' :: tokens) =
      some (.cast term type, rest) := by
  rw [readPrimary, if_pos rfl, inner]
  simp [ended]

theorem exists_last (named : IsName running) : ∃ parts name, running = parts ++ [name] :=
  ⟨_, _, (List.dropLast_append_getLast named.nonempty).symm⟩

theorem read_eq {mode : SqlMode} {tokens last : List SqlToken} {term : SqlTerm} (terms : Nat)
    (runs : dialect.Runs .between text tokens mode) (ends : finish mode = some last)
    (enough : terms ≤ (tokens ++ last).length)
    (parsed : ∀ most, dialect.readTerm (most + terms) id (tokens ++ last) = some (term, [])) :
    dialect.read text = some term := by
  obtain ⟨most, length⟩ := Nat.exists_eq_add_of_le' enough
  unfold SqlDialect.read
  rw [tokens_eq runs ends]
  simp [length, parsed]

theorem read_appended_standard (runningNamed : IsName running) (columnNamed : IsName column) :
    standard.read (standard.qualified running ++ " || ".toList ++ standard.literal separator ++
      " || ".toList ++ standard.qualified column) = some (standard.appended running separator column) := by
  obtain ⟨parts, name, rfl⟩ := exists_last runningNamed
  obtain ⟨others, last, rfl⟩ := exists_last columnNamed
  have afterName : standard.Runs (.nameQuote name) " || ".toList [.name name, .bars] .between := rfl
  have afterText : standard.Runs (.textQuote separator) " || ".toList [.text separator, .bars]
      .between := rfl
  have runs := ((((@runs_identifiers standard parts name).append afterName).append
    (runs_literal separator)).append afterText).append (@runs_identifiers standard others last)
  refine read_eq 3 runs rfl (by simp; omega) fun most => ?_
  simp only [List.append_assoc, List.cons_append, List.nil_append, List.append_nil]
  rw [readTerm_joined (readPrimary_qualified runningNamed.filled (by simp)) rfl,
    readTerm_joined rfl rfl,
    readTerm_last (readPrimary_qualified columnNamed.filled (by simp)) rfl]
  rfl

theorem read_appended_mysql (runningNamed : IsName running) (columnNamed : IsName column) :
    mysql.read ("concat(".toList ++ mysql.qualified running ++ ", ".toList ++ mysql.literal separator ++
      ", ".toList ++ mysql.qualified column ++ [')']) =
        some (mysql.appended running separator column) := by
  obtain ⟨parts, name, rfl⟩ := exists_last runningNamed
  obtain ⟨others, last, rfl⟩ := exists_last columnNamed
  have opens : mysql.Runs .between "concat(".toList [.word "concat".toList, .symbol '('] .between := rfl
  have afterName : mysql.Runs (.nameQuote name) ", ".toList [.name name, .symbol ','] .between := rfl
  have afterText : mysql.Runs (.textQuote separator) ", ".toList [.text separator, .symbol ',']
      .between := rfl
  have closes : mysql.Runs (.nameQuote last) [')'] [.name last, .symbol ')'] .between := rfl
  -- Between two quoted parts the scanner is back in the state that it starts from.
  have runs := (((((opens.append (@runs_identifiers mysql parts name)).append afterName).append
    (runs_literal separator)).append afterText).append (@runs_identifiers mysql others last)).append
      closes
  refine read_eq 2 runs rfl (by simp) fun most => ?_
  simp only [List.append_assoc, List.cons_append, List.nil_append, List.append_nil]
  have key : mysql.readTerm (most + 1) id (qualifiers others ++ [.name last, .symbol ')']) =
      some (columnTerm (others ++ [last]), [.symbol ')']) :=
    readTerm_last (readPrimary_qualified columnNamed.filled (by simp)) rfl
  have text (rest : List SqlToken) : mysql.readTerm (most + 1) id (.text separator :: .symbol ',' :: rest) =
      some (textTerm separator, .symbol ',' :: rest) := readTerm_last rfl rfl
  have path (rest : List SqlToken) : mysql.readTerm (most + 1) id
      (qualifiers parts ++ .name name :: .symbol ',' :: rest) =
        some (columnTerm (parts ++ [name]), .symbol ',' :: rest) :=
    readTerm_last (readPrimary_qualified runningNamed.filled (by simp)) rfl
  refine readTerm_last (readPrimary_concat 3 (by simp; omega) fun _ => ?_) rfl
  exact readArguments_more (path _) (readArguments_more (text _) (readArguments_last key))

theorem read_appended_sqlServer (runningNamed : IsName running) (columnNamed : IsName column) :
    sqlServer.read ("cast(".toList ++ sqlServer.qualified running ++ " + ".toList ++
      sqlServer.literal separator ++ " + cast(".toList ++ sqlServer.qualified column ++
      " as varchar(max)) as varchar(max))".toList) =
        some (sqlServer.appended running separator column) := by
  obtain ⟨parts, name, rfl⟩ := exists_last runningNamed
  obtain ⟨others, last, rfl⟩ := exists_last columnNamed
  have opens : sqlServer.Runs .between "cast(".toList [.word "cast".toList, .symbol '('] .between := rfl
  have afterName : sqlServer.Runs (.nameQuote name) " + ".toList [.name name, .symbol '+']
      .between := rfl
  have afterText : sqlServer.Runs (.textQuote separator) " + cast(".toList
      [.text separator, .symbol '+', .word "cast".toList, .symbol '('] .between := rfl
  have closes : sqlServer.Runs (.nameQuote last) " as varchar(max)) as varchar(max))".toList
      [.name last, .word "as".toList, .word "varchar".toList, .symbol '(', .word "max".toList,
        .symbol ')', .symbol ')', .word "as".toList, .word "varchar".toList, .symbol '(',
        .word "max".toList, .symbol ')', .symbol ')'] .between := rfl
  have runs := (((((opens.append (@runs_identifiers sqlServer parts name)).append afterName).append
    (runs_literal separator)).append afterText).append (@runs_identifiers sqlServer others last)).append
      closes
  refine read_eq 5 runs rfl (by simp; omega) fun most => ?_
  simp only [List.append_assoc, List.cons_append, List.nil_append, List.append_nil]
  have castEnd (rest : List SqlToken) : readCastEnd (.word "as".toList :: .word "varchar".toList ::
      .symbol '(' :: .word "max".toList :: .symbol ')' :: .symbol ')' :: rest) =
        some (.unbounded, rest) := rfl
  refine readTerm_last (readPrimary_cast ?_ (castEnd [])) rfl
  rw [readTerm_joined (readPrimary_qualified runningNamed.filled (by simp)) rfl,
    readTerm_joined rfl rfl]
  exact readTerm_last (readPrimary_cast
    (readTerm_last (readPrimary_qualified columnNamed.filled (by simp)) rfl) (castEnd _)) rfl

/-- The type that the key of an anchor row is cast to. -/
def startType : SqlDialect → SqlTextType
  | standard | sqlServer => .unbounded
  | mysql => .atMost 65535

def startEnd : SqlDialect → List Char
  | standard => " as text)".toList
  | mysql => " as char(65535))".toList
  | sqlServer => " as varchar(max))".toList

theorem read_start (named : IsName column) :
    dialect.read ("cast(".toList ++ dialect.qualified column ++ dialect.startEnd) =
      some (.cast (columnTerm column) dialect.startType) := by
  obtain ⟨parts, name, rfl⟩ := exists_last named
  have opens : dialect.Runs .between "cast(".toList [.word "cast".toList, .symbol '('] .between := by
    cases dialect <;> rfl
  obtain ⟨ending, closes, castEnd⟩ : ∃ ending,
      dialect.Runs (.nameQuote name) dialect.startEnd (.name name :: .word "as".toList :: ending)
        .between ∧
      readCastEnd (.word "as".toList :: ending) = some (dialect.startType, []) := by
    cases dialect <;> exact ⟨_, rfl, rfl⟩
  have runs := (opens.append (@runs_identifiers dialect parts name)).append closes
  refine read_eq 2 runs rfl (by simp) fun most => ?_
  simp only [List.cons_append, List.nil_append, List.append_nil]
  exact readTerm_last (readPrimary_cast
    (readTerm_last (readPrimary_qualified named.filled (by simp)) rfl) castEnd) rfl

/-! ## The fragments of the engines -/

def appendedText (running : List (List Char)) (separator : List Char) (column : List (List Char))
    (dialect : SqlDialect) : List Char :=
  match dialect with
  | standard => dialect.qualified running ++ " || ".toList ++ dialect.literal separator ++
      " || ".toList ++ dialect.qualified column
  | mysql => "concat(".toList ++ dialect.qualified running ++ ", ".toList ++
      dialect.literal separator ++ ", ".toList ++ dialect.qualified column ++ [')']
  | sqlServer => "cast(".toList ++ dialect.qualified running ++ " + ".toList ++
      dialect.literal separator ++ " + cast(".toList ++ dialect.qualified column ++
      " as varchar(max)) as varchar(max))".toList

theorem read_appended (runningNamed : IsName running) (columnNamed : IsName column) :
    dialect.read (dialect.appendedText running separator column) =
      some (dialect.appended running separator column) := by
  cases dialect with
  | standard => exact read_appended_standard runningNamed columnNamed
  | mysql => exact read_appended_mysql runningNamed columnNamed
  | sqlServer => exact read_appended_sqlServer runningNamed columnNamed

end SqlDialect

theorem identifier_eq (engine : Engine) {name : String} (plain : HasPlainParts name) :
    PathGrammar.identifier (SqlStyle.ofEngine engine) name.toList =
      (ofEngine engine).qualified (PathGrammar.segments name.toList) :=
  congrArg _ (List.map_congr_left fun part member => quoteName_eq engine (plain part member).2)

theorem isName_segments {name : String} (plain : HasPlainParts name) :
    IsName (PathGrammar.segments name.toList) :=
  ⟨segments_ne_nil _, fun part member => (plain part member).1⟩

theorem mem_standard {name : String} {grammar : PathGrammar} :
    (name, grammar) ∈ Registry.standard ↔
      name = "mysql" ∧ grammar = .mysql ∨ name = "mariadb" ∧ grammar = .mysql ∨
      name = "postgresql" ∧ grammar = .postgresql ∨ name = "sqlite" ∧ grammar = .sqlite ∨
      name = "mssql" ∧ grammar = .sqlServer := by
  simp [Registry.standard]

/-- The text of a fragment as the engine is sent it. -/
theorem exists_pathText {name : String} {grammar : PathGrammar} {fragment : PathFragment} {text : List Char}
    (written : grammar.fragment? (.ofEngine (.ofName name)) fragment = some text) :
    ∃ rendered, Sql.pathText (.ofEngine (.ofName name)) grammar fragment = .ok rendered ∧
      (Engine.ofName name).sent? rendered.toList = some text := by
  have made : grammar.fragment (.ofEngine (.ofName name)) fragment = .ok (String.ofList text) := by
    rw [PathGrammar.fragment, written]
  refine ⟨_, bind_eq_ok.mpr ⟨_, made, rfl⟩, ?_⟩
  rw [String.toList_ofList, String.toList_ofList, sent?_percents]

section Registry

variable {name running separator column : String} {grammar : PathGrammar}
  (listed : (name, grammar) ∈ Registry.standard)
include listed

theorem fragment?_append (runningPlain : HasPlainParts running) (columnPlain : HasPlainParts column) :
    grammar.fragment? (.ofEngine (.ofName name)) (.append running separator column) =
      some ((ofEngine (.ofName name)).appendedText (PathGrammar.segments running.toList)
        separator.toList (PathGrammar.segments column.toList)) := by
  have running := identifier_eq (.ofName name) runningPlain
  have column := identifier_eq (.ofName name) columnPlain
  obtain ⟨rfl, rfl⟩ | ⟨rfl, rfl⟩ | ⟨rfl, rfl⟩ | ⟨rfl, rfl⟩ | ⟨rfl, rfl⟩ := mem_standard.mp listed <;>
    (simp only [PathGrammar.fragment?, running, column]; rfl)

theorem fragment?_start (plain : HasPlainParts column) :
    grammar.fragment? (.ofEngine (.ofName name)) (.start column) =
      some ("cast(".toList ++ (ofEngine (.ofName name)).qualified (PathGrammar.segments column.toList) ++
        (ofEngine (.ofName name)).startEnd) := by
  have column := identifier_eq (.ofName name) plain
  obtain ⟨rfl, rfl⟩ | ⟨rfl, rfl⟩ | ⟨rfl, rfl⟩ | ⟨rfl, rfl⟩ | ⟨rfl, rfl⟩ := mem_standard.mp listed <;>
    (simp only [PathGrammar.fragment?, column]; rfl)

theorem exists_read_append (runningPlain : HasPlainParts running) (columnPlain : HasPlainParts column) :
    ∃ rendered, Sql.pathText (.ofEngine (.ofName name)) grammar (.append running separator column) =
        .ok rendered ∧
      ((Engine.ofName name).sent? rendered.toList).bind (ofEngine (.ofName name)).read =
        some ((ofEngine (.ofName name)).appended (PathGrammar.segments running.toList)
          separator.toList (PathGrammar.segments column.toList)) := by
  obtain ⟨rendered, made, sent⟩ := exists_pathText (fragment?_append listed runningPlain columnPlain)
  refine ⟨rendered, made, ?_⟩
  rw [sent]
  exact read_appended (isName_segments runningPlain) (isName_segments columnPlain)

end Registry

theorem leaves_appended {dialect : SqlDialect} {running separator column : String} :
    (dialect.appended (PathGrammar.segments running.toList) separator.toList
      (PathGrammar.segments column.toList)).leaves =
      [.column (identifiersOf running), .literal separator, .column (identifiersOf column)] := by
  cases dialect <;>
    simp [appended, columnTerm, textTerm, SqlTerm.leaves, identifiersOf, String.ofList_toList]

theorem value?_appended {dialect : SqlDialect} {running separator column path : String}
    {columns : List String → Value} (given : columns (identifiersOf running) = .text path) :
    (dialect.appended (PathGrammar.segments running.toList) separator.toList
      (PathGrammar.segments column.toList)).value? dialect columns =
      some ((Value.text path).appendKey separator (columns (identifiersOf column))) := by
  unfold identifiersOf at given ⊢
  cases dialect <;>
    cases key : columns ((PathGrammar.segments column.toList).map String.ofList) <;>
      simp [appended, columnTerm, textTerm, SqlTerm.value?, given, key, SqlDialect.join,
        SqlTextType.convert, Value.asText, Value.appendKey, Value.text?, String.ofList_toList,
        String.append_assoc]

theorem value?_start {dialect : SqlDialect} {column text : String} {columns : List String → Value}
    (key : (columns (identifiersOf column)).text? = some text) (short : text.length ≤ 65535) :
    (SqlTerm.cast (columnTerm (PathGrammar.segments column.toList)) dialect.startType).value? dialect
      columns = some (.text text) := by
  have converted : (columns (identifiersOf column)).asText = .text text := by
    rw [Value.asText, key]
  have whole : text.toList.take 65535 = text.toList := List.take_of_length_le short
  unfold identifiersOf at converted
  cases dialect <;>
    simp [columnTerm, SqlTerm.value?, startType, SqlTextType.convert, converted, whole,
      String.ofList_toList]

end AdjacencyForest
