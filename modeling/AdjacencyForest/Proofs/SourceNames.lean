import AdjacencyForest.Traversal.Source
import Mathlib.Data.List.DropRight

/-!
# Sources by name

A text names a source if it is the table's name, alone or followed by blanks, the word `as` in any
case, blanks and a name of the source's own; more blanks may stand around it. The word is looked for
from the left, so it is found where the table's name ends, unless that name has it inside.

Main statements: `isCore_iff`, what trimming leaves; `splitAlias_append`, the word is not found within a
name that does not hold it; `renames_of_splitAlias`, it stands where it is found; `resolve_reads`, which
texts name a source, and which one.
-/

namespace AdjacencyForest.Source

open Text

def BeginsPlain (text : List Char) : Prop := ∀ c, text.head? = some c → isBlank c = false

def EndsPlain (text : List Char) : Prop := ∀ c, text.getLast? = some c → isBlank c = false

/-- One blank or more. -/
structure AreBlanks (blanks : List Char) : Prop where
  nonempty : blanks ≠ []
  blank : ∀ c ∈ blanks, isBlank c = true

/-- The word `as` in any case; the long s is a variant of `s`. -/
def IsWord (word : List Char) : Prop := ∃ a ∈ ['a', 'A'], ∃ s ∈ ['s', 'S', 'ſ'], word = [a, s]

/-- What a text is without the blanks around it. -/
structure IsCore (core text : List Char) : Prop where
  begins : BeginsPlain core
  ends : EndsPlain core
  around : ∃ before after, (∀ c ∈ before, isBlank c = true) ∧ (∀ c ∈ after, isBlank c = true) ∧
    text = before ++ (core ++ after)

/-- A name, the word `as` between blanks, and another name. -/
def Renames (name other text : List Char) : Prop :=
  ∃ blanks word spaces, AreBlanks blanks ∧ IsWord word ∧ AreBlanks spaces ∧
    text = name ++ (blanks ++ (word ++ (spaces ++ other)))

/-- The word `as` stands in a name behind blanks, and a blank or the end of the name follows. -/
def HoldsWord (name : List Char) : Prop :=
  ∃ before blanks word after, AreBlanks blanks ∧ IsWord word ∧
    (∀ c, after.head? = some c → isBlank c = true) ∧
    name = before ++ (blanks ++ (word ++ after))

variable {text name other core rest tail blanks word spaces : List Char} {a s c : Char}

/-! ## Trimming -/

theorem isCore_trimWith (text : List Char) : IsCore (trimWith isBlank text) text where
  begins c first := by
    have inner : trimWith isBlank text <+: text.dropWhile isBlank := List.rdropWhile_prefix _ _
    obtain ⟨after, whole⟩ := inner
    have head : (text.dropWhile isBlank).head? = some c := by
      rw [← whole, List.head?_append, first, Option.some_or]
    simpa [head] using List.head?_dropWhile_not isBlank text
  ends c last := by
    obtain ⟨nonempty, rfl⟩ := List.mem_getLast?_eq_getLast last
    exact Bool.eq_false_iff.mpr
      (List.rdropWhile_last_not isBlank (text.dropWhile isBlank) nonempty)
  around := by
    refine ⟨text.takeWhile isBlank, (text.dropWhile isBlank).rtakeWhile isBlank,
      fun _ => List.mem_takeWhile_imp, fun _ => List.mem_rtakeWhile_imp, ?_⟩
    have inner : trimWith isBlank text ++ (text.dropWhile isBlank).rtakeWhile isBlank =
        text.dropWhile isBlank := List.rdropWhile_append_rtakeWhile
    rw [inner, List.takeWhile_append_dropWhile]

theorem dropWhile_append_of_beginsPlain (blank : ∀ c ∈ blanks, isBlank c = true)
    (plain : BeginsPlain rest) : (blanks ++ rest).dropWhile isBlank = rest := by
  rw [List.dropWhile_append_of_pos blank]
  cases rest with
  | nil => rfl
  | cons c rest => rw [List.dropWhile_cons_of_neg (by simp [plain c rfl])]

theorem isCore_iff : IsCore core text ↔ core = trimWith isBlank text := by
  refine ⟨fun ⟨begins, ends, before, after, blank, blankAfter, whole⟩ => ?_, ?_⟩
  · subst whole
    cases core with
    | nil =>
      have none : (before ++ ([] ++ after)).dropWhile isBlank = [] :=
        List.dropWhile_eq_nil_iff.mpr fun c found => (List.mem_append.mp found).elim (blank c)
          (blankAfter c)
      rw [trimWith, none]
      rfl
    | cons c core =>
      have front : BeginsPlain (c :: core ++ after) := fun d first => begins d first
      have back : BeginsPlain (c :: core).reverse := fun d first =>
        ends d (by rwa [List.head?_reverse] at first)
      rw [trimWith, dropWhile_append_of_beginsPlain blank front, dropRightWhile, List.reverse_append,
        dropWhile_append_of_beginsPlain (fun d found => blankAfter d (List.mem_reverse.mp found)) back,
        List.reverse_reverse]
  · rintro rfl
    exact isCore_trimWith text

/-! ## The word -/

theorem isLetterA_iff : isLetterA a = true ↔ a ∈ ['a', 'A'] := by simp [isLetterA]

theorem isLetterS_iff : isLetterS s = true ↔ s ∈ ['s', 'S', 'ſ'] := by
  have long : s.toNat = 0x17f ↔ s = 'ſ' := Char.toNat_inj (d := 'ſ')
  simp [isLetterS, long, or_assoc]

theorem IsWord.isBlank_eq_false (found : IsWord word) : ∀ c ∈ word, isBlank c = false := by
  obtain ⟨a, first, s, second, rfl⟩ := found
  unfold isBlank isWhiteSpace
  simp only [List.mem_cons, List.not_mem_nil, or_false] at first second ⊢
  rintro c (rfl | rfl)
  · rcases first with rfl | rfl <;> decide
  · rcases second with rfl | rfl | rfl <;> decide

theorem afterWord?_eq_some : afterWord? text = some rest ↔
    ∃ word c after, IsWord word ∧ isBlank c = true ∧ text = word ++ c :: after ∧
      rest = after.dropWhile isBlank := by
  constructor
  · intro found
    unfold afterWord? at found
    split at found
    next a s c after =>
      split at found
      next letters =>
        simp only [Bool.and_eq_true, isLetterA_iff, isLetterS_iff] at letters
        obtain ⟨⟨first, second⟩, blank⟩ := letters
        exact ⟨[a, s], c, after, ⟨a, first, s, second, rfl⟩, blank, rfl, (Option.some.inj found).symm⟩
      next => cases found
    next => cases found
  · rintro ⟨_, c, after, ⟨a, first, s, second, rfl⟩, blank, rfl, rfl⟩
    simp [afterWord?, isLetterA_iff.mpr first, isLetterS_iff.mpr second, blank]

theorem IsWord.beginsPlain (found : IsWord word) (rest : List Char) : BeginsPlain (word ++ rest) := by
  obtain ⟨a, -, s, -, rfl⟩ := id found
  intro c first
  exact found.isBlank_eq_false c (List.mem_of_head? (l := [a, s]) first)

theorem afterAs?_eq_some : afterAs? text = some rest ↔
    ∃ blanks word c after, AreBlanks blanks ∧ IsWord word ∧ isBlank c = true ∧
      text = blanks ++ (word ++ c :: after) ∧ rest = after.dropWhile isBlank := by
  constructor
  · intro found
    cases text with
    | nil => cases found
    | cons b text =>
      rw [afterAs?] at found
      split at found
      next blank =>
        obtain ⟨word, c, after, isWord, ends, same, rfl⟩ := afterWord?_eq_some.mp found
        refine ⟨b :: text.takeWhile isBlank, word, c, after, ⟨List.cons_ne_nil _ _, ?_⟩, isWord, ends,
          ?_, rfl⟩
        · exact List.forall_mem_cons.mpr ⟨blank, fun _ => List.mem_takeWhile_imp⟩
        · rw [← same, List.cons_append, List.takeWhile_append_dropWhile]
      next => cases found
  · rintro ⟨blanks, word, c, after, ⟨nonempty, blank⟩, isWord, ends, rfl, rfl⟩
    obtain ⟨b, more, rfl⟩ := List.exists_cons_of_ne_nil nonempty
    obtain ⟨first, others⟩ := List.forall_mem_cons.mp blank
    rw [List.cons_append, afterAs?, if_pos first,
      dropWhile_append_of_beginsPlain others (isWord.beginsPlain _)]
    exact afterWord?_eq_some.mpr ⟨word, c, after, isWord, ends, rfl, rfl⟩

/-! ## Where the word is found -/

theorem HoldsWord.cons (holds : HoldsWord rest) (c : Char) : HoldsWord (c :: rest) := by
  obtain ⟨before, blanks, word, after, areBlanks, isWord, follows, rfl⟩ := holds
  exact ⟨c :: before, blanks, word, after, areBlanks, isWord, follows, rfl⟩

/-- A name that does not hold the word has none where a blank or nothing follows the name. -/
theorem afterAs?_append (ends : EndsPlain (c :: name)) (clear : ¬ HoldsWord (c :: name))
    (follows : ∀ d, tail.head? = some d → isBlank d = true) : afterAs? (c :: name ++ tail) = none := by
  by_contra found
  obtain ⟨rest, found⟩ := Option.ne_none_iff_exists'.mp found
  obtain ⟨blanks, word, d, after, areBlanks, isWord, blank, same, rfl⟩ := afterAs?_eq_some.mp found
  rcases List.append_eq_append_iff.mp same with ⟨more, rfl, -⟩ | ⟨inner, whole, same⟩
  · -- The name would consist of blanks.
    obtain ⟨last, isLast⟩ : ∃ last, (c :: name).getLast? = some last := ⟨_, List.getLast?_cons⟩
    have blank := areBlanks.blank last (List.mem_append_left more (List.mem_of_getLast? isLast))
    rw [ends last isLast] at blank
    cases blank
  · rcases List.append_eq_append_iff.mp same with ⟨more, rfl, ending⟩ | ⟨more, cut, rest⟩
    · refine clear ⟨[], blanks, word, more, areBlanks, isWord, fun e first => ?_, whole⟩
      obtain ⟨others, rfl⟩ := List.head?_eq_some_iff.mp first
      obtain rfl := (List.cons.inj ending).1
      exact blank
    · -- The word would go on behind the name, where a blank stands.
      cases more with
      | nil =>
        rw [List.append_nil] at cut
        exact clear ⟨[], blanks, word, [], areBlanks, isWord, fun _ none => (by cases none),
          by rw [cut, List.append_nil]; exact whole⟩
      | cons e more =>
        have blank := follows e (by rw [rest]; rfl)
        rw [isWord.isBlank_eq_false e (by simp [cut])] at blank
        cases blank

theorem splitAlias_of_none (none : afterAs? (c :: rest) = none) :
    splitAlias (c :: rest) = (splitAlias rest).map (c :: ·) id := by
  rw [splitAlias, none]

/-- Within a name that does not hold the word none is found. -/
theorem splitAlias_append (ends : EndsPlain name) (clear : ¬ HoldsWord name)
    (follows : ∀ d, tail.head? = some d → isBlank d = true) :
    splitAlias (name ++ tail) = (splitAlias tail).map (name ++ ·) id := by
  induction name with
  | nil => rfl
  | cons c name ih =>
    have inner : EndsPlain name := fun d last => ends d (by rw [List.getLast?_cons, last]; rfl)
    have later := ih inner fun holds => clear (holds.cons c)
    have unfound : afterAs? (c :: (name ++ tail)) = none := afterAs?_append ends clear follows
    rw [List.cons_append, splitAlias_of_none unfound, later]
    rfl

theorem splitAlias_renamed (areBlanks : AreBlanks blanks) (isWord : IsWord word)
    (areSpaces : AreBlanks spaces) (plain : BeginsPlain other) :
    splitAlias (blanks ++ (word ++ (spaces ++ other))) = ([], some other) := by
  obtain ⟨b, more, rfl⟩ := List.exists_cons_of_ne_nil areBlanks.nonempty
  obtain ⟨c, after, rfl⟩ := List.exists_cons_of_ne_nil areSpaces.nonempty
  obtain ⟨blank, others⟩ := List.forall_mem_cons.mp areSpaces.blank
  have found : afterAs? (b :: more ++ (word ++ (c :: after ++ other))) = some other :=
    afterAs?_eq_some.mpr ⟨b :: more, word, c, after ++ other, areBlanks, isWord, blank, rfl,
      (dropWhile_append_of_beginsPlain others plain).symm⟩
  rw [List.cons_append] at found ⊢
  rw [splitAlias, found]

/-- Where the word is found, it stands. -/
theorem renames_of_splitAlias (split : splitAlias text = (name, some other)) :
    Renames name other text ∧ BeginsPlain other := by
  induction text generalizing name with
  | nil => cases split
  | cons c text ih =>
    cases found : afterAs? (c :: text) with
    | none =>
      rw [splitAlias_of_none found] at split
      obtain ⟨same, rest⟩ := Prod.mk.inj split
      obtain ⟨⟨blanks, word, spaces, areBlanks, isWord, areSpaces, inner⟩, plain⟩ :=
        ih (Prod.ext rfl rest)
      refine ⟨⟨blanks, word, spaces, areBlanks, isWord, areSpaces, ?_⟩, plain⟩
      rw [← same, List.cons_append, ← inner]
    | some rest =>
      rw [splitAlias, found] at split
      obtain ⟨rfl, same⟩ := Prod.mk.inj split
      obtain rfl := Option.some.inj same
      obtain ⟨blanks, word, d, after, areBlanks, isWord, blank, whole, rfl⟩ :=
        afterAs?_eq_some.mp found
      refine ⟨⟨blanks, word, d :: after.takeWhile isBlank, areBlanks, isWord,
        ⟨List.cons_ne_nil _ _, List.forall_mem_cons.mpr ⟨blank, fun _ => List.mem_takeWhile_imp⟩⟩, ?_⟩,
        fun e first => ?_⟩
      · rw [whole, List.nil_append, List.cons_append, List.takeWhile_append_dropWhile]
      · simpa [first] using List.head?_dropWhile_not isBlank after

theorem eq_of_splitAlias (split : splitAlias text = (name, none)) : name = text := by
  induction text generalizing name with
  | nil => exact (Prod.mk.inj split).1.symm
  | cons c text ih =>
    cases found : afterAs? (c :: text) with
    | none =>
      rw [splitAlias_of_none found] at split
      obtain ⟨same, rest⟩ := Prod.mk.inj split
      exact same.symm.trans (congrArg (c :: ·) (ih (Prod.ext rfl rest)))
    | some rest =>
      rw [splitAlias, found] at split
      cases (Prod.mk.inj split).2

/-- A text that does not end with a blank goes on behind the blanks after the word. -/
theorem Renames.ne_nil (renames : Renames name other text) (ends : EndsPlain text) : other ≠ [] := by
  rintro rfl
  obtain ⟨blanks, word, spaces, -, -, areSpaces, rfl⟩ := renames
  have isLast := List.getLast?_eq_some_getLast areSpaces.nonempty
  have plain := ends (spaces.getLast areSpaces.nonempty) (by simp [List.getLast?_append, isLast])
  rw [areSpaces.blank _ (List.getLast_mem areSpaces.nonempty)] at plain
  cases plain

/-! ## Names that hold the word -/

theorem isSome_splitAlias (areBlanks : AreBlanks blanks) (isWord : IsWord word)
    (blank : isBlank c = true) (before : List Char) :
    (splitAlias (before ++ (blanks ++ (word ++ c :: rest)))).2.isSome = true := by
  induction before with
  | nil =>
    obtain ⟨b, more, rfl⟩ := List.exists_cons_of_ne_nil areBlanks.nonempty
    have found : afterAs? (b :: more ++ (word ++ c :: rest)) = some (rest.dropWhile isBlank) :=
      afterAs?_eq_some.mpr ⟨b :: more, word, c, rest, areBlanks, isWord, blank, rfl, rfl⟩
    rw [List.cons_append] at found
    rw [List.nil_append, List.cons_append, splitAlias, found]
    rfl
  | cons d before ih =>
    rw [List.cons_append, splitAlias]
    split
    · rfl
    · exact ih

theorem isBlank_space : isBlank ' ' = true := by
  unfold isBlank isWhiteSpace
  decide

/-- Whether a name holds the word is seen when a blank is put after it. -/
theorem holdsWord_iff : HoldsWord name ↔ (splitAlias (name ++ [' '])).2.isSome = true := by
  constructor
  · rintro ⟨before, blanks, word, after, areBlanks, isWord, follows, rfl⟩
    obtain ⟨c, rest, more, blank⟩ : ∃ c rest, after ++ [' '] = c :: rest ∧ isBlank c = true := by
      cases after with
      | nil => exact ⟨' ', [], rfl, isBlank_space⟩
      | cons c after => exact ⟨c, after ++ [' '], rfl, follows c rfl⟩
    simp only [List.append_assoc, more]
    exact isSome_splitAlias areBlanks isWord blank before
  · intro found
    obtain ⟨other, isOther⟩ := Option.isSome_iff_exists.mp found
    obtain ⟨⟨blanks, word, spaces, areBlanks, isWord, areSpaces, whole⟩, -⟩ :=
      renames_of_splitAlias (Prod.ext rfl isOther)
    obtain ⟨c, more, rfl⟩ := List.exists_cons_of_ne_nil areSpaces.nonempty
    refine ⟨(splitAlias (name ++ [' '])).1, blanks, word, (c :: (more ++ other)).dropLast, areBlanks,
      isWord, fun d first => ?_, ?_⟩
    · cases inner : more ++ other with
      | nil => simp [inner] at first
      | cons e rest =>
        rw [inner, List.dropLast_cons_cons] at first
        obtain rfl := Option.some.inj first
        exact areSpaces.blank c List.mem_cons_self
    · have shorter := congrArg List.dropLast whole
      rwa [List.dropLast_concat, List.dropLast_append_of_ne_nil (by simp),
        List.dropLast_append_of_ne_nil (by simp), List.dropLast_append_of_ne_nil (by simp)] at shorter

instance (name : List Char) : Decidable (HoldsWord name) := decidable_of_iff' _ holdsWord_iff

/-! ## What a text names -/

/-- The text is the table's name, the word `as`, and another name, which is not empty. -/
def GivesName (tableName other text : String) : Prop :=
  other ≠ "" ∧ BeginsPlain other.toList ∧
    ∃ core, IsCore core text.toList ∧ Renames tableName.toList other.toList core

section Reading

variable {tableName : String} (text : String)

theorem resolve_eq_ok_iff {renamed : Option String} :
    resolve tableName text = .ok ⟨tableName, renamed⟩ ↔
      splitAlias (trimWith isBlank text.toList) =
        (tableName.toList, renamed.map String.toList) := by
  unfold resolve
  generalize splitAlias (trimWith isBlank text.toList) = parts
  obtain ⟨name, other⟩ := parts
  have sameName : String.ofList name = tableName ↔ name = tableName.toList := by
    rw [← String.toList_inj, String.toList_ofList]
  have sameOther : other.map String.ofList = renamed ↔ other = renamed.map String.toList := by
    cases other <;> cases renamed <;> simp [← String.toList_inj]
  dsimp only
  split <;> simp_all

theorem resolve_cases : (∃ renamed, resolve tableName text = .ok ⟨tableName, renamed⟩) ∨
    resolve tableName text = .error (.foreignSource text tableName) := by
  unfold resolve
  dsimp only
  split
  · exact .inl ⟨_, rfl⟩
  · exact .inr rfl

variable (ends : EndsPlain tableName.toList) (clear : ¬ HoldsWord tableName.toList)
include ends clear

theorem resolve_eq_table_iff :
    resolve tableName text = .ok ⟨tableName, none⟩ ↔ IsCore tableName.toList text.toList := by
  rw [resolve_eq_ok_iff, isCore_iff]
  constructor
  · exact eq_of_splitAlias
  · intro same
    have whole : splitAlias (tableName.toList ++ []) = _ :=
      splitAlias_append ends clear fun _ none => by cases none
    rw [← same, ← List.append_nil tableName.toList, whole]
    simp [splitAlias]

theorem resolve_eq_renamed_iff {other : String} :
    resolve tableName text = .ok ⟨tableName, some other⟩ ↔ GivesName tableName other text := by
  rw [resolve_eq_ok_iff, Option.map_some]
  constructor
  · intro split
    obtain ⟨renames, plain⟩ := renames_of_splitAlias split
    refine ⟨?_, plain, _, isCore_trimWith _, renames⟩
    rintro rfl
    exact Renames.ne_nil renames (isCore_trimWith _).ends rfl
  · rintro ⟨-, plain, core, isCore, blanks, word, spaces, areBlanks, isWord, areSpaces, whole⟩
    obtain ⟨b, more, rfl⟩ := List.exists_cons_of_ne_nil areBlanks.nonempty
    rw [← isCore_iff.mp isCore, whole, splitAlias_append ends clear fun d first => ?_,
      splitAlias_renamed areBlanks isWord areSpaces plain]
    · simp
    · obtain rfl := Option.some.inj first
      exact areBlanks.blank b List.mem_cons_self

end Reading

/-- A text names a table whose name does not hold the word `as` and does not end with a blank: under
the table's own name iff it is that name with blanks around it, under another name iff that follows
behind the word; all other texts are refused. -/
theorem resolve_reads {tableName : String} (ends : EndsPlain tableName.toList)
    (clear : ¬ HoldsWord tableName.toList) (text : String) :
    (SourceChoice.resolve tableName (.named text) = .ok ⟨tableName, none⟩ ↔
        IsCore tableName.toList text.toList) ∧
      (∀ other, SourceChoice.resolve tableName (.named text) = .ok ⟨tableName, some other⟩ ↔
        GivesName tableName other text) ∧
      (SourceChoice.resolve tableName (.named text) = .error (.foreignSource text tableName) ↔
        ¬ IsCore tableName.toList text.toList ∧ ∀ other, ¬ GivesName tableName other text) := by
  have same : SourceChoice.resolve tableName (.named text) = resolve tableName text := rfl
  have table := resolve_eq_table_iff text ends clear
  have renamed (other : String) := @resolve_eq_renamed_iff tableName text ends clear other
  simp only [same]
  refine ⟨table, renamed, ?_⟩
  rw [← table, ← forall_congr' fun other => not_congr (renamed other)]
  rcases @resolve_cases tableName text with ⟨given, read⟩ | refused
  · cases given <;> simp [read]
  · simp [refused]

/-- A name with the letters of the word inside, and an alias that has the word itself. -/
theorem resolve_reads_storedAsIs :
    EndsPlain "stored as-is".toList ∧ ¬ HoldsWord "stored as-is".toList ∧
      SourceChoice.resolve "stored as-is" (.named "\t stored as-is  AS\u00a0old as new ") =
        .ok ⟨"stored as-is", some "old as new"⟩ ∧
      SourceChoice.resolve "stored as-is" (.named " stored as-is\u2003") =
        .ok ⟨"stored as-is", none⟩ ∧
      SourceChoice.resolve "stored as-is" (.named "stored as-is as ") =
        .error (.foreignSource "stored as-is as " "stored as-is") := by
  have ends : EndsPlain "stored as-is".toList := by
    intro c last
    obtain rfl : 's' = c := Option.some.inj last
    decide +kernel
  have clear : ¬ HoldsWord "stored as-is".toList := by decide +kernel
  refine ⟨ends, clear, ((resolve_reads ends clear _).2.1 _).mpr ⟨by decide, ?_, _,
    isCore_iff.mpr rfl, [' ', ' '], ['A', 'S'], ['\u00a0'],
    ⟨by decide, List.all_eq_true.mp (by decide +kernel)⟩, ⟨'A', by decide, 'S', by decide, rfl⟩,
    ⟨by decide, List.all_eq_true.mp (by decide +kernel)⟩, by decide +kernel⟩,
    (resolve_reads ends clear _).1.mpr (isCore_iff.mpr (by decide +kernel)),
    (resolve_reads ends clear _).2.2.mpr ⟨fun isCore => ?_, ?_⟩⟩
  · intro c first
    obtain rfl : 'o' = c := Option.some.inj first
    decide +kernel
  · exact absurd (isCore_iff.mp isCore) (by decide +kernel)
  · -- The trimmed text is too short for a blank behind the word.
    rintro other ⟨-, -, core, isCore, blanks, _, spaces, areBlanks, ⟨a, -, s, -, rfl⟩, areSpaces, whole⟩
    have short : (trimWith isBlank "stored as-is as ".toList).length = 15 := by decide +kernel
    have front : "stored as-is".toList.length = 12 := by decide +kernel
    have some := List.length_pos_iff.mpr areBlanks.nonempty
    have more := List.length_pos_iff.mpr areSpaces.nonempty
    rw [← isCore_iff.mp isCore, whole] at short
    simp only [List.length_append, List.length_cons, List.length_nil] at short
    omega

end AdjacencyForest.Source
