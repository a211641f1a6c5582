import AdjacencyForest.Proofs.Cells
import AdjacencyForest.Proofs.SheetReading

/-!
# Kinds of columns

What is read of a column of keys, of objects or of labels with empty cells among them. Keys are
integers or numbers that stand for them, objects are the texts that they are written as. Labels may be
taken for missing values, truth values or infinite numbers, all of which the store takes, but for no
other number, since they begin with a letter.

Main statements: `AreKeys.isInteger`, `ArePayloads.object` and `AreLabels.exists_parameter`, what the
reader makes of a cell in such a column; `AreKeys.blank` and `ArePayloads.blank`, an empty cell is null.
-/

namespace AdjacencyForest

open Text

/-- The text begins with a letter, or with another character above the digits and the signs. -/
def StartsHigh (text : String) : Prop := ∃ c rest, text.toList = c :: rest ∧ 0x41 ≤ c.toNat

theorem ne_of_high {c other : Char} (high : 0x41 ≤ c.toNat) (low : other.toNat < 0x41) : c ≠ other := by
  rintro rfl
  omega

theorem trimWith_cons {inClass : Char → Bool} {c : Char} (rest : List Char) (kept : inClass c = false) :
    ∃ others, trimWith inClass (c :: rest) = c :: others := by
  refine ⟨dropRightWhile inClass rest, ?_⟩
  rw [trimWith, List.dropWhile_cons_of_neg (by simp [kept])]
  unfold dropRightWhile
  rw [List.reverse_cons, List.dropWhile_append]
  split
  next none => simp [List.isEmpty_iff.mp none, kept]
  next => simp

theorem StartsHigh.numberOfText? {text : String} (starts : StartsHigh text) :
    Value.numberOfText? text = none := by
  obtain ⟨c, rest, same, high⟩ := starts
  have blank : Value.isNumberBlank c = false := by
    have space : c ≠ ' ' := ne_of_high high (by decide)
    simp only [Value.isNumberBlank, Bool.or_eq_false_iff, Bool.and_eq_false_iff,
      decide_eq_false_iff_not, beq_eq_false_iff_ne]
    exact ⟨.inr (by omega), space⟩
  obtain ⟨others, trimmed⟩ := trimWith_cons rest blank
  have minus : c ≠ '-' := ne_of_high high (by decide)
  have plus : c ≠ '+' := ne_of_high high (by decide)
  have point : c ≠ '.' := ne_of_high high (by decide)
  have split : splitSign (c :: others) = (false, c :: others) := by simp [splitSign, minus, plus]
  have digits : Json.leadingDigits (c :: others) = [] := by
    refine List.takeWhile_cons_of_neg ?_
    simp only [isAsciiDigit_iff]
    omega
  have none : Json.leadingDigits [] = [] := rfl
  unfold Value.numberOfText?
  rw [same, trimmed, split]
  simp [digits, point, none]

namespace Service

open Binary64

variable {cells : List Content} {cell : Content} {text : String} {i : Int}

/-! ## Keys -/

/-- The cells are empty or hold keys. -/
def AreKeys (cells : List Content) : Prop :=
  ∀ cell ∈ cells, cell = .blank ∨ ∃ i, cell = .int i ∧ IsSmall i

theorem numeral_blank : Numeral.ofContent? .blank = some .missing := by decide

theorem numeral_int (i : Int) : Numeral.ofContent? (.int i) = some (.int i) := rfl

theorem cellReader_of_numerals (numerals : ∀ cell ∈ cells, Numeral.ofContent? cell ≠ none) :
    cellReader cells =
      ((Numeral.reader? (cells.map fun cell => (Numeral.ofContent? cell).getD .missing)).map
        (· ∘ fun cell => (Numeral.ofContent? cell).getD .missing)).getD Content.toRawJson :=
  if_pos (List.all_eq_true.mpr fun cell member => Option.isSome_iff_ne_none.mpr (numerals cell member))

theorem AreKeys.numerals (keys : AreKeys cells) : ∀ cell ∈ cells, Numeral.ofContent? cell ≠ none := by
  intro cell member
  rcases keys cell member with rfl | ⟨i, rfl, -⟩
  · rw [numeral_blank]
    exact Option.some_ne_none _
  · rw [numeral_int]
    exact Option.some_ne_none _

theorem AreKeys.narrow (keys : AreKeys cells) :
    ∀ numeral ∈ cells.map fun cell => (Numeral.ofContent? cell).getD .missing,
      numeral.isWide = false := by
  rw [List.forall_mem_map]
  intro cell member
  rcases keys cell member with rfl | ⟨i, rfl, small⟩
  · rw [numeral_blank]
    rfl
  · exact Numeral.isWide_int small.fits

/-- A column of keys is read as numbers if a cell of it is empty, and else as integers. -/
theorem AreKeys.reader? (keys : AreKeys cells) (member : cell ∈ cells) :
    let numerals := cells.map fun cell => (Numeral.ofContent? cell).getD .missing
    Numeral.reader? numerals = some Numeral.toNumber ∨
      (Numeral.reader? numerals = some Numeral.toInteger ∧ .blank ∉ cells) := by
  by_cases empty : .blank ∈ cells
  · refine .inl (Numeral.reader?_of_fractional keys.narrow (List.mem_map_of_mem empty) ?_)
    rw [numeral_blank]
    rfl
  · have integers : ∀ cell ∈ cells, ∃ i, cell = .int i ∧ IsSmall i := fun cell found =>
      (keys cell found).resolve_left fun blank => empty (blank ▸ found)
    have whole : ∀ numeral ∈ cells.map fun cell => (Numeral.ofContent? cell).getD .missing,
        numeral.isFractional = false := by
      rw [List.forall_mem_map]
      intro cell found
      obtain ⟨i, rfl, small⟩ := integers cell found
      exact Numeral.isFractional_int small.fits
    refine .inr ⟨Numeral.reader?_of_integer keys.narrow whole (List.mem_map_of_mem member) ?_, empty⟩
    obtain ⟨i, rfl, -⟩ := integers cell member
    rfl

theorem AreKeys.isInteger (keys : AreKeys cells) (member : .int i ∈ cells) :
    (cellReader cells (.int i)).IsInteger i := by
  rw [cellReader_of_numerals keys.numerals]
  rcases keys.reader? member with same | ⟨same, -⟩
  · rcases keys _ member with blank | ⟨j, key, small⟩
    · cases blank
    · obtain rfl := Content.int.inj key
      rw [same]
      exact .inr ⟨ofInt i, rfl, toInt?_ofInt small⟩
  · rw [same]
    exact .inl rfl

theorem AreKeys.blank (keys : AreKeys cells) (member : .blank ∈ cells) :
    cellReader cells .blank = .null := by
  rw [cellReader_of_numerals keys.numerals]
  rcases keys.reader? member with same | ⟨-, full⟩
  · rw [same, Option.map_some, Option.getD_some, Function.comp_apply, numeral_blank]
    rfl
  · exact absurd member full

/-! ## Texts -/

theorem infiniteOfText?_eq (starts : StartsHigh text) : Numeral.infiniteOfText? text =
    if Numeral.infinityWords.contains text.toLower then some (.infinite false) else none := by
  obtain ⟨c, rest, same, high⟩ := starts
  have minus : c ≠ '-' := ne_of_high high (by decide)
  have plus : c ≠ '+' := ne_of_high high (by decide)
  have split : splitSign text.toList = (false, text.toList) := by
    rw [same]
    simp [splitSign, minus, plus]
  unfold Numeral.infiniteOfText?
  rw [split]
  dsimp only
  rw [String.ofList_toList]

theorem numeral_text (starts : StartsHigh text) : Numeral.ofContent? (.text text) =
    if (Content.text text).isMissing then some .missing
    else if Numeral.infinityWords.contains text.toLower then some (.num (.infinite false)) else none := by
  have number : Numeral.ofText? text = (Numeral.infiniteOfText? text).map Numeral.num := by
    unfold Numeral.ofText?
    rw [starts.numberOfText?]
  unfold Numeral.ofContent?
  split
  · rfl
  · dsimp only
    rw [number, infiniteOfText?_eq starts]
    split <;> rfl

/-- The text begins as objects do in the exchange form. -/
def StartsObject (text : String) : Prop := ∃ rest, text.toList = '\x7b' :: rest

theorem StartsObject.startsHigh (starts : StartsObject text) : StartsHigh text := by
  obtain ⟨rest, same⟩ := starts
  exact ⟨_, rest, same, by decide⟩

theorem StartsObject.not_mem {words : List String} (starts : StartsObject text)
    (firsts : ∀ word ∈ words, word.toList.head? ≠ some '\x7b') : text ∉ words := by
  obtain ⟨rest, same⟩ := starts
  intro member
  exact firsts text member (by rw [same]; rfl)

theorem StartsObject.isMissing (starts : StartsObject text) :
    (Content.text text).isMissing = false := by
  have absent : text ∉ missingTexts := starts.not_mem (by decide +kernel)
  simp [Content.isMissing, Content.text?, absent]

theorem StartsObject.numeral (starts : StartsObject text) :
    Numeral.ofContent? (.text text) = none := by
  have lower : StartsObject text.toLower := by
    obtain ⟨rest, same⟩ := starts
    exact ⟨rest.map Char.toLower, by rw [String.toLower, String.toList_map, same]; rfl⟩
  have absent : text.toLower ∉ Numeral.infinityWords := lower.not_mem (by decide +kernel)
  rw [numeral_text starts.startsHigh, starts.isMissing]
  simp [absent]

theorem StartsObject.truth (starts : StartsObject text) : truthOfContent? (.text text) = none := by
  have absent : text ∉ ["true", "True", "TRUE", "false", "False", "FALSE"] :=
    starts.not_mem (by decide +kernel)
  simp only [List.mem_cons, List.not_mem_nil, or_false, not_or] at absent
  unfold truthOfContent?
  rw [starts.isMissing]
  simp [absent]

/-- The cells are empty or hold objects. -/
def ArePayloads (cells : List Content) : Prop :=
  ∀ cell ∈ cells, cell = .blank ∨ ∃ text, cell = .text text ∧ StartsObject text

/-- A column that is neither all numbers nor all truth values is read cell by cell. -/
theorem cellReader_of_mixed (word : ∃ cell ∈ cells, Numeral.ofContent? cell = none)
    (untrue : ∃ cell ∈ cells, truthOfContent? cell = none) : cellReader cells = Content.toJson := by
  unfold cellReader
  rw [if_neg, if_neg]
  · intro truths
    obtain ⟨cell, member, none⟩ := untrue
    have truth := List.all_eq_true.mp truths _ member
    rw [none] at truth
    cases truth
  · intro numerals
    obtain ⟨cell, member, none⟩ := word
    have numeral := List.all_eq_true.mp numerals _ member
    rw [none] at numeral
    cases numeral

theorem cellReader_of_object (member : .text text ∈ cells) (starts : StartsObject text) :
    cellReader cells = Content.toJson :=
  cellReader_of_mixed ⟨_, member, starts.numeral⟩ ⟨_, member, starts.truth⟩

theorem ArePayloads.object (payloads : ArePayloads cells) (member : .text text ∈ cells) :
    cellReader cells (.text text) = .str text := by
  rcases payloads _ member with blank | ⟨_, same, starts⟩
  · cases blank
  · obtain rfl := Content.text.inj same
    rw [cellReader_of_object member starts, Content.toJson, starts.isMissing]
    rfl

theorem ArePayloads.blank (payloads : ArePayloads cells) (member : .blank ∈ cells) :
    cellReader cells .blank = .null := by
  by_cases objects : ∃ text, .text text ∈ cells ∧ StartsObject text
  · obtain ⟨text, found, starts⟩ := objects
    rw [cellReader_of_object found starts]
    rfl
  · -- A column without any object is as empty as one without any key.
    have keys : AreKeys cells := fun cell found => by
      refine .inl ((payloads cell found).resolve_right ?_)
      rintro ⟨text, rfl, starts⟩
      exact objects ⟨text, found, starts⟩
    exact keys.blank member

/-! ## Labels -/

/-- The cells are empty or hold texts that begin with a letter. -/
def AreLabels (cells : List Content) : Prop :=
  ∀ cell ∈ cells, cell = .blank ∨ ∃ text, cell = .text text ∧ StartsHigh text

/-- A label is taken for a number only as a missing or an infinite one. -/
theorem AreLabels.numeral (labels : AreLabels cells) (member : cell ∈ cells) {numeral : Numeral}
    (found : Numeral.ofContent? cell = some numeral) :
    numeral = .missing ∨ numeral = .num (.infinite false) := by
  rcases labels cell member with rfl | ⟨text, rfl, starts⟩
  · rw [numeral_blank] at found
    exact .inl (Option.some.inj found).symm
  · rw [numeral_text starts] at found
    split at found
    · exact .inl (Option.some.inj found).symm
    · split at found
      · exact .inr (Option.some.inj found).symm
      · cases found

theorem AreLabels.reader? (labels : AreLabels cells) (member : cell ∈ cells)
    (numerals : ∀ cell ∈ cells, Numeral.ofContent? cell ≠ none) :
    Numeral.reader? (cells.map fun cell => (Numeral.ofContent? cell).getD .missing) =
      some Numeral.toNumber := by
  have each (cell : Content) (found : cell ∈ cells) :
      (Numeral.ofContent? cell).getD .missing = .missing ∨
        (Numeral.ofContent? cell).getD .missing = .num (.infinite false) := by
    obtain ⟨numeral, same⟩ := Option.ne_none_iff_exists'.mp (numerals cell found)
    rw [same]
    exact labels.numeral found same
  refine Numeral.reader?_of_fractional (List.forall_mem_map.mpr fun cell found => ?_)
    (List.mem_map_of_mem member) ?_
  · rcases each cell found with same | same <;> rw [same] <;> rfl
  · rcases each cell member with same | same <;> rw [same] <;> rfl

/-- Whatever a label is read as, the store takes it. -/
theorem AreLabels.exists_parameter (labels : AreLabels cells) (member : cell ∈ cells) :
    ∃ value, Value.ofParameter (.column .label) (cellReader cells cell) = .ok value := by
  by_cases numerals : ∀ cell ∈ cells, Numeral.ofContent? cell ≠ none
  · obtain ⟨numeral, same⟩ := Option.ne_none_iff_exists'.mp (numerals cell member)
    rw [cellReader_of_numerals numerals, labels.reader? member numerals, Option.map_some,
      Option.getD_some, Function.comp_apply, same]
    rcases labels.numeral member same with rfl | rfl
    · exact ⟨.null, rfl⟩
    · exact ⟨.real (.infinite false), rfl⟩
  · have mixed : ¬ (cells.all fun cell => (Numeral.ofContent? cell).isSome) = true := fun all =>
      numerals fun cell found => Option.isSome_iff_ne_none.mp (List.all_eq_true.mp all cell found)
    unfold cellReader
    rw [if_neg mixed]
    split
    next truths =>
      obtain ⟨truth, same⟩ := Option.isSome_iff_exists.mp (List.all_eq_true.mp truths cell member)
      dsimp only
      rw [same, Option.getD_some]
      unfold truthOfContent? at same
      split at same
      · obtain rfl := Option.some.inj same
        exact ⟨.null, rfl⟩
      · split at same <;> cases same <;> exact ⟨_, rfl⟩
    next =>
      rcases labels cell member with rfl | ⟨text, rfl, -⟩
      · exact ⟨.null, rfl⟩
      · unfold Content.toJson
        split
        · exact ⟨.null, rfl⟩
        · exact ⟨.text text, rfl⟩

end Service
end AdjacencyForest
