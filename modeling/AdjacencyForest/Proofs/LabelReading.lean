import AdjacencyForest.Proofs.PayloadCells

/-!
# Labels in columns

A label is written into a cell as a text, a formula or an error code, and what is found there is read
with the whole column. A column that is neither all numbers nor all truth words gives a label back iff
its cell does and it is no word for a missing value. In a column of integers a label comes back iff it
is in plain decimal form, and in one of truth words no label does.

Main statements: `labelContent_eq_text_iff`, the labels that a cell gives back; `keepsLabels`, those
that a column gives back.
-/

namespace AdjacencyForest.Service

open TreeModel

/-- The text can be stored in one cell. -/
structure FitsCell (text : String) : Prop where
  short : text.length ≤ Cell.textLimit
  writable : ∀ c ∈ text.toList, Cell.isWritable c = true

/-- The text is taken for a formula. -/
def IsFormula (text : String) : Prop := 1 < text.length ∧ text.toList.head? = some '='

instance (text : String) : Decidable (IsFormula text) :=
  inferInstanceAs (Decidable (1 < text.length ∧ text.toList.head? = some '='))

/-- The text is not empty, neither a formula nor an error code, and no line of it ends in a carriage
return. -/
structure IsPlain (text : String) : Prop where
  nonempty : text ≠ ""
  formula : ¬ IsFormula text
  code : text ∉ Cell.errorCodes
  lines : '\r' ∉ text.toList

/-- What is found in the cell that a label is written into. -/
def labelContent (label : Value) : Content :=
  match Cell.ofJson label.toJson with
  | .ok cell => cell.read
  | .error _ => .blank

/-- What is read where a label stands in a column of labels. -/
def labelData (labels : List Value) (label : Value) : Json :=
  cellReader (labels.map labelContent) (labelContent label)

/-- The label that is stored once a column of labels is read. -/
def labelReadBack (labels : List Value) (label : Value) : Value :=
  standard.columnValue .label (labelData labels label)

variable {text : String} {labels : List Value} {label : Value} {content : Content}

/-! ## Cells -/

theorem ofList_lineEnds_eq_iff :
    String.ofList (Cell.lineEnds text.toList) = text ↔ '\r' ∉ text.toList := by
  rw [← lineEnds_eq_self_iff]
  constructor
  · intro same
    exact String.toList_ofList.symm.trans (congrArg String.toList same)
  · intro same
    rw [same, String.ofList_toList]

/-- What is found for a label: nothing for a formula, an error for an error code, and else the text
with its line ends as the workbook has them. -/
theorem labelContent_text (fits : FitsCell text) :
    (IsFormula text ∧ labelContent (.text text) = .blank) ∨
      (¬ IsFormula text ∧ String.ofList (Cell.lineEnds text.toList) ∈ Cell.errorCodes ∧
        labelContent (.text text) = .invalid) ∨
      (¬ IsFormula text ∧ String.ofList (Cell.lineEnds text.toList) ∉ Cell.errorCodes ∧
        labelContent (.text text) =
          (Cell.text (String.ofList (Cell.lineEnds text.toList))).read) := by
  have whole : text.toList.take Cell.textLimit = text.toList := List.take_of_length_le fits.short
  have all : text.toList.all Cell.isWritable = true := List.all_eq_true.mpr fits.writable
  have written : Cell.ofJson (Value.text text).toJson =
      if IsFormula text then .ok (.formula (String.ofList (Cell.lineEnds text.toList)))
      else if String.ofList (Cell.lineEnds text.toList) ∈ Cell.errorCodes then
        .ok (.errorCode (String.ofList (Cell.lineEnds text.toList)))
      else .ok (.text (String.ofList (Cell.lineEnds text.toList))) := by
    unfold Value.toJson Cell.ofJson Cell.ofText IsFormula
    dsimp only
    rw [whole, all, Bool.not_true, if_neg Bool.false_ne_true]
    simp only [List.contains_iff_mem]
    rfl
  unfold labelContent
  rw [written]
  by_cases formula : IsFormula text
  · rw [if_pos formula]
    exact .inl ⟨formula, rfl⟩
  · rw [if_neg formula]
    by_cases code : String.ofList (Cell.lineEnds text.toList) ∈ Cell.errorCodes
    · rw [if_pos code]
      exact .inr (.inl ⟨formula, code, rfl⟩)
    · rw [if_neg code]
      exact .inr (.inr ⟨formula, code, rfl⟩)

theorem labelContent_cases (fits : FitsCell text) : labelContent (.text text) = .blank ∨
    labelContent (.text text) = .invalid ∨ ∃ found, labelContent (.text text) = .text found := by
  rcases labelContent_text fits with ⟨-, same⟩ | ⟨-, -, same⟩ | ⟨-, -, same⟩
  · exact .inl same
  · exact .inr (.inl same)
  · rw [same, Cell.read]
    split
    · exact .inl rfl
    · exact .inr (.inr ⟨_, rfl⟩)

theorem labelContent_eq_text_iff (fits : FitsCell text) :
    labelContent (.text text) = .text text ↔ IsPlain text := by
  rcases labelContent_text fits with ⟨formula, same⟩ | ⟨-, code, same⟩ | ⟨formula, code, same⟩
  · rw [same]
    exact iff_of_false (fun blank => Content.noConfusion blank) fun plain => plain.formula formula
  · rw [same]
    refine iff_of_false (fun invalid => Content.noConfusion invalid) fun plain => plain.code ?_
    rwa [ofList_lineEnds_eq_iff.mpr plain.lines] at code
  · rw [same, Cell.read]
    constructor
    · intro found
      split at found
      · cases found
      next some =>
        have kept := Content.text.inj found
        rw [kept] at code some
        exact ⟨fun none => some (String.isEmpty_iff.mpr none), formula, code,
          ofList_lineEnds_eq_iff.mp kept⟩
    · intro plain
      rw [ofList_lineEnds_eq_iff.mpr plain.lines,
        if_neg fun none => plain.nonempty (String.isEmpty_iff.mp none)]

/-! ## Columns -/

theorem toJson_eq_str_iff :
    content.toJson = .str text ↔ content = .text text ∧ text ∉ missingTexts := by
  unfold Content.toJson
  split
  next missing =>
    refine iff_of_false (fun null => Json.noConfusion null) ?_
    rintro ⟨rfl, present⟩
    simp [Content.isMissing, Content.text?, present] at missing
  next present =>
    cases content with
    | text found =>
      have absent : found ∉ missingTexts := by simpa [Content.isMissing, Content.text?] using present
      simp only [Json.str.injEq, Content.text.injEq]
      exact ⟨fun same => ⟨same, same ▸ absent⟩, And.left⟩
    | blank | invalid | int | num | truth => simp

/-- A column of labels that has a label which is no number, and one which is no truth value. -/
structure IsMixed (labels : List Value) : Prop where
  word : ∃ label ∈ labels, Numeral.ofContent? (labelContent label) = none
  untrue : ∃ label ∈ labels, truthOfContent? (labelContent label) = none

theorem labelData_of_mixed (mixed : IsMixed labels) (label : Value) :
    labelData labels label = (labelContent label).toJson := by
  obtain ⟨first, found, word⟩ := mixed.word
  obtain ⟨second, foundSecond, untrue⟩ := mixed.untrue
  rw [labelData, cellReader_of_mixed ⟨_, List.mem_map_of_mem found, word⟩
    ⟨_, List.mem_map_of_mem foundSecond, untrue⟩]

theorem labelReadBack_of_mixed (fits : FitsCell text) (mixed : IsMixed labels) :
    labelReadBack labels (.text text) = .text text ↔ IsPlain text ∧ text ∉ missingTexts := by
  rw [labelReadBack, labelData_of_mixed mixed, ← labelContent_eq_text_iff fits, ← toJson_eq_str_iff]
  refine ⟨fun stored => ?_, fun same => same ▸ columnValue_label text⟩
  rcases labelContent_cases fits with same | same | ⟨found, same⟩
  · rw [same] at stored
    cases stored
  · rw [same] at stored
    cases stored
  · rw [same, Content.toJson] at stored ⊢
    split at stored
    · cases stored
    next present =>
      rw [if_neg present]
      exact congrArg Json.str (Value.text.inj ((columnValue_label found).symm.trans stored))

/-- Each label stands for an integer of 64 bits. -/
def AreIntegers (labels : List Value) : Prop :=
  ∀ label ∈ labels, ∃ i, Numeral.ofContent? (labelContent label) = some (.int i) ∧ fitsInt64 i = true

theorem AreIntegers.reader? (integers : AreIntegers labels) (member : label ∈ labels) :
    Numeral.reader? ((labels.map labelContent).map fun cell =>
      (Numeral.ofContent? cell).getD .missing) = some Numeral.toInteger := by
  have each (label : Value) (listed : label ∈ labels) :
      ∃ i, (Numeral.ofContent? (labelContent label)).getD .missing = .int i ∧ fitsInt64 i = true := by
    obtain ⟨i, same, fits⟩ := integers label listed
    exact ⟨i, by rw [same]; rfl, fits⟩
  rw [List.map_map]
  refine Numeral.reader?_of_integer (List.forall_mem_map.mpr fun other listed => ?_)
    (List.forall_mem_map.mpr fun other listed => ?_) (List.mem_map_of_mem member) ?_
  · obtain ⟨i, same, fits⟩ := each other listed
    rw [Function.comp_apply, same]
    exact Numeral.isWide_int fits
  · obtain ⟨i, same, fits⟩ := each other listed
    rw [Function.comp_apply, same]
    exact Numeral.isFractional_int fits
  · obtain ⟨i, same, -⟩ := each label member
    rw [Function.comp_apply, same]
    rfl

theorem labelReadBack_of_integers (integers : AreIntegers labels) (member : label ∈ labels) {i : Int}
    (integer : Numeral.ofContent? (labelContent label) = some (.int i)) :
    labelReadBack labels label = .text (writeInteger i) := by
  have numerals : ∀ cell ∈ labels.map labelContent, Numeral.ofContent? cell ≠ none := by
    refine List.forall_mem_map.mpr fun other listed => ?_
    obtain ⟨j, same, -⟩ := integers other listed
    rw [same]
    exact Option.some_ne_none _
  obtain ⟨j, same, fits⟩ := integers label member
  obtain rfl := Numeral.int.inj (Option.some.inj (integer.symm.trans same))
  have data : labelData labels label = .int i := by
    rw [labelData, cellReader_of_numerals numerals, integers.reader? member, Option.map_some,
      Option.getD_some, Function.comp_apply, integer]
    rfl
  rw [labelReadBack, data]
  simp [columnValue, Reading.operand, Value.ofParameter, Value.ofJson, fits, TreeModel.affinity,
    Value.stored, Value.text?]

/-- Each label stands for a truth value, and not all of them for a number. -/
structure AreTruths (labels : List Value) : Prop where
  truth : ∀ label ∈ labels, truthOfContent? (labelContent label) ≠ none
  word : ∃ label ∈ labels, Numeral.ofContent? (labelContent label) = none

theorem truthOfContent?_eq_some {value : Json} (truth : truthOfContent? content = some value) :
    value = .null ∨ ∃ b, value = .bool b := by
  unfold truthOfContent? at truth
  split at truth
  · exact .inl (Option.some.inj truth).symm
  · split at truth <;> cases truth <;> exact .inr ⟨_, rfl⟩

theorem columnValue_label_bool (b : Bool) :
    standard.columnValue .label (.bool b) = .text (if b then "1" else "0") := by
  cases b <;> decide +kernel

theorem labelReadBack_of_truths (truths : AreTruths labels) (member : .text text ∈ labels) :
    labelReadBack labels (.text text) ≠ .text text := by
  obtain ⟨word, listed, number⟩ := truths.word
  have mixed : ¬ ((labels.map labelContent).all fun cell => (Numeral.ofContent? cell).isSome) = true := by
    intro all
    have some := List.all_eq_true.mp all _ (List.mem_map_of_mem listed)
    rw [number] at some
    cases some
  have all : ((labels.map labelContent).all fun cell => (truthOfContent? cell).isSome) = true := by
    refine List.all_eq_true.mpr fun cell found => ?_
    obtain ⟨other, inside, rfl⟩ := List.mem_map.mp found
    exact Option.isSome_iff_ne_none.mpr (truths.truth other inside)
  have own := truths.truth _ member
  obtain ⟨value, truth⟩ := Option.ne_none_iff_exists'.mp own
  have data : labelData labels (.text text) = value := by
    rw [labelData, cellReader, if_neg mixed, if_pos all, truth, Option.getD_some]
  rw [labelReadBack, data]
  intro kept
  rcases truthOfContent?_eq_some truth with rfl | ⟨b, rfl⟩
  · cases kept
  · -- A truth value is stored as a digit, and no digit is a truth word.
    obtain rfl := Value.text.inj ((columnValue_label_bool b).symm.trans kept)
    refine own ?_
    cases b <;> decide +kernel

/-- Which labels a column gives back, by the kind of the column. -/
structure KeepsLabels (labels : List Value) : Prop where
  mixed : IsMixed labels → ∀ text, .text text ∈ labels →
    (labelReadBack labels (.text text) = .text text ↔ IsPlain text ∧ text ∉ missingTexts)
  integers : AreIntegers labels → ∀ text, .text text ∈ labels → ∃ i,
    Numeral.ofContent? (labelContent (.text text)) = some (.int i) ∧
      (labelReadBack labels (.text text) = .text text ↔ text = writeInteger i)
  truths : AreTruths labels → ∀ text, .text text ∈ labels →
    labelReadBack labels (.text text) ≠ .text text

theorem keepsLabels (fits : ∀ text, .text text ∈ labels → FitsCell text) : KeepsLabels labels where
  mixed mixed text member := labelReadBack_of_mixed (fits text member) mixed
  integers integers text member := by
    obtain ⟨i, integer, -⟩ := integers _ member
    refine ⟨i, integer, ?_⟩
    rw [labelReadBack_of_integers integers member integer, Value.text.injEq]
    exact eq_comm
  truths truths _ member := labelReadBack_of_truths truths member

end AdjacencyForest.Service
