import AdjacencyForest.Proofs.Paging
import AdjacencyForest.Proofs.RootPaths

/-!
# What a search finds

A search puts its term between two `%` of a pattern as it was typed. So `%` and `_` in the term stand
for other texts than themselves, and a NUL ends the pattern; and a text is only looked at up to its
first NUL. A term without these characters that is not too long finds just the nodes whose label or
key holds it.

Main statements: `textMatches_iff`, the texts that a term finds; `isVerbatim_iff`, the terms that find
just the texts that hold them; `search_finds_iff`, the nodes that are answered, and when they are those
that hold what was typed.
-/

namespace AdjacencyForest.Service

open Like

variable {settings : Settings} {table : Table} {row : Row} {term text : String}
  {pattern others : List Char} {i : Int}

/-! ## Texts -/

theorem untilNul_eq_self (whole : Char.ofNat 0 ∉ pattern) : untilNul pattern = pattern :=
  List.takeWhile_eq_self_iff.mpr fun _ member => bne_iff_ne.mpr (ne_of_mem_of_not_mem member whole)

theorem untilNul_append (cut : Char.ofNat 0 ∈ pattern) :
    untilNul (pattern ++ others) = untilNul pattern := by
  induction pattern with
  | nil => cases cut
  | cons c pattern ih =>
    by_cases nul : c = Char.ofNat 0
    · simp [untilNul, nul]
    · have later := ih ((List.mem_cons.mp cut).resolve_left (Ne.symm nul))
      simp_all [untilNul]

theorem nul_notMem_untilNul (pattern : List Char) : Char.ofNat 0 ∉ untilNul pattern := by
  intro member
  unfold untilNul at member
  have kept := List.mem_takeWhile_imp member
  exact bne_iff_ne.mp kept rfl

/-- Some stretch of the text, up to its first NUL, is as the term says; it is the last one if the term
has a NUL. -/
def Finds (term text : String) : Prop :=
  ∃ before inner after, before ++ (inner ++ after) = untilNul text.toList ∧
    Fits (untilNul term.toList) inner ∧ (Char.ofNat 0 ∈ term.toList → after = [])

theorem textMatches_iff : textMatches term text = true ↔ Finds term text := by
  have first : untilNul ('%' :: (term.toList ++ ['%'])) = '%' :: untilNul (term.toList ++ ['%']) :=
    List.takeWhile_cons_of_pos rfl
  unfold textMatches Finds
  rw [isMatch_iff_fits, first]
  by_cases cut : Char.ofNat 0 ∈ term.toList
  · simp only [untilNul_append cut, fits_percent_iff, cut, forall_const]
    constructor
    · rintro ⟨before, inner, split, fits⟩
      exact ⟨before, inner, [], by rw [List.append_nil, split], fits, rfl⟩
    · rintro ⟨before, inner, _, split, fits, rfl⟩
      exact ⟨before, inner, by rw [← split, List.append_nil], fits⟩
  · have whole : Char.ofNat 0 ∉ term.toList ++ ['%'] := by
      rw [List.mem_append, not_or]
      exact ⟨cut, by decide⟩
    rw [untilNul_eq_self whole, untilNul_eq_self cut, fits_around_iff]
    simp only [cut, false_implies, and_true]

/-- All characters of the term stand for themselves, also those that end a pattern elsewhere. -/
def IsVerbatim (term : String) : Prop := IsLiteral term.toList ∧ Char.ofNat 0 ∉ term.toList

theorem finds_iff_of_isVerbatim (plain : IsVerbatim term) :
    Finds term text ↔ Holds term.toList (untilNul text.toList) := by
  unfold Finds
  rw [untilNul_eq_self plain.2, holds_iff_exists_fits plain.1]
  simp only [plain.2, false_implies, and_true]

/-- The text that the specimen of a term is. -/
def specimenText (term : String) : String := String.ofList (specimen (untilNul term.toList))

theorem nul_notMem_specimenText (term : String) : Char.ofNat 0 ∉ (specimenText term).toList := by
  rw [specimenText, String.toList_ofList]
  intro member
  rcases eq_or_mem_of_mem_specimen member with letter | inside
  · cases letter
  · exact nul_notMem_untilNul _ inside

theorem finds_specimenText (term : String) : Finds term (specimenText term) := by
  refine ⟨[], (specimenText term).toList, [], ?_, ?_, fun _ => rfl⟩
  · rw [List.append_nil, List.nil_append, untilNul_eq_self (nul_notMem_specimenText term)]
  · rw [specimenText, String.toList_ofList]
    exact fits_specimen _

theorem isVerbatim_of_holds_specimenText (holds : Holds term.toList (specimenText term).toList) :
    IsVerbatim term := by
  rw [specimenText, String.toList_ofList] at holds
  obtain ⟨whole, literal⟩ := isLiteral_of_holds_specimen (List.takeWhile_prefix _) holds
  exact ⟨literal, whole ▸ nul_notMem_untilNul term.toList⟩

/-- The terms that find just the texts that hold them. -/
theorem isVerbatim_iff : IsVerbatim term ↔
    ∀ text : String, Char.ofNat 0 ∉ text.toList → (Finds term text ↔ Holds term.toList text.toList) := by
  constructor
  · intro plain text whole
    rw [finds_iff_of_isVerbatim plain, untilNul_eq_self whole]
  · intro law
    exact isVerbatim_of_holds_specimenText
      ((law _ (nul_notMem_specimenText term)).mp (finds_specimenText term))

/-! ## Rows -/

/-- The label or the key of the row, in decimal, holds the term as it stands; letters of the label
without regard to case. -/
def HoldsTyped (term : String) (row : Row) : Prop :=
  (∃ label, row.label = .text label ∧ Holds term.toList label.toList) ∨
    ∃ i, row.key = .int i ∧ term.toList <:+: (writeInteger i).toList

theorem caseless_of_isAsciiDigit {c : Char} (digit : Text.isAsciiDigit c = true) :
    fold c = c ∧ ¬ ('a' ≤ c ∧ c ≤ 'z') := by
  obtain ⟨low, high⟩ : 48 ≤ c.val.toNat ∧ c.val.toNat ≤ 57 := by
    simpa [Text.isAsciiDigit] using digit
  have upper : 'A'.val.toNat = 65 := rfl
  have lower : 'a'.val.toNat = 97 := rfl
  constructor
  · refine dif_neg fun letter => ?_
    have := UInt32.le_iff_toNat_le.mp letter.1
    omega
  · rintro ⟨least, -⟩
    have := UInt32.le_iff_toNat_le.mp (Char.le_def.mp least)
    omega

theorem holds_writeInteger_iff : Holds pattern (writeInteger i).toList ↔
    pattern <:+: (writeInteger i).toList := by
  refine holds_iff_of_caseless fun c member => ?_
  rcases eq_or_isAsciiDigit_of_mem_writeInteger member with rfl | digit
  · exact ⟨rfl, by decide⟩
  · exact caseless_of_isAsciiDigit digit

theorem nul_notMem_writeInteger (i : Int) : Char.ofNat 0 ∉ (writeInteger i).toList := by
  intro member
  rcases eq_or_isAsciiDigit_of_mem_writeInteger member with minus | digit
  · cases minus
  · cases digit

/-- The label or the key of the row has a stretch that the term finds. -/
def HoldsFound (term : String) (row : Row) : Prop :=
  (∃ label, row.label = .text label ∧ Finds term label) ∨
    ∃ i, row.key = .int i ∧ Finds term (writeInteger i)

theorem rowMatches_iff (presentable : IsPresentable row) :
    rowMatches term row = true ↔ HoldsFound term row := by
  obtain ⟨i, key⟩ := KeyKind.admits_integer_iff.mp presentable.key
  obtain ⟨label, text⟩ := presentable.label
  have shown : (Value.text label).text? = some label := rfl
  simp [rowMatches, HoldsFound, key, text, Value.text_of_int, shown, textMatches_iff]

theorem holdsFound_iff_of_isVerbatim (plain : IsVerbatim term) : HoldsFound term row ↔
    (∃ label, row.label = .text label ∧ Holds term.toList (untilNul label.toList)) ∨
      ∃ i, row.key = .int i ∧ term.toList <:+: (writeInteger i).toList := by
  unfold HoldsFound
  simp only [finds_iff_of_isVerbatim plain, untilNul_eq_self (nul_notMem_writeInteger _),
    holds_writeInteger_iff]

/-! ## Requests -/

/-- The labels of the rows are texts without NUL. -/
def HasCleanLabels (table : Table) : Prop :=
  ∀ row ∈ table, ∀ label, row.label = .text label → Char.ofNat 0 ∉ label.toList

/-- Requests with the term are answered with the nodes that hold it as it was typed, whatever the
table. -/
def FindsTyped (settings : Settings) (term : String) : Prop :=
  ∀ table : Table, table.IsKeyed .integer → (∀ row ∈ table, IsPresentable row) →
    HasCleanLabels table → ∃ (found : List Row) (views : List NodeView),
      (∀ row, row ∈ found ↔ row ∈ table ∧ HoldsTyped term row) ∧ AreShownAs found views ∧
        AnswersFrom settings table (some term) views

theorem exists_found (settings : Settings) (keyed : table.IsKeyed .integer)
    (presentable : ∀ row ∈ table, IsPresentable row) (takes : SearchTakes table term) :
    ∃ views, (∀ row, row ∈ foundRows table term ↔ row ∈ table ∧ HoldsFound term row) ∧
      AreShownAs (foundRows table term) views ∧ AnswersFrom settings table (some term) views := by
  obtain ⟨views, shown, answers⟩ := @exists_answersFrom _ (some term) settings keyed presentable takes
  refine ⟨views, fun row => ?_, shown, answers⟩
  rw [mem_foundRows]
  exact and_congr_right fun member => rowMatches_iff (presentable row member)

theorem findsTyped_of_isVerbatim (plain : IsVerbatim term)
    (short : term.utf8ByteSize + 2 ≤ Like.patternLimit) : FindsTyped settings term := by
  intro table keyed presentable clean
  obtain ⟨views, members, shown, answers⟩ := exists_found settings keyed presentable (.inl short)
  refine ⟨_, views, fun row => ?_, shown, answers⟩
  rw [members]
  refine and_congr_right fun member => ?_
  rw [holdsFound_iff_of_isVerbatim plain]
  unfold HoldsTyped
  refine or_congr_left (exists_congr fun label => and_congr_right fun text => ?_)
  rw [untilNul_eq_self (clean row member label text)]

/-- A table of one root with a label. -/
def labelled (label : String) : Table := [⟨.int 1, .null, .text label, none⟩]

theorem isKeyed_labelled (label : String) : (labelled label).IsKeyed .integer where
  key := by simp [labelled, KeyKind.Admits]
  parent := by simp [labelled]
  distinct := by simp [labelled]

theorem isPresentable_labelled (label : String) : ∀ row ∈ labelled label, IsPresentable row := by
  intro row member
  obtain rfl := List.mem_singleton.mp member
  exact ⟨trivial, .inl rfl, ⟨_, rfl⟩, .inl rfl⟩

/-- A request for the first page of a search. -/
def searchFor (term : String) : Request where
  method := "GET"
  path := "/api/nodes"
  parameters := [("search", [term])]

theorem asksPage_searchFor (term : String) : (searchFor term).AsksPage (some term) 1 25 := by
  have dispatched : dispatch "GET".toUpper "/api/nodes" = .action .listNodes "" := by decide +kernel
  exact ⟨⟨"", dispatched⟩, rfl, rfl, rfl, rfl⟩

/-- The counts of two answers to one request are the same. -/
theorem AnswersFrom.length_eq {views others : List NodeView}
    (answers : AnswersFrom settings table (some term) views)
    (otherAnswers : AnswersFrom settings table (some term) others) : views.length = others.length := by
  have first := answers.page _ 1 25 (asksPage_searchFor term) (by decide)
  have second := otherAnswers.page _ 1 25 (asksPage_searchFor term) (by decide)
  have same := Except.ok.inj (Prod.mk.inj (first.symm.trans second)).2
  simp only [pageAnswer, Answer.json.injEq, Json.obj.injEq, List.cons.injEq, Prod.mk.injEq,
    Json.int.injEq, Int.natCast_inj] at same
  exact same.1.2

theorem isVerbatim_of_isInfix (stands : term.toList <:+: (writeInteger i).toList) : IsVerbatim term := by
  have numeral : ∀ c ∈ term.toList, c = '-' ∨ Text.isAsciiDigit c = true :=
    fun c member => eq_or_isAsciiDigit_of_mem_writeInteger (stands.subset member)
  have free {c : Char} (sign : c ≠ '-') (digit : Text.isAsciiDigit c = false) : c ∉ term.toList :=
    fun member => (numeral c member).elim sign fun other => Bool.false_ne_true (digit ▸ other)
  exact ⟨⟨free (by decide) rfl, free (by decide) rfl⟩, free (by decide) rfl⟩

theorem not_holdsTyped_labelled (special : ¬ IsVerbatim term) :
    ¬ HoldsTyped term ⟨.int 1, .null, .text (specimenText term), none⟩ := by
  rintro (⟨label, text, holds⟩ | ⟨i, -, stands⟩)
  · obtain rfl := Value.text.inj text
    exact special (isVerbatim_of_holds_specimenText holds)
  · exact special (isVerbatim_of_isInfix stands)

theorem short_of_findsTyped (law : FindsTyped settings term) :
    term.utf8ByteSize + 2 ≤ Like.patternLimit := by
  obtain ⟨found, views, -, -, answers⟩ :=
    law _ (isKeyed_labelled "") (isPresentable_labelled "") fun row member label text => by
      obtain rfl := List.mem_singleton.mp member
      obtain rfl := Value.text.inj text
      exact List.not_mem_nil
  by_contra long
  have beyond : ¬ SearchTakes (labelled "") term := by
    rintro (short | none)
    · exact long short
    · cases none
  have first := answers.page _ 1 25 (asksPage_searchFor term) (by decide)
  have second : respond settings (labelled "") (searchFor term) = _ :=
    respond_page_of_long (asksPage_searchFor term) beyond
  cases (Prod.mk.inj (first.symm.trans second)).2

theorem isVerbatim_of_findsTyped (law : FindsTyped settings term) : IsVerbatim term := by
  by_contra special
  have keyed := isKeyed_labelled (specimenText term)
  have presentable := isPresentable_labelled (specimenText term)
  obtain ⟨found, views, members, shown, answers⟩ := law _ keyed presentable
    fun row member label text => by
      obtain rfl := List.mem_singleton.mp member
      obtain rfl := Value.text.inj text
      exact nul_notMem_specimenText term
  have none : found = [] := List.eq_nil_iff_forall_not_mem.mpr fun row member => by
    obtain ⟨inside, holds⟩ := (members row).mp member
    obtain rfl := List.mem_singleton.mp inside
    exact not_holdsTyped_labelled special holds
  obtain ⟨others, otherMembers, otherShown, otherAnswers⟩ :=
    exists_found settings keyed presentable (.inl (short_of_findsTyped law))
  have one : ⟨.int 1, .null, .text (specimenText term), Option.none⟩ ∈
      foundRows (labelled (specimenText term)) term :=
    (otherMembers _).mpr ⟨List.mem_singleton_self _, .inl ⟨_, rfl, finds_specimenText term⟩⟩
  have same := answers.length_eq otherAnswers
  rw [← shown.length_eq, ← otherShown.length_eq, none] at same
  exact absurd same.symm (List.length_pos_of_mem one).ne'

/-- What requests with a term are answered with. On every table these are the nodes with a stretch in
their label or in their key, up to a NUL, that fits the term as a pattern. If all characters of the term
stand for themselves, these are the nodes whose key holds it, or whose label holds it before a NUL.
They are the nodes that hold what was typed, whatever the labels without NUL are, iff all characters of
the term stand for themselves and the term is not too long. -/
theorem search_finds_iff (settings : Settings) (term : String) :
    (∀ table : Table, table.IsKeyed .integer → (∀ row ∈ table, IsPresentable row) →
      SearchTakes table term → ∃ (found : List Row) (views : List NodeView),
        (∀ row, row ∈ found ↔ row ∈ table ∧ HoldsFound term row) ∧ AreShownAs found views ∧
          AnswersFrom settings table (some term) views) ∧
    (IsVerbatim term → ∀ row, HoldsFound term row ↔
      (∃ label, row.label = .text label ∧ Holds term.toList (untilNul label.toList)) ∨
        ∃ i, row.key = .int i ∧ term.toList <:+: (writeInteger i).toList) ∧
    (FindsTyped settings term ↔ IsVerbatim term ∧ term.utf8ByteSize + 2 ≤ Like.patternLimit) :=
  ⟨fun _ keyed presentable takes => ⟨_, exists_found settings keyed presentable takes⟩,
    fun plain _ => holdsFound_iff_of_isVerbatim plain,
    fun law => ⟨isVerbatim_of_findsTyped law, short_of_findsTyped law⟩,
    fun ⟨plain, short⟩ => findsTyped_of_isVerbatim plain short⟩

/-- A search for digits finds what was typed. One for a line below finds every label that is not
empty. -/
theorem search_finds_below :
    FindsTyped {} "10" ∧ ¬ FindsTyped {} "_" ∧
      ∃ (found : List Row) (views : List NodeView),
        ⟨.int 1, .null, .text "plain", none⟩ ∈ found ∧ AreShownAs found views ∧
        AnswersFrom {} (labelled "plain") (some "_") views := by
  obtain ⟨-, -, digits⟩ := search_finds_iff {} "10"
  obtain ⟨listed, -, below⟩ := search_finds_iff {} "_"
  obtain ⟨found, views, members, shown, answers⟩ :=
    listed _ (isKeyed_labelled "plain") (isPresentable_labelled "plain") (.inl (by decide))
  have finds : Finds "_" "plain" :=
    ⟨[], ['p'], ['l', 'a', 'i', 'n'], rfl, isMatch_iff_fits.mp (by simp [isMatch, untilNul]), by simp⟩
  refine ⟨digits.mpr ⟨by simp [IsVerbatim, IsLiteral], by decide⟩, fun law => ?_, found, views,
    (members _).mpr ⟨List.mem_singleton_self _, .inl ⟨_, rfl, finds⟩⟩, shown, answers⟩
  simpa [IsVerbatim, IsLiteral] using (below.mp law).1

end AdjacencyForest.Service
