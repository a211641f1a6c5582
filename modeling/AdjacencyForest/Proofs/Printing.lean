import AdjacencyForest.Proofs.Escapes
import AdjacencyForest.Proofs.Numerals

/-!
# Data that is written and read back

Data in the exchange form is read back as it was: integers up to the limit of digits, finite numbers,
texts without pairs of surrogates, and lists and objects of such data. An object must have each name
once, for a name that comes again changes the field that is there.

Main statement: `parse_print`.
-/

namespace AdjacencyForest

/-- The number is finite and has the one mantissa and exponent that numbers of its value have. -/
def Binary64.IsRepresented : Binary64 → Prop
  | .finite _ mantissa exponent => IsCanonical mantissa exponent
  | _ => False

namespace Json

open Text

mutual

/-- The data can be written and read back. -/
def IsPortable : Json → Prop
  | .int i => (decimalDigits i.natAbs).length ≤ digitLimit
  | .num x => x.IsRepresented
  | .illFormed points => AreCodePoints points ∧ ∃ point ∈ points, ¬ point.isValidChar
  | .arr items => ArePortable items
  | .obj fields => (fields.map Prod.fst).Nodup ∧ AreFieldsPortable fields
  | .null | .bool _ | .str _ => True

def ArePortable : List Json → Prop
  | [] => True
  | item :: rest => item.IsPortable ∧ ArePortable rest

def AreFieldsPortable : List (String × Json) → Prop
  | [] => True
  | (_, value) :: rest => value.IsPortable ∧ AreFieldsPortable rest

end

variable {rest text : List Char} {fuel : Nat} {value : Json}

/-! ## Scalars -/

/-- A number starts with a digit, or with a sign and a digit. -/
inductive StartsNumber : List Char → Prop where
  | digit {c : Char} {rest : List Char} (digit : isAsciiDigit c = true) : StartsNumber (c :: rest)
  | sign {c : Char} {rest : List Char} (digit : isAsciiDigit c = true) :
    StartsNumber ('-' :: c :: rest)

theorem exists_digit_of_wholePart (nonempty : wholePart text ≠ []) :
    ∃ c rest, text = c :: rest ∧ isAsciiDigit c = true := by
  unfold wholePart at nonempty
  split at nonempty
  next rest => exact ⟨'0', rest, rfl, by decide⟩
  next =>
    cases text with
    | nil => exact absurd rfl nonempty
    | cons c rest =>
      refine ⟨c, rest, rfl, ?_⟩
      by_contra other
      exact nonempty (List.takeWhile_cons_of_neg other)

theorem startsNumber_of_scanNumber {result : Json × List Char} (read : scanNumber text = .ok result) :
    StartsNumber text := by
  rw [scanNumber_eq_scanTail] at read
  dsimp only at read
  by_cases negative : (text.head? == some '-') = true
  · obtain ⟨others, rfl⟩ := List.head?_eq_some_iff.mp (beq_iff_eq.mp negative)
    rw [if_pos negative, List.drop_one, List.tail_cons] at read
    have nonempty : wholePart others ≠ [] := fun empty => by
      rw [empty, List.isEmpty_nil, if_pos rfl] at read
      cases read
    obtain ⟨c, rest, rfl, digit⟩ := exists_digit_of_wholePart nonempty
    exact .sign digit
  · rw [if_neg negative] at read
    have nonempty : wholePart text ≠ [] := fun empty => by
      rw [empty, List.isEmpty_nil, if_pos rfl] at read
      cases read
    obtain ⟨c, rest, rfl, digit⟩ := exists_digit_of_wholePart nonempty
    exact .digit digit

theorem ne_of_isAsciiDigit {c other : Char} (digit : isAsciiDigit c = true)
    (letter : isAsciiDigit other = false) : other ≠ c := by
  rintro rfl
  exact Bool.false_ne_true (letter.symm.trans digit)

theorem StartsNumber.no_word (starts : StartsNumber text) :
    words.find? (fun word => word.1.toList.isPrefixOf text) = none := by
  have other {c : Char} (digit : isAsciiDigit c = true) :
      '-' ≠ c ∧ 'n' ≠ c ∧ 't' ≠ c ∧ 'f' ≠ c ∧ 'N' ≠ c ∧ 'I' ≠ c := by
    refine ⟨?_, ?_, ?_, ?_, ?_, ?_⟩ <;> exact ne_of_isAsciiDigit digit (by decide)
  cases starts with
  | digit digit => simp [words, other digit]
  | sign digit => simp [words, other digit]

/-- A number is no word, and no text, list or object. -/
theorem scanValue_number {result : Json × List Char} (read : scanNumber text = .ok result) :
    scanValue (fuel + 1) text = .ok result := by
  have starts := startsNumber_of_scanNumber read
  have scalar : scanScalar text = .ok result := by
    unfold scanScalar
    rw [starts.no_word]
    exact read
  rw [scanValue, scalar]
  all_goals
    rintro rest rfl
    cases starts with
    | digit digit => exact absurd digit (by decide)

theorem scanValue_null : scanValue (fuel + 1) (printChars .null ++ rest) = .ok (.null, rest) := by
  simp [printChars, scanValue, scanScalar, words]
  rfl

theorem scanValue_bool (b : Bool) :
    scanValue (fuel + 1) (printChars (.bool b) ++ rest) = .ok (.bool b, rest) := by
  cases b <;> simp [printChars, scanValue, scanScalar, words] <;> rfl

theorem scanValue_points {points : List Nat} (text : AreCodePoints points) :
    scanValue (fuel + 1) (printPoints points ++ rest) = .ok (ofPoints points, rest) := by
  rw [printPoints, List.cons_append, List.append_assoc, List.singleton_append, scanValue,
    scanText_quoted text]
  rfl

/-! ## Lists and objects -/

/-- A value starts with a character that is taken neither for a separator, nor for an end, nor for a
byte order mark. -/
structure StartsValue (text : List Char) : Prop where
  some : text ≠ []
  separator : ∀ c ∈ text.head?, isSeparator c = false
  bracket : ∀ c ∈ text.head?, c ≠ ']'
  mark : ∀ c ∈ text.head?, c ≠ Char.ofNat 0xfeff

theorem StartsValue.append (starts : StartsValue text) (rest : List Char) :
    StartsValue (text ++ rest) := by
  obtain ⟨some, separator, bracket, mark⟩ := starts
  have head : (text ++ rest).head? = text.head? := List.head?_append_of_ne_nil text some
  rw [← head] at separator bracket mark
  exact ⟨List.append_ne_nil_of_left_ne_nil some rest, separator, bracket, mark⟩

theorem StartsValue.skip_eq (starts : StartsValue text) : skip text = text := by
  obtain ⟨c, rest, rfl⟩ := List.exists_cons_of_ne_nil starts.some
  exact List.dropWhile_cons_of_neg (by simp [starts.separator c rfl])

theorem startsValue_cons {c : Char} (separator : isSeparator c = false)
    (other : c ≠ ']' ∧ c ≠ Char.ofNat 0xfeff) : StartsValue (c :: rest) where
  some := List.cons_ne_nil _ _
  separator := by
    rintro _ ⟨⟩
    exact separator
  bracket := by
    rintro _ ⟨⟩
    exact other.1
  mark := by
    rintro _ ⟨⟩
    exact other.2

theorem StartsNumber.startsValue (starts : StartsNumber text) : StartsValue text := by
  cases starts with
  | @digit c rest digit =>
    have other {d : Char} (letter : isAsciiDigit d = false) := ne_of_isAsciiDigit digit letter
    have blank : c ≠ ' ' ∧ c ≠ '\t' ∧ c ≠ '\n' ∧ c ≠ '\r' := by
      refine ⟨?_, ?_, ?_, ?_⟩ <;> exact (other (by decide)).symm
    exact startsValue_cons (by simp [isSeparator, blank])
      ⟨(other (by decide)).symm, (other (by decide)).symm⟩
  | sign digit => exact startsValue_cons (by decide) (by decide)

theorem endsNumber_nil : EndsNumber [] := by
  rintro c ⟨⟩

theorem endsNumber_cons {c : Char} (digit : isAsciiDigit c = false)
    (other : c ≠ '.' ∧ c ≠ 'e' ∧ c ≠ 'E') : EndsNumber (c :: rest) := by
  rintro _ ⟨⟩
  exact ⟨digit, other⟩

theorem startsValue_of_scanNumber {result : Json × List Char}
    (read : scanNumber (text ++ []) = .ok result) : StartsValue text := by
  rw [List.append_nil] at read
  exact (startsNumber_of_scanNumber read).startsValue

theorem scanNumber_int {i : Int} (short : (decimalDigits i.natAbs).length ≤ digitLimit)
    (ends : EndsNumber rest) : scanNumber (printChars (.int i) ++ rest) = .ok (.int i, rest) := by
  rw [printChars]
  exact scanNumber_writeInteger short ends

theorem scanNumber_num {x : Binary64} (represented : x.IsRepresented) (ends : EndsNumber rest) :
    scanNumber (printChars (.num x) ++ rest) = .ok (.num x, rest) := by
  rw [printChars]
  cases x with
  | finite negative mantissa exponent => exact scanNumber_write represented ends
  | infinite | nan => exact represented.elim

theorem startsValue_printChars (portable : value.IsPortable) : StartsValue (printChars value) := by
  cases value with
  | null =>
    rw [printChars]
    exact startsValue_cons (by decide) (by decide)
  | bool b =>
    cases b <;> rw [printChars] <;> exact startsValue_cons (by decide) (by decide)
  | int i => exact startsValue_of_scanNumber (scanNumber_int portable endsNumber_nil)
  | num x => exact startsValue_of_scanNumber (scanNumber_num portable endsNumber_nil)
  | str s =>
    rw [printChars]
    exact startsValue_cons (by decide) (by decide)
  | illFormed points =>
    rw [printChars]
    exact startsValue_cons (by decide) (by decide)
  | arr items =>
    rw [printChars]
    exact startsValue_cons (by decide) (by decide)
  | obj fields =>
    rw [printChars]
    exact startsValue_cons (by decide) (by decide)

theorem setField_of_not_mem {α : Type} {name : String} {value : α} {fields : List (String × α)}
    (fresh : name ∉ fields.map Prod.fst) : setField name value fields = fields ++ [(name, value)] := by
  induction fields with
  | nil => rfl
  | cons field rest ih =>
    obtain ⟨other, old⟩ := field
    rw [List.map_cons, List.mem_cons, not_or] at fresh
    rw [setField, if_neg (Ne.symm fresh.1), ih fresh.2, List.cons_append]

/-- After the bracket of a list with items the first of them is read. -/
theorem scanValue_items (starts : StartsValue text) :
    scanValue (fuel + 1) ('[' :: text) = scanItems fuel text [] := by
  obtain ⟨c, rest, rfl⟩ := List.exists_cons_of_ne_nil starts.some
  have other := starts.bracket c rfl
  rw [scanValue, starts.skip_eq]
  split
  next same => exact absurd (List.cons.inj same).1 other
  next => rfl

theorem scanItems_last {item : Json} {items : List Json}
    (read : scanValue fuel text = .ok (item, ']' :: rest)) :
    scanItems (fuel + 1) text items = .ok (.arr (items.reverse ++ [item]), rest) := by
  have bracket : skip (']' :: rest) = ']' :: rest := rfl
  rw [scanItems, read]
  simp only [bind, Except.bind, bracket, List.reverse_cons]

theorem scanItems_more {item : Json} {items : List Json} (starts : StartsValue rest)
    (read : scanValue fuel text = .ok (item, ',' :: ' ' :: rest)) :
    scanItems (fuel + 1) text items = scanItems fuel rest (item :: items) := by
  have comma : skip (',' :: ' ' :: rest) = ',' :: ' ' :: rest := rfl
  have later : skip (' ' :: rest) = rest := starts.skip_eq
  rw [scanItems, read]
  simp only [bind, Except.bind, comma, later]

/-- After the brace of an object with fields the first of them is read. -/
theorem scanValue_fields (rest : List Char) :
    scanValue (fuel + 1) ('\x7b' :: '"' :: rest) = scanFields fuel ('"' :: rest) [] := by
  have quote : skip ('"' :: rest) = '"' :: rest := rfl
  rw [scanValue, quote]
  rfl

theorem scanFields_last {name : String} {value : Json} {fields : List (String × Json)}
    (starts : StartsValue text) (fresh : name ∉ fields.map Prod.fst)
    (read : scanValue fuel text = .ok (value, '\x7d' :: rest)) :
    scanFields (fuel + 1) (printText name ++ ':' :: ' ' :: text) fields =
      .ok (.obj (fields ++ [(name, value)]), rest) := by
  have colon : skip (':' :: ' ' :: text) = ':' :: ' ' :: text := rfl
  have later : skip (' ' :: text) = text := starts.skip_eq
  have brace : skip ('\x7d' :: rest) = '\x7d' :: rest := rfl
  rw [printText, printPoints, List.cons_append, List.append_assoc, List.singleton_append, scanFields,
    scanText_quoted (areCodePoints_toNat _)]
  simp only [bind, Except.bind, colon, later, read, brace, nameOfPoints_toNat,
    setField_of_not_mem fresh]

theorem scanFields_more {name : String} {value : Json} {fields : List (String × Json)}
    (starts : StartsValue text) (fresh : name ∉ fields.map Prod.fst) (next : StartsValue rest)
    (read : scanValue fuel text = .ok (value, ',' :: ' ' :: rest)) :
    scanFields (fuel + 1) (printText name ++ ':' :: ' ' :: text) fields =
      scanFields fuel rest (fields ++ [(name, value)]) := by
  have colon : skip (':' :: ' ' :: text) = ':' :: ' ' :: text := rfl
  have later : skip (' ' :: text) = text := starts.skip_eq
  have comma : skip (',' :: ' ' :: rest) = ',' :: ' ' :: rest := rfl
  have nextLater : skip (' ' :: rest) = rest := next.skip_eq
  rw [printText, printPoints, List.cons_append, List.append_assoc, List.singleton_append, scanFields,
    scanText_quoted (areCodePoints_toNat _)]
  simp only [bind, Except.bind, colon, later, read, comma, nextLater, nameOfPoints_toNat,
    setField_of_not_mem fresh]

/-! ## All data -/

theorem startsValue_printItems {items : List Json} (portable : ArePortable items)
    (some : items ≠ []) : StartsValue (printItems items) := by
  obtain ⟨item, others, rfl⟩ := List.exists_cons_of_ne_nil some
  have starts := startsValue_printChars portable.1
  cases others with
  | nil => rwa [printItems]
  | cons next others =>
    rw [printItems]
    exact starts.append _

theorem startsValue_printFields {fields : List (String × Json)} (some : fields ≠ []) :
    StartsValue (printFields fields) := by
  obtain ⟨⟨name, value⟩, others, rfl⟩ := List.exists_cons_of_ne_nil some
  cases others <;> rw [printFields] <;> exact startsValue_cons (by decide) (by decide)

theorem exists_quote_printFields {fields : List (String × Json)} (some : fields ≠ []) :
    ∃ text, printFields fields = '"' :: text := by
  obtain ⟨⟨name, value⟩, others, rfl⟩ := List.exists_cons_of_ne_nil some
  cases others <;> rw [printFields] <;> exact ⟨_, rfl⟩

theorem not_mem_of_nodup_append {name : String} {value : Json} {read others : List (String × Json)}
    (distinct : ((read ++ (name, value) :: others).map Prod.fst).Nodup) :
    name ∉ read.map Prod.fst := by
  intro member
  rw [List.map_append, List.map_cons, List.nodup_append] at distinct
  exact distinct.2.2 name member name List.mem_cons_self rfl

mutual

/-- What is written is read back: by the structure of the data. -/
theorem scanValue_printChars : (value : Json) → value.IsPortable → {fuel : Nat} →
    {rest : List Char} → (printChars value).length < fuel → EndsNumber rest →
    scanValue fuel (printChars value ++ rest) = .ok (value, rest)
  | .null, _, _ + 1, _, _, _ => scanValue_null
  | .bool b, _, _ + 1, _, _, _ => scanValue_bool b
  | .int _, portable, _ + 1, _, _, ends => scanValue_number (scanNumber_int portable ends)
  | .num _, portable, _ + 1, _, _, ends => scanValue_number (scanNumber_num portable ends)
  | .str s, _, _ + 1, _, _, _ => by
    rw [printChars, printText, scanValue_points (areCodePoints_toNat _), ofPoints_toNat]
  | .illFormed points, portable, _ + 1, _, _, _ => by
    have unpaired : points.all Nat.isValidChar = false := by
      obtain ⟨point, member, invalid⟩ := portable.2
      exact List.all_eq_false.mpr ⟨point, member, by simpa using invalid⟩
    rw [printChars, scanValue_points portable.1, ofPoints, unpaired, if_neg (by decide)]
  | .arr items, portable, fuel + 1, rest, short, _ => by
    rw [printChars, List.cons_append, List.append_assoc, List.singleton_append]
    by_cases some : items = []
    · rw [some, printItems]
      rfl
    · have starts := (startsValue_printItems portable some).append (']' :: rest)
      rw [printChars, List.length_cons, List.length_append, List.length_singleton] at short
      rw [scanValue_items starts, scanItems_printItems items portable some (by omega),
        List.reverse_nil, List.nil_append]
  | .obj fields, portable, fuel + 1, rest, short, _ => by
    rw [printChars, List.cons_append, List.append_assoc, List.singleton_append]
    by_cases some : fields = []
    · rw [some, printFields]
      rfl
    · rw [printChars, List.length_cons, List.length_append, List.length_singleton] at short
      have read := @scanFields_printFields fields portable.2 some fuel rest [] portable.1 (by omega)
      obtain ⟨text, same⟩ := exists_quote_printFields some
      rw [same, List.cons_append] at read ⊢
      rw [scanValue_fields, read, List.nil_append]

theorem scanItems_printItems : (items : List Json) → ArePortable items → items ≠ [] →
    {fuel : Nat} → {rest : List Char} → {read : List Json} → (printItems items).length + 1 < fuel →
    scanItems fuel (printItems items ++ ']' :: rest) read = .ok (.arr (read.reverse ++ items), rest)
  | [item], portable, _, fuel + 1, rest, read, short => by
    rw [printItems] at short ⊢
    exact scanItems_last (scanValue_printChars item portable.1 (by omega)
      (endsNumber_cons (by decide) (by decide)))
  | item :: next :: others, portable, _, fuel + 1, rest, read, short => by
    have later : next :: others ≠ [] := List.cons_ne_nil _ _
    have starts := (startsValue_printItems portable.2 later).append (']' :: rest)
    rw [printItems, List.length_append, List.length_cons, List.length_cons] at short
    rw [printItems, List.append_assoc, List.cons_append, List.cons_append,
      scanItems_more starts (scanValue_printChars item portable.1 (by omega)
        (endsNumber_cons (by decide) (by decide))),
      scanItems_printItems (next :: others) portable.2 later (by omega), List.reverse_cons,
      List.append_assoc, List.singleton_append]

theorem scanFields_printFields : (fields : List (String × Json)) → AreFieldsPortable fields →
    fields ≠ [] → {fuel : Nat} → {rest : List Char} → {read : List (String × Json)} →
    ((read ++ fields).map Prod.fst).Nodup → (printFields fields).length + 1 < fuel →
    scanFields fuel (printFields fields ++ '\x7d' :: rest) read = .ok (.obj (read ++ fields), rest)
  | [(name, value)], portable, _, fuel + 1, rest, read, distinct, short => by
    have starts := (startsValue_printChars portable.1).append ('\x7d' :: rest)
    have fresh := not_mem_of_nodup_append distinct
    rw [printFields, List.length_append, List.length_cons, List.length_cons] at short
    rw [printFields, List.append_assoc, List.cons_append, List.cons_append]
    exact scanFields_last starts fresh (scanValue_printChars value portable.1 (by omega)
      (endsNumber_cons (by decide) (by decide)))
  | (name, value) :: next :: others, portable, _, fuel + 1, rest, read, distinct, short => by
    have later : next :: others ≠ [] := List.cons_ne_nil _ _
    have fresh := not_mem_of_nodup_append distinct
    have nextStarts := (startsValue_printFields later).append ('\x7d' :: rest)
    rw [printFields, List.length_append, List.length_cons, List.length_cons, List.length_append,
      List.length_cons, List.length_cons] at short
    rw [printFields, List.append_assoc, List.cons_append, List.cons_append, List.append_assoc,
      List.cons_append, List.cons_append,
      scanFields_more ((startsValue_printChars portable.1).append _) fresh nextStarts
        (scanValue_printChars value portable.1 (by omega) (endsNumber_cons (by decide) (by decide))),
      scanFields_printFields (next :: others) portable.2 later
        (by rwa [List.append_assoc, List.singleton_append]) (by omega),
      List.append_assoc, List.singleton_append]

end

theorem parse_print (portable : value.IsPortable) : parse value.print = .ok value := by
  have starts := startsValue_printChars portable
  have read := scanValue_printChars value portable (Nat.lt_succ_self _) endsNumber_nil
  rw [List.append_nil] at read
  have mark : ((printChars value).head? == some (Char.ofNat 0xfeff)) = false :=
    beq_eq_false_iff_ne.mpr fun same => starts.mark _ same rfl
  rw [parse, print, String.toList_ofList, mark, if_neg (by decide), parseChars, starts.skip_eq, read]
  rfl

end Json
end AdjacencyForest
