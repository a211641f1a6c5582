import AdjacencyForest.Json.Parser
import AdjacencyForest.Json.Printer
import Mathlib.Algebra.BigOperators.Group.List.Basic
import Mathlib.Data.List.Basic
import Mathlib.Order.Basic

/-!
# Texts that are written and read back

Each code point of a text is written by an escape of its own, or stands for itself. The reader takes
the escapes one after the other; only two surrogates that make a pair are taken together, so a text
is found again unless it has such a pair.

Main statements: `scanText_escaped`, the code points of a written text are read; `ofPoints_toNat`,
those of a string are the string.
-/

namespace AdjacencyForest.Json

open Text

variable {opening rest after : List Char} {points read : List Nat} {point unit fuel : Nat}

def IsHigh (point : Nat) : Prop := 0xd800 ≤ point ∧ point ≤ 0xdbff

def IsLow (point : Nat) : Prop := 0xdc00 ≤ point ∧ point ≤ 0xdfff

/-- Code points of which no two make a pair of surrogates. -/
structure AreCodePoints (points : List Nat) : Prop where
  range : ∀ point ∈ points, point < 0x110000
  apart : points.IsChain fun first second => ¬ (IsHigh first ∧ IsLow second)

/-! ## One escape -/

theorem hexValue?_digitChar : ∀ digit < 16, hexValue? (Nat.digitChar digit) = some digit := by
  decide

theorem hexUnit?_hexadecimal (small : unit < 0x10000) (more : rest ≠ []) :
    hexUnit? (hexadecimal 4 unit ++ rest) = some (unit, rest) := by
  obtain ⟨next, rest, rfl⟩ := List.exists_cons_of_ne_nil more
  have digits : hexadecimal 4 unit = [Nat.digitChar (unit / 4096 % 16),
      Nat.digitChar (unit / 256 % 16), Nat.digitChar (unit / 16 % 16), Nat.digitChar (unit / 1 % 16)] :=
    rfl
  have value (part : Nat) : hexValue? (Nat.digitChar (part % 16)) = some (part % 16) :=
    hexValue?_digitChar _ (Nat.mod_lt _ (by decide))
  rw [digits]
  simp only [List.cons_append, List.nil_append, hexUnit?, value]
  simp only [bind, Option.bind, Option.some.injEq, Prod.mk.injEq, and_true]
  omega

/-- No second half of a pair follows. -/
def NoLow (rest : List Char) : Prop := lowSurrogate? rest = .ok none

theorem scanText_unit (small : unit < 0x10000) (more : rest ≠ []) (free : IsHigh unit → NoLow rest) :
    scanText opening (fuel + 1) (escapedUnit unit ++ rest) read =
      scanText opening fuel rest (unit :: read) := by
  rw [escapedUnit, List.cons_append, List.cons_append, scanText, hexUnit?_hexadecimal small more]
  dsimp only
  by_cases high : 0xd800 ≤ unit ∧ unit ≤ 0xdbff
  · rw [if_pos high, free high]
  · rw [if_neg high]

theorem scanText_pair {high low : Nat} (isHigh : IsHigh high) (isLow : IsLow low) (more : rest ≠ []) :
    scanText opening (fuel + 1) (escapedUnit high ++ (escapedUnit low ++ rest)) read =
      scanText opening fuel rest (joinSurrogates high low :: read) := by
  obtain ⟨highLeast, highMost⟩ := isHigh
  obtain ⟨lowLeast, lowMost⟩ := isLow
  have next : lowSurrogate? (escapedUnit low ++ rest) = .ok (some (low, rest)) := by
    have long : ¬ (hexadecimal 4 low ++ rest).length < 5 := by
      have positive := List.length_pos_iff.mpr more
      have digits : (hexadecimal 4 low).length = 4 := rfl
      rw [List.length_append, digits]
      omega
    rw [escapedUnit, List.cons_append, List.cons_append, lowSurrogate?, if_neg long,
      hexUnit?_hexadecimal (by omega) more]
    exact if_pos ⟨lowLeast, lowMost⟩
  rw [escapedUnit, List.cons_append, List.cons_append, scanText,
    hexUnit?_hexadecimal (by omega) (by simp [escapedUnit])]
  dsimp only
  rw [if_pos ⟨highLeast, highMost⟩, next]

theorem lowSurrogate?_unit (small : unit < 0x10000) (notLow : ¬ IsLow unit) (more : rest ≠ []) :
    NoLow (escapedUnit unit ++ rest) := by
  unfold NoLow
  rw [escapedUnit, List.cons_append, List.cons_append, lowSurrogate?, hexUnit?_hexadecimal small more]
  split
  · rfl
  · exact if_neg notLow

/-- A text that the reader takes for the code point, whatever follows. -/
inductive IsEscape : Nat → List Char → Prop where
  | simple {c : Char} {point : Nat} (escape : simpleEscape? c = some point) : IsEscape point ['\\', c]
  | plain {c : Char} (quote : c ≠ '"') (backslash : c ≠ '\\') (visible : 0x20 ≤ c.toNat) :
    IsEscape c.toNat [c]
  | unit {point : Nat} (small : point < 0x10000) : IsEscape point (escapedUnit point)
  | pair {high low : Nat} (isHigh : IsHigh high) (isLow : IsLow low) :
    IsEscape (joinSurrogates high low) (escapedUnit high ++ escapedUnit low)

theorem isEscape_ofNat (visible : 0x20 ≤ point) (ascii : point < 0x7f) (notQuote : point ≠ 0x22)
    (notBackslash : point ≠ 0x5c) : IsEscape point [Char.ofNat point] := by
  have valid : (Char.ofNat point).toNat = point := by
    have small : point.isValidChar := .inl (by omega)
    rw [Char.ofNat, dif_pos small]
    rfl
  have plain : IsEscape (Char.ofNat point).toNat [Char.ofNat point] := by
    refine .plain (fun same => notQuote ?_) (fun same => notBackslash ?_) (by omega)
    · rw [← valid, same]
      rfl
    · rw [← valid, same]
      rfl
  rwa [valid] at plain

theorem isEscape_units (range : point < 0x110000) :
    IsEscape point ((utf16Units point).flatMap escapedUnit) := by
  unfold utf16Units
  split
  next small => simpa using IsEscape.unit small
  next large =>
    have pair := @IsEscape.pair (0xd800 + (point - 0x10000) / 0x400)
      (0xdc00 + (point - 0x10000) % 0x400) ⟨by omega, by omega⟩ ⟨by omega, by omega⟩
    have joined : joinSurrogates (0xd800 + (point - 0x10000) / 0x400)
        (0xdc00 + (point - 0x10000) % 0x400) = point := by
      unfold joinSurrogates
      omega
    simpa [joined] using pair

theorem isEscape_escapedText (range : point < 0x110000) : IsEscape point (escapedText point) := by
  unfold escapedText
  split_ifs with quote backslash backspace tab line feed carriage visible
  · exact .simple (by rw [quote]; rfl)
  · exact .simple (by rw [backslash]; rfl)
  · exact .simple (by rw [backspace]; rfl)
  · exact .simple (by rw [tab]; rfl)
  · exact .simple (by rw [line]; rfl)
  · exact .simple (by rw [feed]; rfl)
  · exact .simple (by rw [carriage]; rfl)
  · exact isEscape_ofNat visible.1 visible.2 quote backslash
  · exact isEscape_units range

theorem IsEscape.scanText_eq {text : List Char} (escape : IsEscape point text) (more : after ≠ [])
    (free : IsHigh point → NoLow after) :
    scanText opening (fuel + 1) (text ++ after) read = scanText opening fuel after (point :: read) := by
  cases escape with
  | @simple c point escape =>
    rw [List.cons_append, List.singleton_append, scanText, escape]
    rintro rfl
    cases escape
  | @plain c quote backslash visible =>
    rw [List.singleton_append, scanText, if_neg (Nat.not_lt.mpr visible)]
    · exact quote
    · exact backslash
  | unit small => exact scanText_unit small more free
  | pair isHigh isLow =>
    rw [List.append_assoc]
    exact scanText_pair isHigh isLow more

theorem IsEscape.noLow {text : List Char} (escape : IsEscape point text) (notLow : ¬ IsLow point)
    (more : after ≠ []) : NoLow (text ++ after) := by
  cases escape with
  | @simple c point escape =>
    unfold NoLow
    rw [List.cons_append, List.singleton_append, lowSurrogate?]
    rintro rest ⟨⟩
    cases escape
  | @plain c quote backslash visible =>
    unfold NoLow
    rw [List.singleton_append, lowSurrogate?]
    rintro rest same
    exact backslash (List.cons.inj same).1
  | unit small => exact lowSurrogate?_unit small notLow more
  | @pair high low isHigh isLow =>
    obtain ⟨least, most⟩ := isHigh
    rw [List.append_assoc]
    refine lowSurrogate?_unit (by omega) (fun low => ?_) (by simp [more])
    have := low.1
    omega

theorem IsEscape.ne_nil {text : List Char} (escape : IsEscape point text) : text ≠ [] := by
  cases escape <;> simp [escapedUnit]

/-! ## All code points -/

/-- A text is read up to the quote behind it. -/
theorem scanText_escaped (text : AreCodePoints points) (enough : points.length < fuel) :
    scanText opening fuel (points.flatMap escapedText ++ '"' :: rest) read =
      .ok (read.reverse ++ points, rest) := by
  -- A high surrogate asks for what follows it, which is the next code point or the quote.
  induction points generalizing fuel read with
  | nil =>
    obtain ⟨fuel, rfl⟩ := Nat.exists_eq_add_one_of_ne_zero (Nat.ne_zero_of_lt enough)
    rw [List.flatMap_nil, List.nil_append, List.append_nil, scanText]
  | cons point points ih =>
    obtain ⟨fuel, rfl⟩ := Nat.exists_eq_add_one_of_ne_zero (Nat.ne_zero_of_lt enough)
    have range := text.range
    have later : AreCodePoints points :=
      ⟨fun other member => range other (List.mem_cons_of_mem _ member), text.apart.of_cons⟩
    have more : points.flatMap escapedText ++ '"' :: rest ≠ [] := by simp
    have free : IsHigh point → NoLow (points.flatMap escapedText ++ '"' :: rest) := by
      intro high
      cases points with
      | nil => rfl
      | cons next others =>
        have apart := (List.isChain_cons_cons.mp text.apart).1
        rw [List.flatMap_cons, List.append_assoc]
        exact (isEscape_escapedText (range next (by simp))).noLow (fun low => apart ⟨high, low⟩)
          (by simp)
    rw [List.flatMap_cons, List.append_assoc,
      (isEscape_escapedText (range point List.mem_cons_self)).scanText_eq more free,
      ih later (Nat.lt_of_succ_lt_succ enough), List.reverse_cons, List.append_assoc,
      List.singleton_append]

theorem length_le_length_escaped (text : AreCodePoints points) :
    points.length ≤ (points.flatMap escapedText).length := by
  rw [List.length_flatMap]
  refine (List.length_map _).symm.trans_le (List.length_le_sum_of_one_le _ fun length member => ?_)
  obtain ⟨point, inside, rfl⟩ := List.mem_map.mp member
  exact List.length_pos_iff.mpr (isEscape_escapedText (text.range point inside)).ne_nil

/-- The length of the rest of the text is fuel enough. -/
theorem scanText_quoted (text : AreCodePoints points) :
    scanText opening ((points.flatMap escapedText ++ '"' :: rest).length + 1)
      (points.flatMap escapedText ++ '"' :: rest) [] = .ok (points, rest) := by
  refine scanText_escaped text ?_
  have long := length_le_length_escaped text
  rw [List.length_append]
  omega

theorem toNat_lt (c : Char) : c.toNat < 0x110000 := by
  rcases c.valid with low | ⟨-, high⟩
  · exact Nat.lt_trans low (by decide)
  · exact high

theorem not_isHigh_toNat (c : Char) : ¬ IsHigh c.toNat := by
  rintro ⟨least, most⟩
  rcases c.valid with low | ⟨high, -⟩
  · exact absurd low (Nat.not_lt.mpr least)
  · exact absurd high (Nat.not_lt.mpr (Nat.le_trans most (by decide)))

theorem areCodePoints_toNat (text : List Char) : AreCodePoints (text.map Char.toNat) where
  range point member := by
    obtain ⟨c, -, rfl⟩ := List.mem_map.mp member
    exact toNat_lt c
  apart := by
    induction text with
    | nil => exact .nil
    | cons first rest ih =>
      cases rest with
      | nil => exact .singleton _
      | cons second rest => exact .cons_cons (fun pair => not_isHigh_toNat first pair.1) ih

theorem ofPoints_toNat (text : String) : ofPoints (text.toList.map Char.toNat) = .str text := by
  have valid : (text.toList.map Char.toNat).all Nat.isValidChar = true := by
    refine List.all_eq_true.mpr fun point member => ?_
    obtain ⟨c, -, rfl⟩ := List.mem_map.mp member
    exact decide_eq_true c.valid
  have same : (text.toList.map Char.toNat).map Char.ofNat = text.toList := by
    rw [List.map_map]
    exact (List.map_congr_left fun c _ => Char.ofNat_toNat c).trans (List.map_id _)
  rw [ofPoints, if_pos valid, same, String.ofList_toList]

theorem nameOfPoints_toNat (name : String) : nameOfPoints (name.toList.map Char.toNat) = name := by
  have same : (name.toList.map Char.toNat).map (fun point =>
      if Nat.isValidChar point then Char.ofNat point else Char.ofNat 0xfffd) = name.toList := by
    rw [List.map_map]
    refine (List.map_congr_left fun c _ => ?_).trans (List.map_id _)
    have valid : Nat.isValidChar c.toNat := c.valid
    simp only [Function.comp_apply, if_pos valid]
    exact Char.ofNat_toNat c
  rw [nameOfPoints, same, String.ofList_toList]

end AdjacencyForest.Json
