import AdjacencyForest.Json.Printer
import AdjacencyForest.Proofs.Decimals
import AdjacencyForest.Store.Value
import Mathlib.Data.List.TakeWhile

/-!
# Numbers as text

What the reader of data finds in the text of a number: the digits are found again, and what they
stand for is the number.

Main statements: `scanNumber_writeInteger` and `scanNumber_write`, a number that is written is read
back; `magnitude_cell_of_whole`, an integer in a cell is its digits, and `numberOfText?_digits`, these
are read as the integer.
-/

namespace AdjacencyForest

/-! ## Digits -/

namespace Text

variable {digits rest : List Char} {c : Char} {n : Nat}

def IsDigits (text : List Char) : Prop := ∀ c ∈ text, isAsciiDigit c = true

theorem IsDigits.append (first : IsDigits digits) (second : IsDigits rest) :
    IsDigits (digits ++ rest) := by
  intro c member
  exact (List.mem_append.mp member).elim (first c) (second c)

theorem isDigits_replicate_zero (n : Nat) : IsDigits (List.replicate n '0') := by
  intro c member
  rw [List.eq_of_mem_replicate member]
  decide

theorem isDigits_decimalDigits (n : Nat) : IsDigits (decimalDigits n) := by
  intro c member
  exact Nat.isDigit_of_mem_toDigits (by decide) (by decide) member

theorem decimalDigits_ne_nil (n : Nat) : decimalDigits n ≠ [] := Nat.toDigits_ne_nil

theorem ofDigits_decimalDigits (n : Nat) : ofDigits (decimalDigits n) = n :=
  Nat.ofDigitChars_ten_toDigits

theorem ofDigits_append (first second : List Char) :
    ofDigits (first ++ second) = ofDigits first * 10 ^ second.length + ofDigits second := by
  have step := @Nat.ofDigitChars_eq_ofDigitChars_zero second (ofDigits first)
  rw [Nat.mul_comm] at step
  exact (Nat.ofDigitChars_append 0).trans step

theorem ofDigits_replicate_zero (n : Nat) : ofDigits (List.replicate n '0') = 0 :=
  Nat.ofDigitChars_replicate_zero.trans (Nat.mul_zero _)

theorem ofDigits_zero_cons (digits : List Char) : ofDigits ('0' :: digits) = ofDigits digits := rfl

theorem ofDigits_lt (numeral : IsDigits digits) : ofDigits digits < 10 ^ digits.length := by
  induction digits using List.reverseRecOn with
  | nil => exact Nat.one_pos
  | append_singleton before last ih =>
    have lower := ih fun c member => numeral c (List.mem_append_left _ member)
    have value : asciiDigitValue last ≤ 9 := by
      have digit := numeral last (by simp)
      simp only [isAsciiDigit_iff] at digit
      unfold asciiDigitValue
      omega
    have single : ofDigits [last] = asciiDigitValue last := by simp [ofDigits]
    rw [ofDigits_append, List.length_append, single, List.length_singleton, pow_one, pow_succ]
    omega

theorem head_decimalDigits (positive : 0 < n) : decimalDigits n ≠ '0' :: rest := by
  intro same
  have least := Decimal.pow_length_toDigits_le positive
  have numeral : IsDigits rest := fun c member =>
    isDigits_decimalDigits n c (same ▸ List.mem_cons_of_mem _ member)
  have value : ofDigits rest = n := by
    rw [← ofDigits_zero_cons, ← same, ofDigits_decimalDigits]
  have less := ofDigits_lt numeral
  have length : (Nat.toDigits 10 n).length = rest.length + 1 := congrArg List.length same
  rw [length, Nat.add_sub_cancel] at least
  omega

end Text

theorem Decimal.IsNormal.length_digits {d : Decimal} (normal : d.IsNormal) :
    (Text.decimalDigits d.digits).length = d.count := by
  have some := normal.some
  have upper := (Nat.length_toDigits_le_iff (by decide) some).mpr normal.high
  have lower := normal.low
  refine Nat.le_antisymm upper (Nat.le_of_not_lt fun short => ?_)
  have less := Decimal.lt_pow_length_toDigits d.digits
  have order := Nat.pow_le_pow_right (show 0 < 10 by decide)
    (show (Nat.toDigits 10 d.digits).length ≤ d.count - 1 by
      change (Nat.toDigits 10 d.digits).length < d.count at short
      omega)
  omega

/-! ## Reading a number -/

namespace Json

open Text

variable {whole fraction rest tail : List Char} {negative : Bool}

def signChars (negative : Bool) : List Char := if negative then ['-'] else []

/-- No digit of a number follows. -/
def EndsDigits (rest : List Char) : Prop := ∀ c ∈ rest.head?, isAsciiDigit c = false

/-- Nothing that belongs to a number follows. -/
def EndsNumber (rest : List Char) : Prop :=
  ∀ c ∈ rest.head?, isAsciiDigit c = false ∧ c ≠ '.' ∧ c ≠ 'e' ∧ c ≠ 'E'

theorem EndsNumber.endsDigits (ends : EndsNumber rest) : EndsDigits rest :=
  fun c first => (ends c first).1

theorem leadingDigits_append (numeral : IsDigits whole) (ends : EndsDigits rest) :
    leadingDigits (whole ++ rest) = whole := by
  rw [leadingDigits, List.takeWhile_append_of_pos numeral]
  cases rest with
  | nil => simp
  | cons c rest =>
    rw [List.takeWhile_cons_of_neg, List.append_nil]
    simp [ends c rfl]

/-- The part of a number before its point: a zero alone or digits that start with another one. -/
structure IsWhole (whole : List Char) : Prop where
  digits : IsDigits whole
  some : whole ≠ []
  zero : ∀ rest, whole = '0' :: rest → rest = []

/-- What is read once the digits before the point are. -/
def scanTail (text : List Char) (negative : Bool) (whole tail : List Char) :
    Except Failure (Json × List Char) :=
  let fraction := fractionDigits tail
  let afterFraction := if fraction.isEmpty then tail else tail.drop (fraction.length + 1)
  match exponentPart? afterFraction with
  | some (power, length) =>
    .ok (.num (Binary64.ofDecimal negative (ofDigits (whole ++ fraction)) (power - fraction.length)),
      afterFraction.drop length)
  | none =>
    if fraction.isEmpty then
      if digitLimit < whole.length then .error ⟨.integerTooLong whole.length, text⟩
      else .ok (.int (signed negative (ofDigits whole)), afterFraction)
    else
      .ok (.num (Binary64.ofDecimal negative (ofDigits (whole ++ fraction)) (-(fraction.length : Int))),
        afterFraction)

def wholePart (text : List Char) : List Char :=
  match text with
  | '0' :: _ => ['0']
  | _ => leadingDigits text

theorem wholePart_append (numeral : IsWhole whole) (ends : EndsDigits tail) :
    wholePart (whole ++ tail) = whole := by
  obtain ⟨digits, some, zero⟩ := numeral
  obtain ⟨first, others, rfl⟩ := List.exists_cons_of_ne_nil some
  unfold wholePart
  split
  next leadingZero =>
    obtain ⟨rfl, -⟩ := List.cons.inj leadingZero
    rw [zero others rfl]
  next => exact leadingDigits_append digits ends

theorem scanNumber_eq_scanTail (text : List Char) : scanNumber text =
    let negative := text.head? == some '-'
    let body := if negative then text.drop 1 else text
    if (wholePart body).isEmpty then .error ⟨.expectedValue, text⟩
    else scanTail text negative (wholePart body) (body.drop (wholePart body).length) :=
  rfl

theorem scanNumber_eq (numeral : IsWhole whole) (ends : EndsDigits tail) :
    scanNumber (signChars negative ++ (whole ++ tail)) =
      scanTail (signChars negative ++ (whole ++ tail)) negative whole tail := by
  have nonempty := numeral.some
  have first : whole.head? ≠ some '-' := fun minus =>
    absurd (numeral.digits '-' (List.mem_of_mem_head? minus)) (by decide)
  have sign : ((signChars negative ++ (whole ++ tail)).head? == some '-') = negative := by
    cases negative
    · obtain ⟨c, others, rfl⟩ := List.exists_cons_of_ne_nil nonempty
      simpa [signChars] using first
    · rfl
  have body : (if negative = true then (signChars negative ++ (whole ++ tail)).drop 1
      else signChars negative ++ (whole ++ tail)) = whole ++ tail := by
    cases negative <;> rfl
  rw [scanNumber_eq_scanTail]
  dsimp only
  rw [sign, body, wholePart_append numeral ends, if_neg (by simpa using nonempty),
    List.drop_left]

theorem fractionDigits_point (numeral : IsDigits fraction) (ends : EndsDigits rest) :
    fractionDigits ('.' :: (fraction ++ rest)) = fraction :=
  leadingDigits_append numeral ends

theorem fractionDigits_of_not_point (first : rest.head? ≠ some '.') : fractionDigits rest = [] := by
  unfold fractionDigits
  split
  · exact absurd rfl first
  · rfl

theorem EndsNumber.fractionDigits (ends : EndsNumber rest) : fractionDigits rest = [] :=
  fractionDigits_of_not_point fun point => (ends '.' point).2.1 rfl

theorem EndsNumber.exponentPart? (ends : EndsNumber rest) : exponentPart? rest = none := by
  cases rest with
  | nil => rfl
  | cons c rest =>
    obtain ⟨-, -, lower, upper⟩ := ends c rfl
    unfold Json.exponentPart?
    exact if_neg (by simp [lower, upper])

/-- The digits of an exponent, at least two of them. -/
def exponentDigits (power : Int) : List Char :=
  if (decimalDigits power.natAbs).length < 2 then '0' :: decimalDigits power.natAbs
  else decimalDigits power.natAbs

theorem isDigits_exponentDigits (power : Int) : IsDigits (exponentDigits power) := by
  unfold exponentDigits
  split
  · exact (isDigits_replicate_zero 1).append (isDigits_decimalDigits _)
  · exact isDigits_decimalDigits _

theorem ofDigits_exponentDigits (power : Int) : ofDigits (exponentDigits power) = power.natAbs := by
  unfold exponentDigits
  split
  · rw [ofDigits_zero_cons]
    exact ofDigits_decimalDigits _
  · exact ofDigits_decimalDigits _

theorem exponentDigits_ne_nil (power : Int) : exponentDigits power ≠ [] := by
  unfold exponentDigits
  split
  · exact List.cons_ne_nil _ _
  · exact Nat.toDigits_ne_nil

theorem signed_natAbs (i : Int) : signed (decide (i < 0)) i.natAbs = i := by
  unfold signed
  split
  next negative =>
    have less := of_decide_eq_true negative
    omega
  next notNegative =>
    have notLess := of_decide_eq_false (Bool.eq_false_iff.mpr notNegative)
    omega

theorem exponentPart?_exponentText (power : Int) (ends : EndsDigits rest) :
    exponentPart? (NumberLayout.exponentText power ++ rest) =
      some (power, (NumberLayout.exponentText power).length) := by
  have length : (NumberLayout.exponentText power).length = (exponentDigits power).length + 2 := rfl
  have read : leadingDigits (exponentDigits power ++ rest) = exponentDigits power :=
    leadingDigits_append (isDigits_exponentDigits power) ends
  have value := signed_natAbs power
  have some := exponentDigits_ne_nil power
  have text : NumberLayout.exponentText power ++ rest =
      'e' :: (if power < 0 then '-' else '+') :: (exponentDigits power ++ rest) := rfl
  rw [text, length]
  by_cases negative : power < 0
  · rw [decide_eq_true negative] at value
    rw [if_pos negative]
    unfold exponentPart?
    simp [read, some, ofDigits_exponentDigits, value, Nat.add_comm]
  · rw [decide_eq_false negative] at value
    rw [if_neg negative]
    unfold exponentPart?
    simp [read, some, ofDigits_exponentDigits, value, Nat.add_comm]

theorem scanTail_integer {text : List Char} (short : whole.length ≤ digitLimit)
    (ends : EndsNumber rest) :
    scanTail text negative whole rest = .ok (.int (signed negative (ofDigits whole)), rest) := by
  unfold scanTail
  simp [ends.fractionDigits, ends.exponentPart?, Nat.not_lt.mpr short]

theorem scanTail_fraction {text : List Char} (numeral : IsDigits fraction) (some : fraction ≠ [])
    (ends : EndsNumber rest) :
    scanTail text negative whole ('.' :: (fraction ++ rest)) =
      .ok (.num (Binary64.ofDecimal negative (ofDigits (whole ++ fraction))
        (-(fraction.length : Int))), rest) := by
  unfold scanTail
  simp [fractionDigits_point numeral ends.endsDigits, ends.exponentPart?, some]

/-- A fraction with its point, if there is one. -/
def pointed (fraction : List Char) : List Char := if fraction.isEmpty then [] else '.' :: fraction

theorem scanTail_exponent {text : List Char} (power : Int) (numeral : IsDigits fraction)
    (ends : EndsDigits rest) :
    scanTail text negative whole (pointed fraction ++ (NumberLayout.exponentText power ++ rest)) =
      .ok (.num (Binary64.ofDecimal negative (ofDigits (whole ++ fraction))
        (power - fraction.length)), rest) := by
  have letter : EndsDigits (NumberLayout.exponentText power ++ rest) := by
    rintro c ⟨⟩
    decide
  have exponent := exponentPart?_exponentText power ends
  unfold scanTail pointed
  by_cases empty : fraction = []
  · have none : fractionDigits (NumberLayout.exponentText power ++ rest) = [] :=
      fractionDigits_of_not_point (by simp [NumberLayout.exponentText])
    simp [empty, none, exponent]
  · simp [empty, fractionDigits_point numeral letter, exponent]

/-! ## Written numbers -/

variable {d : Decimal} {mantissa : Nat} {exponent : Int}

theorem isWhole_of_head (digits : IsDigits whole) (nonempty : whole ≠ [])
    (zero : whole.head? ≠ some '0') : IsWhole whole where
  digits := digits
  some := nonempty
  zero rest same := by
    rw [same] at zero
    exact absurd rfl zero

theorem isWhole_zero : IsWhole ['0'] where
  digits := isDigits_replicate_zero 1
  some := List.cons_ne_nil _ _
  zero _ same := (List.cons.inj same).2.symm

theorem head?_decimalDigits {n : Nat} (positive : 0 < n) : (decimalDigits n).head? ≠ some '0' := by
  intro zero
  obtain ⟨rest, same⟩ := List.head?_eq_some_iff.mp zero
  exact head_decimalDigits positive same

theorem isWhole_decimalDigits (n : Nat) : IsWhole (decimalDigits n) := by
  rcases Nat.eq_zero_or_pos n with rfl | positive
  · exact isWhole_zero
  · exact isWhole_of_head (isDigits_decimalDigits n) (decimalDigits_ne_nil n) (head?_decimalDigits positive)

theorem scanNumber_pointed (reads : d.IsReadAs mantissa exponent) (numeral : IsWhole whole)
    (digits : IsDigits fraction) (some : fraction ≠ []) (ends : EndsNumber rest)
    (short : ofDigits (whole ++ fraction) < 2 ^ 61)
    (same : d.value = ofDigits (whole ++ fraction) * 10 ^ (-(fraction.length : Int))) :
    scanNumber (signChars negative ++ (whole ++ '.' :: (fraction ++ rest))) =
      .ok (.num (.finite negative mantissa exponent), rest) := by
  have point : EndsDigits ('.' :: (fraction ++ rest)) := by
    rintro c ⟨⟩
    decide
  rw [scanNumber_eq numeral point, scanTail_fraction digits some ends,
    reads.ofDecimal_eq negative short same]

/-- Digits behind the point only. -/
theorem scanNumber_fractional (reads : d.IsReadAs mantissa exponent) {zeros : Nat}
    (power : d.power = -zeros - 1) (ends : EndsNumber rest) :
    scanNumber (signChars negative ++ (['0'] ++ '.' ::
      ((List.replicate zeros '0' ++ decimalDigits d.digits) ++ rest))) =
        .ok (.num (.finite negative mantissa exponent), rest) := by
  have read : ofDigits (['0'] ++ (List.replicate zeros '0' ++ decimalDigits d.digits)) =
      d.digits := by
    rw [List.singleton_append, ofDigits_zero_cons, ofDigits_append, ofDigits_replicate_zero,
      ofDigits_decimalDigits, Nat.zero_mul, Nat.zero_add]
  have count := reads.normal.some
  refine scanNumber_pointed reads isWhole_zero
    ((isDigits_replicate_zero zeros).append (isDigits_decimalDigits _)) (by simp [decimalDigits_ne_nil]) ends
    (read.trans_lt (reads.normal.digits_lt reads.short)) ?_
  rw [read, Decimal.value, Decimal.lastPower, List.length_append, List.length_replicate,
    reads.normal.length_digits]
  congr 2
  omega

/-- A whole number, with zeros up to its point and one behind it. -/
theorem scanNumber_whole (reads : d.IsReadAs mantissa exponent) {zeros : Nat}
    (power : d.power = d.count + zeros - 1) (high : d.power ≤ 15) (ends : EndsNumber rest) :
    scanNumber (signChars negative ++ ((decimalDigits d.digits ++ List.replicate zeros '0') ++ '.' ::
      (['0'] ++ rest))) = .ok (.num (.finite negative mantissa exponent), rest) := by
  have read : ofDigits (decimalDigits d.digits ++ List.replicate zeros '0' ++ ['0']) =
      d.digits * 10 ^ (zeros + 1) := by
    rw [ofDigits_append, ofDigits_append, ofDigits_replicate_zero, ofDigits_decimalDigits,
      List.length_replicate, List.length_singleton, Nat.add_zero, Nat.mul_assoc, ← pow_add]
    rfl
  have numeral : IsWhole (decimalDigits d.digits ++ List.replicate zeros '0') := by
    refine isWhole_of_head ((isDigits_decimalDigits _).append (isDigits_replicate_zero zeros))
      (by simp [decimalDigits_ne_nil]) ?_
    rw [List.head?_append_of_ne_nil _ (decimalDigits_ne_nil _)]
    exact head?_decimalDigits reads.normal.digits_pos
  -- The digits are read as one integer of at most 17 digits.
  have short : d.digits * 10 ^ (zeros + 1) < 2 ^ 61 := by
    calc d.digits * 10 ^ (zeros + 1) < 10 ^ d.count * 10 ^ (zeros + 1) :=
          Nat.mul_lt_mul_of_pos_right reads.normal.high (Nat.pow_pos (by decide))
      _ = 10 ^ (d.count + (zeros + 1)) := (pow_add _ _ _).symm
      _ ≤ 10 ^ 17 := Nat.pow_le_pow_right (by decide) (by omega)
      _ < 2 ^ 61 := by decide
  have count := reads.normal.some
  refine scanNumber_pointed reads numeral (isDigits_replicate_zero 1) (by simp) ends
    (read.trans_lt short) ?_
  rw [read, Decimal.value, Decimal.lastPower, power, List.length_singleton]
  push_cast
  rw [mul_assoc, ← zpow_natCast, ← zpow_add₀ (by norm_num)]
  congr 2
  push_cast
  omega

/-- Digits on both sides of the point. -/
theorem scanNumber_parted (reads : d.IsReadAs mantissa exponent) {length : Nat}
    (power : d.power = length - 1) (positive : 0 < length) (less : length < d.count)
    (ends : EndsNumber rest) :
    scanNumber (signChars negative ++ ((decimalDigits d.digits).take length ++ '.' ::
      ((decimalDigits d.digits).drop length ++ rest))) =
        .ok (.num (.finite negative mantissa exponent), rest) := by
  have digits := isDigits_decimalDigits d.digits
  have total := reads.normal.length_digits
  have read : ofDigits ((decimalDigits d.digits).take length ++ (decimalDigits d.digits).drop length) =
      d.digits := by rw [List.take_append_drop, ofDigits_decimalDigits]
  have numeral : IsWhole ((decimalDigits d.digits).take length) := by
    refine isWhole_of_head (fun c member => digits c (List.mem_of_mem_take member)) ?_ ?_
    · rw [ne_eq, List.take_eq_nil_iff, not_or]
      exact ⟨positive.ne', decimalDigits_ne_nil _⟩
    · rw [List.head?_take, if_neg positive.ne']
      exact head?_decimalDigits reads.normal.digits_pos
  refine scanNumber_pointed reads numeral (fun c member => digits c (List.mem_of_mem_drop member)) ?_
    ends (read.trans_lt (reads.normal.digits_lt reads.short)) ?_
  · rw [ne_eq, List.drop_eq_nil_iff]
    omega
  · rw [read, Decimal.value, Decimal.lastPower, List.length_drop, total]
    congr 2
    omega

theorem scanNumber_positional (reads : d.IsReadAs mantissa exponent) (high : d.power ≤ 15)
    (ends : EndsNumber rest) :
    scanNumber (signChars negative ++
      (NumberLayout.exchange.positional (decimalDigits d.digits) d.power ++ rest)) =
        .ok (.num (.finite negative mantissa exponent), rest) := by
  have total := reads.normal.length_digits
  unfold NumberLayout.positional
  by_cases fractional : d.power < 0
  · obtain ⟨zeros, same⟩ : ∃ zeros, (-d.power).toNat - 1 = zeros := ⟨_, rfl⟩
    rw [if_pos fractional, same]
    exact scanNumber_fractional reads (by omega) ends
  · rw [if_neg fractional]
    dsimp only
    by_cases whole : d.count ≤ d.power.toNat + 1
    · obtain ⟨zeros, same⟩ : ∃ zeros, d.power.toNat + 1 - d.count = zeros := ⟨_, rfl⟩
      rw [List.take_of_length_le (by omega), List.drop_of_length_le (by omega), NumberLayout.padRight,
        total, same, List.isEmpty_nil, if_pos rfl, List.append_assoc]
      exact scanNumber_whole reads (by omega) high ends
    · have padded : NumberLayout.padRight (d.power.toNat + 1)
          ((decimalDigits d.digits).take (d.power.toNat + 1)) =
            (decimalDigits d.digits).take (d.power.toNat + 1) := by
        rw [NumberLayout.padRight, List.length_take, total, Nat.min_eq_left (by omega), Nat.sub_self,
          List.replicate_zero, List.append_nil]
      have more : ((decimalDigits d.digits).drop (d.power.toNat + 1)).isEmpty = false := by
        rw [Bool.eq_false_iff, ne_eq, List.isEmpty_iff, List.drop_eq_nil_iff]
        omega
      rw [padded, more, if_neg (by decide), List.append_assoc, List.cons_append]
      exact scanNumber_parted reads (by omega) (Nat.succ_pos _) (by omega) ends

theorem scanNumber_scientific (reads : d.IsReadAs mantissa exponent) (ends : EndsNumber rest) :
    scanNumber (signChars negative ++
      (NumberLayout.exchange.scientific (decimalDigits d.digits) d.power ++ rest)) =
        .ok (.num (.finite negative mantissa exponent), rest) := by
  have digits := isDigits_decimalDigits d.digits
  have total := reads.normal.length_digits
  obtain ⟨first, others, same⟩ := List.exists_cons_of_ne_nil (decimalDigits_ne_nil d.digits)
  have text : NumberLayout.exchange.scientific (decimalDigits d.digits) d.power ++ rest =
      [first] ++ (pointed others ++ (NumberLayout.exponentText d.power ++ rest)) := by
    rw [same, NumberLayout.scientific, List.append_assoc, List.append_assoc]
    rfl
  have numeral : IsWhole [first] := by
    refine isWhole_of_head (fun c member => digits c ?_) (List.cons_ne_nil _ _) ?_
    · rw [List.mem_singleton.mp member, same]
      exact List.mem_cons_self
    · have head := head?_decimalDigits reads.normal.digits_pos
      rwa [same] at head
  have letter : EndsDigits (pointed others ++ (NumberLayout.exponentText d.power ++ rest)) := by
    unfold pointed
    split <;> rintro c ⟨⟩ <;> decide
  have fraction : IsDigits others := fun c member => digits c (same ▸ List.mem_cons_of_mem _ member)
  rw [text, scanNumber_eq numeral letter, scanTail_exponent d.power fraction ends.endsDigits,
    List.singleton_append, ← same, ofDigits_decimalDigits]
  rw [same, List.length_cons] at total
  refine congrArg (fun x => Except.ok (Json.num x, rest)) ?_
  refine reads.ofDecimal_eq negative (reads.normal.digits_lt reads.short) ?_
  rw [Decimal.value, Decimal.lastPower]
  congr 2
  omega

theorem magnitude_exchange (positive : mantissa ≠ 0) :
    NumberLayout.exchange.magnitude mantissa exponent =
      if -4 ≤ (shortestDigits mantissa exponent).power ∧
          (shortestDigits mantissa exponent).power ≤ 15 then
        NumberLayout.exchange.positional (decimalDigits (shortestDigits mantissa exponent).digits)
          (shortestDigits mantissa exponent).power
      else
        NumberLayout.exchange.scientific (decimalDigits (shortestDigits mantissa exponent).digits)
          (shortestDigits mantissa exponent).power := by
  rw [NumberLayout.magnitude, if_neg positive]
  rfl

theorem scanNumber_zero (negative : Bool) (ends : EndsNumber rest) :
    scanNumber (signChars negative ++ (NumberLayout.exchange.magnitude 0 exponent ++ rest)) =
      .ok (.num (.finite negative 0 (-1074)), rest) := by
  have text : NumberLayout.exchange.magnitude 0 exponent ++ rest =
      ['0'] ++ '.' :: (['0'] ++ rest) := rfl
  have point : EndsDigits ('.' :: (['0'] ++ rest)) := by
    rintro c ⟨⟩
    decide
  have digits : IsDigits ['0'] := isDigits_replicate_zero 1
  rw [text, scanNumber_eq isWhole_zero point, scanTail_fraction digits (List.cons_ne_nil _ _) ends]
  rfl

theorem scanNumber_write (canonical : Binary64.IsCanonical mantissa exponent)
    (ends : EndsNumber rest) :
    scanNumber ((NumberLayout.exchange.write (.finite negative mantissa exponent)).toList ++ rest) =
      .ok (.num (.finite negative mantissa exponent), rest) := by
  have text : (NumberLayout.exchange.write (.finite negative mantissa exponent)).toList ++ rest =
      signChars negative ++ (NumberLayout.exchange.magnitude mantissa exponent ++ rest) := by
    rw [NumberLayout.write, String.toList_ofList, List.append_assoc]
    cases negative <;> rfl
  rw [text]
  by_cases zero : mantissa = 0
  · obtain rfl := zero
    obtain rfl := canonical.normal.resolve_left (by decide)
    exact scanNumber_zero negative ends
  · have reads := shortestDigits_isReadAs canonical (Nat.pos_of_ne_zero zero)
    rw [magnitude_exchange zero]
    split
    next placed => exact scanNumber_positional reads placed.2 ends
    next => exact scanNumber_scientific reads ends

theorem toList_writeInteger (i : Int) :
    (writeInteger i).toList = signChars (decide (i < 0)) ++ decimalDigits i.natAbs := by
  rw [writeInteger, String.toList_ofList]
  by_cases negative : i < 0 <;> simp [signChars, negative]

theorem scanNumber_writeInteger {i : Int} (short : (decimalDigits i.natAbs).length ≤ digitLimit)
    (ends : EndsNumber rest) :
    scanNumber ((writeInteger i).toList ++ rest) = .ok (.int i, rest) := by
  rw [toList_writeInteger, List.append_assoc,
    scanNumber_eq (isWhole_decimalDigits _) ends.endsDigits, scanTail_integer short ends,
    ofDigits_decimalDigits, signed_natAbs]

/-! ## Integers in cells -/

theorem trimWith_eq_self {inClass : Char → Bool} {text : List Char}
    (clear : ∀ c ∈ text, inClass c = false) : trimWith inClass text = text := by
  have kept (part : List Char) (inside : ∀ c ∈ part, c ∈ text) : part.dropWhile inClass = part := by
    refine List.dropWhile_eq_self_iff.mpr fun some => ?_
    rw [clear _ (inside _ (List.getElem_mem some))]
    decide
  rw [trimWith, dropRightWhile, kept text fun _ member => member,
    kept text.reverse fun c member => List.mem_reverse.mp member, List.reverse_reverse]

theorem isNumberBlank_of_isAsciiDigit {c : Char} (digit : isAsciiDigit c = true) :
    Value.isNumberBlank c = false := by
  simp only [isAsciiDigit_iff] at digit
  have blank : c ≠ ' ' := by
    rintro rfl
    exact absurd digit (by decide)
  simp only [Value.isNumberBlank, Bool.or_eq_false_iff, Bool.and_eq_false_iff, decide_eq_false_iff_not,
    beq_eq_false_iff_ne]
  exact ⟨.inr (by omega), blank⟩

theorem splitSign_signChars {digits : List Char} (numeral : IsDigits digits) (nonempty : digits ≠ []) :
    splitSign (signChars negative ++ digits) = (negative, digits) := by
  cases negative with
  | true => rfl
  | false =>
    obtain ⟨c, others, rfl⟩ := List.exists_cons_of_ne_nil nonempty
    have digit := numeral c List.mem_cons_self
    change splitSign (c :: others) = _
    unfold splitSign
    split
    next same =>
      rw [(List.cons.inj same).1] at digit
      exact absurd digit (by decide)
    next same =>
      rw [(List.cons.inj same).1] at digit
      exact absurd digit (by decide)
    next => rfl

theorem numberOfText?_digits {digits : List Char} (numeral : IsDigits digits) (nonempty : digits ≠ [])
    (fits : fitsInt64 (signed negative (ofDigits digits)) = true) :
    Value.numberOfText? (String.ofList (signChars negative ++ digits)) =
      some (.int (signed negative (ofDigits digits))) := by
  have trimmed : trimWith Value.isNumberBlank (signChars negative ++ digits) =
      signChars negative ++ digits := by
    refine trimWith_eq_self fun c member => ?_
    rcases List.mem_append.mp member with sign | digit
    · cases negative
      · cases sign
      · rw [List.mem_singleton.mp sign]
        decide
    · exact isNumberBlank_of_isAsciiDigit (numeral c digit)
  have read : leadingDigits digits = digits := List.takeWhile_eq_self_iff.mpr numeral
  have none : leadingDigits [] = [] := rfl
  unfold Value.numberOfText?
  rw [String.toList_ofList, trimmed, splitSign_signChars numeral nonempty]
  simp [read, none, nonempty, fits]

end Json

namespace Decimal.IsNormal

open Text

variable {d : Decimal} (normal : d.IsNormal) (whole : (d.count : Int) ≤ d.power + 1)
include normal whole

/-- A decimal without places below the point is written as its digits and the zeros after them. -/
theorem positional_cell : NumberLayout.cell.positional (decimalDigits d.digits) d.power =
    decimalDigits d.digits ++ List.replicate d.lastPower.toNat '0' := by
  have total := normal.length_digits
  have some := normal.some
  have zeros : d.lastPower.toNat = d.power.toNat + 1 - d.count := by
    unfold lastPower
    omega
  unfold NumberLayout.positional
  rw [if_neg (by omega)]
  dsimp only
  rw [List.take_of_length_le (by omega), List.drop_of_length_le (by omega), NumberLayout.padRight,
    total, zeros, List.isEmpty_nil, if_pos rfl]
  exact List.append_nil _

theorem value_of_whole : d.value = (d.digits * 10 ^ d.lastPower.toNat : Nat) := by
  have some := normal.some
  have place : d.lastPower = d.lastPower.toNat := by
    unfold lastPower
    omega
  rw [value, place, zpow_natCast, Int.toNat_natCast]
  push_cast
  rfl

end Decimal.IsNormal

open Text in
theorem magnitude_cell_of_whole {mantissa n : Nat} {exponent : Int} (positive : 0 < n)
    (whole : (mantissa * 2 ^ exponent : ℚ) = n) (short : n < 10 ^ 16) :
    let text := NumberLayout.cell.magnitude mantissa exponent
    IsDigits text ∧ text ≠ [] ∧ ofDigits text = n := by
  obtain ⟨normal, nonnegative, count, power, value⟩ := roundedDigits_of_whole positive whole short
  have some : mantissa ≠ 0 := by
    rintro rfl
    have one : (0 : ℚ) < n := by exact_mod_cast positive
    simp [← whole] at one
  have found : NumberLayout.cell.magnitude mantissa exponent =
      if -4 ≤ (roundedDigits .toEven 16 mantissa exponent).power ∧
          (roundedDigits .toEven 16 mantissa exponent).power ≤ 15 then
        NumberLayout.cell.positional
          (decimalDigits (roundedDigits .toEven 16 mantissa exponent).digits)
          (roundedDigits .toEven 16 mantissa exponent).power
      else
        NumberLayout.cell.scientific
          (decimalDigits (roundedDigits .toEven 16 mantissa exponent).digits)
          (roundedDigits .toEven 16 mantissa exponent).power := by
    rw [NumberLayout.magnitude, if_neg some]
    rfl
  rw [found]
  generalize roundedDigits .toEven 16 mantissa exponent = d at normal nonnegative count power value
  rw [normal.value_of_whole count] at value
  rw [if_pos (by omega), normal.positional_cell count]
  refine ⟨(isDigits_decimalDigits _).append (isDigits_replicate_zero _),
    by simp [decimalDigits_ne_nil], ?_⟩
  rw [ofDigits_append, ofDigits_replicate_zero, ofDigits_decimalDigits, List.length_replicate,
    Nat.add_zero]
  exact_mod_cast value

end AdjacencyForest
