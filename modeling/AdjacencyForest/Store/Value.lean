import AdjacencyForest.Json.Parser

/-!
# Stored values

The store holds four kinds of values. `Value.compareWith` orders them: null first, numbers by value,
texts by code points. A column has an `Affinity`: the kind into which it turns what it is given, and
what it is compared with.

Main statements: `equals_int` and `equals_text` say when a comparison for equality holds, and
`text_of_int` that an integer is written in plain decimal form.
-/
namespace AdjacencyForest

/-- A value as the store holds it; an integer has 64 bits. -/
inductive Value where
  | null
  | int (value : Int)
  | real (value : Binary64)
  | text (value : String)
  deriving DecidableEq, Repr, Inhabited

/-- The kind of value that a column prefers. -/
inductive Affinity where
  /-- Texts that write a number become numbers, whole numbers become integers. -/
  | numeric
  /-- Numbers become texts. -/
  | text
  /-- Values stay as they are. -/
  | none
  deriving DecidableEq, Repr

def fitsInt64 (i : Int) : Bool := -0x8000000000000000 ≤ i && i < 0x8000000000000000

theorem fitsInt64_iff {i : Int} :
    fitsInt64 i = true ↔ -0x8000000000000000 ≤ i ∧ i < 0x8000000000000000 := by
  simp [fitsInt64]

namespace Value

/-- The value as text; null has none. -/
def text? : Value → Option String
  | .null => none
  | .int i => some (writeInteger i)
  | .real x => some (NumberLayout.stored.write x)
  | .text s => some s

theorem text_of_int (i : Int) : (Value.int i).text? = some (writeInteger i) := rfl

/-- A number that is whole and inside the 64-bit range is an integer. -/
def wholeOfReal (x : Binary64) : Value :=
  match x.toInt? with
  | some i => if -0x8000000000000000 < i ∧ i < 0x7fffffffffffffff then .int i else .real x
  | none => .real x

def isNumberBlank (c : Char) : Bool :=
  (0x09 ≤ c.toNat && c.toNat ≤ 0x0d) || c == ' '

/-- A number read from the whole of a text: a sign, digits with at most one point, an exponent. -/
def numberOfText? (text : String) : Option Value :=
  let (negative, body) := splitSign (Text.trimWith isNumberBlank text.toList)
  let whole := Json.leadingDigits body
  let afterWhole := body.drop whole.length
  let fraction :=
    Json.leadingDigits (if afterWhole.head? == some '.' then afterWhole.drop 1 else [])
  let pointed := afterWhole.head? == some '.'
  let rest := if pointed then afterWhole.drop (fraction.length + 1) else afterWhole
  if whole.isEmpty && fraction.isEmpty then none
  else
    let digits := Text.ofDigits (whole ++ fraction)
    match rest with
    | [] =>
      let i := signed negative digits
      if !pointed && fitsInt64 i then some (.int i)
      else some (.real (Binary64.ofDecimal negative digits (-(fraction.length : Int))))
    | _ => match Json.exponentPart? rest with
      | some (power, length) =>
        if length = rest.length then
          some (.real (Binary64.ofDecimal negative digits (power - fraction.length)))
        else none
      | none => none

def stored (affinity : Affinity) (value : Value) : Value :=
  match affinity, value with
  | .numeric, .text s => match numberOfText? s with
    | some (.real x) => wholeOfReal x
    | some number => number
    | none => value
  | .numeric, .real x => wholeOfReal x
  | .text, .int _ | .text, .real _ => match value.text? with
    | some s => .text s
    | none => value
  | _, _ => value

/-- The value with which a column of the affinity compares itself. -/
def comparand (affinity : Affinity) (value : Value) : Value :=
  match affinity, value with
  | .numeric, .text s => (numberOfText? s).getD value
  | .text, .int _ | .text, .real _ => match value.text? with
    | some s => .text s
    | none => value
  | _, _ => value

/-- The place of the value's kind in the order of all values. -/
def rank : Value → Nat
  | .null => 0
  | .int _ | .real _ => 1
  | .text _ => 2

def compareText (s t : String) : Ordering :=
  if s < t then .lt else if s = t then .eq else .gt

/-- The order of two values, total on what the store holds. -/
def compareWith : Value → Value → Ordering
  | .int i, .int j => compare i j
  | .int i, .real y => match y.compareInt? i with
    | some order => order.swap
    | none => .eq
  | .real x, .int j => (x.compareInt? j).getD .eq
  | .real x, .real y => (x.compare? y).getD .eq
  | .text s, .text t => compareText s t
  | a, b => compare a.rank b.rank

def equals : Value → Value → Bool
  | .null, _ | _, .null => false
  | a, b => compareWith a b == .eq

theorem compareText_eq_iff {s t : String} : compareText s t = .eq ↔ s = t := by
  unfold compareText
  by_cases less : s < t
  · have different : s ≠ t := fun same => by subst same; exact absurd less (String.lt_irrefl s)
    simp [less, different]
  · by_cases same : s = t <;> simp [less, same]

theorem equals_int {i j : Int} : equals (.int i) (.int j) = true ↔ i = j := by
  simp [equals, compareWith]

theorem equals_text {s t : String} : equals (.text s) (.text t) = true ↔ s = t := by
  simp [equals, compareWith, compareText_eq_iff]

def isNull : Value → Bool
  | .null => true
  | _ => false

def toJson : Value → Json
  | .null => .null
  | .int i => .int i
  | .real x => .num x
  | .text s => .str s

end Value

/-- Why a data value cannot be handed to the store. -/
inductive BindFault where
  /-- The integer has more than 64 bits. -/
  | tooLarge
  /-- Lists and objects have no stored form. -/
  | unsupported (kind : String)
  deriving DecidableEq, Repr

namespace Value

/-- The value that stands for data handed to the store; a missing number is null. -/
def ofJson : Json → Except BindFault Value
  | .null => .ok .null
  | .bool b => .ok (.int (if b then 1 else 0))
  | .int i => if fitsInt64 i then .ok (.int i) else .error .tooLarge
  | .num .nan => .ok .null
  | .num x => .ok (.real x)
  | .str s => .ok (.text s)
  | .illFormed _ => .error (.unsupported "str")
  | .arr _ => .error (.unsupported "list")
  | .obj _ => .error (.unsupported "dict")

end Value
end AdjacencyForest
