import AdjacencyForest.Text.Digit

/-!
# Percent escapes

In the path of an address `%` and two hexadecimal digits stand for a byte. The bytes of a path are
read as UTF-8; what is no character becomes U+FFFD.

Main statement: a text without percent signs and beyond-ASCII characters stands for itself
(`unescape_plain`).
-/
namespace AdjacencyForest.Text

def hexDigit? (c : Char) : Option Nat :=
  if isAsciiDigit c then some (asciiDigitValue c)
  else if 'a' ≤ c ∧ c ≤ 'f' then some (c.toNat - 'a'.toNat + 10)
  else if 'A' ≤ c ∧ c ≤ 'F' then some (c.toNat - 'A'.toNat + 10)
  else none

def utf8Bytes (c : Char) : List Nat :=
  let point := c.toNat
  if point < 0x80 then [point]
  else if point < 0x800 then [0xc0 + point / 0x40, 0x80 + point % 0x40]
  else if point < 0x10000 then
    [0xe0 + point / 0x1000, 0x80 + point / 0x40 % 0x40, 0x80 + point % 0x40]
  else [0xf0 + point / 0x40000, 0x80 + point / 0x1000 % 0x40, 0x80 + point / 0x40 % 0x40,
    0x80 + point % 0x40]

def pathBytes : List Char → List Nat
  | '%' :: a :: b :: rest =>
    match hexDigit? a, hexDigit? b with
    | some high, some low => (16 * high + low) :: pathBytes rest
    | _, _ => 0x25 :: pathBytes (a :: b :: rest)
  | c :: rest => utf8Bytes c ++ pathBytes rest
  | [] => []

def continuation? (byte : Nat) : Option Nat :=
  if 0x80 ≤ byte ∧ byte < 0xc0 then some (byte - 0x80) else none

/-- The character that a complete sequence of continuation bytes gives, from the bits before
them. -/
def charOfBytes? (least bits : Nat) (tail : List Nat) : Option Char :=
  match tail.mapM continuation? with
  | none => none
  | some parts =>
    let point := parts.foldl (fun value part => value * 0x40 + part) bits
    if least ≤ point ∧ Nat.isValidChar point then some (Char.ofNat point) else none

/-- The first character of a sequence of bytes and the count of its bytes. -/
def firstChar (byte : Nat) (rest : List Nat) : Char × Nat :=
  let attempt (least bits count : Nat) : Char × Nat :=
    if rest.length < count then (Char.ofNat 0xfffd, 0)
    else match charOfBytes? least bits (rest.take count) with
      | some c => (c, count)
      | none => (Char.ofNat 0xfffd, 0)
  if byte < 0x80 then (Char.ofNat byte, 0)
  else if 0xc0 ≤ byte ∧ byte < 0xe0 then attempt 0x80 (byte - 0xc0) 1
  else if 0xe0 ≤ byte ∧ byte < 0xf0 then attempt 0x800 (byte - 0xe0) 2
  else if 0xf0 ≤ byte ∧ byte < 0xf8 then attempt 0x10000 (byte - 0xf0) 3
  else (Char.ofNat 0xfffd, 0)

/-- The characters of a sequence of bytes; `skipped` bytes belong to the character before. -/
def charsOfBytes : (skipped : Nat) → List Nat → List Char
  | _, [] => []
  | skipped + 1, _ :: rest => charsOfBytes skipped rest
  | 0, byte :: rest =>
    let first := firstChar byte rest
    first.1 :: charsOfBytes first.2 rest

def unescapePath (path : String) : String :=
  String.ofList (charsOfBytes 0 (pathBytes path.toList))

theorem unescape_plain {path : List Char} (plain : ∀ c ∈ path, c ≠ '%' ∧ c.toNat < 0x80) :
    charsOfBytes 0 (pathBytes path) = path := by
  induction path with
  | nil => rfl
  | cons c rest ih =>
    obtain ⟨noPercent, ascii⟩ := plain c (by simp)
    have tail := ih fun d member => plain d (by simp [member])
    have bytes : pathBytes (c :: rest) = c.toNat :: pathBytes rest := by
      rw [pathBytes]
      · simp [utf8Bytes, ascii]
      · intro a b more same
        exact absurd same noPercent
    rw [bytes, charsOfBytes]
    simp [firstChar, ascii, Char.ofNat_toNat, tail]

end AdjacencyForest.Text
