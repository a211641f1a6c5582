import AdjacencyForest.Json.Basic
import AdjacencyForest.Number.Layout
import AdjacencyForest.Number.IntegerText
import AdjacencyForest.Text.Quoted

/-!
# Writing data values

Two written forms. `Json.print` is the exchange form: ASCII only, with other characters escaped by
UTF-16 units and a blank after `:` and `,`. `Json.display` is the form of messages, with quoted
texts and the words `None`, `True` and `False`.

Main statement: lists are written item by item between brackets (`printItems_cons`).
-/
namespace AdjacencyForest.Json

open Text

def escapedUnit (unit : Nat) : List Char := '\\' :: 'u' :: hexadecimal 4 unit

def utf16Units (point : Nat) : List Nat :=
  if point < 0x10000 then [point]
  else [0xd800 + (point - 0x10000) / 0x400, 0xdc00 + (point - 0x10000) % 0x400]

def escapedText (point : Nat) : List Char :=
  if point = 0x22 then ['\\', '"']
  else if point = 0x5c then ['\\', '\\']
  else if point = 0x08 then ['\\', 'b']
  else if point = 0x09 then ['\\', 't']
  else if point = 0x0a then ['\\', 'n']
  else if point = 0x0c then ['\\', 'f']
  else if point = 0x0d then ['\\', 'r']
  else if 0x20 ≤ point ∧ point < 0x7f then [Char.ofNat point]
  else (utf16Units point).flatMap escapedUnit

/-- A sequence of code points as a text in the exchange form. -/
def printPoints (points : List Nat) : List Char :=
  '"' :: (points.flatMap escapedText ++ ['"'])

def printText (text : String) : List Char := printPoints (text.toList.map Char.toNat)

mutual

/-- A value in the exchange form, as characters. -/
def printChars : Json → List Char
  | .null => "null".toList
  | .bool true => "true".toList
  | .bool false => "false".toList
  | .int i => (writeInteger i).toList
  | .num x => (NumberLayout.exchange.write x).toList
  | .str s => printText s
  | .illFormed points => printPoints points
  | .arr items => '[' :: (printItems items ++ [']'])
  | .obj fields => '\x7b' :: (printFields fields ++ ['\x7d'])

/-- Items with `, ` between them. -/
def printItems : List Json → List Char
  | [] => []
  | [item] => printChars item
  | item :: next :: rest => printChars item ++ ',' :: ' ' :: printItems (next :: rest)

/-- Fields with `, ` between them. -/
def printFields : List (String × Json) → List Char
  | [] => []
  | [(name, value)] => printText name ++ ':' :: ' ' :: printChars value
  | (name, value) :: next :: rest =>
    printText name ++ ':' :: ' ' :: (printChars value ++ ',' :: ' ' :: printFields (next :: rest))

end

theorem printItems_cons (item next : Json) (rest : List Json) :
    printItems (item :: next :: rest) =
      printChars item ++ ',' :: ' ' :: printItems (next :: rest) := by
  simp [printItems]

def print (value : Json) : String := String.ofList (printChars value)

mutual

/-- A value in the form of messages, as characters. -/
def displayChars : Json → List Char
  | .null => "None".toList
  | .bool true => "True".toList
  | .bool false => "False".toList
  | .int i => (writeInteger i).toList
  | .num x => (NumberLayout.message.write x).toList
  | .str s => quotedChars s.toList
  | .illFormed points => (quotedPoints points).toList
  | .arr items => '[' :: (displayItems items ++ [']'])
  | .obj fields => '\x7b' :: (displayFields fields ++ ['\x7d'])

/-- Items with `, ` between them. -/
def displayItems : List Json → List Char
  | [] => []
  | [item] => displayChars item
  | item :: next :: rest => displayChars item ++ ',' :: ' ' :: displayItems (next :: rest)

/-- Fields with `, ` between them. -/
def displayFields : List (String × Json) → List Char
  | [] => []
  | [(name, value)] => quotedChars name.toList ++ ':' :: ' ' :: displayChars value
  | (name, value) :: next :: rest =>
    quotedChars name.toList ++
      ':' :: ' ' :: (displayChars value ++ ',' :: ' ' :: displayFields (next :: rest))

end

def display (value : Json) : String := String.ofList (displayChars value)

/-- The value as it stands in the middle of a message: a text without quotes. -/
def plain : Json → String
  | .str s => s
  | value => value.display

end AdjacencyForest.Json
