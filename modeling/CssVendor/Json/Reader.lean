import CssVendor.Json.Value

/-!
# Reading JSON

Reads a JSON text as RFC 8259 writes it, with nothing but white space around
the value. Each reader takes the text that is left and gives back what it has
read with what is then left, or nothing if the text is not well formed.

Values nest, so the reader of values carries a bound on its steps. Every step
uses up a character, so the length of the text is bound enough.
-/

namespace CssVendor.Json

/-- The white space of JSON. -/
def isSpace (c : Char) : Bool :=
  c == ' ' || c == '\t' || c == '\n' || c == '\r'

/-- The text without the white space it begins with. -/
def skipSpace (s : List Char) : List Char := s.dropWhile isSpace

/-- The value of a decimal digit. -/
def digitValue (c : Char) : Nat := c.toNat - '0'.toNat

/-- The value of a hexadecimal digit. -/
def hexValue? (c : Char) : Option Nat :=
  if c.isDigit then some (digitValue c)
  else if 'a' ≤ c && c ≤ 'f' then some (c.toNat - 'a'.toNat + 10)
  else if 'A' ≤ c && c ≤ 'F' then some (c.toNat - 'A'.toNat + 10)
  else none

/-- The code unit that four hexadecimal digits write. -/
def codeUnit? (a b c d : Char) : Option Nat := do
  let a ← hexValue? a
  let b ← hexValue? b
  let c ← hexValue? c
  let d ← hexValue? d
  return ((a * 16 + b) * 16 + c) * 16 + d

/-- The character that a one-letter escape stands for. -/
def escaped? : Char → Option Char
  | '"' => some '"'
  | '\\' => some '\\'
  | '/' => some '/'
  | 'b' => some '\x08'
  | 'f' => some '\x0c'
  | 'n' => some '\n'
  | 'r' => some '\r'
  | 't' => some '\t'
  | _ => none

/-- Reads the pieces of a string up to its closing quote, the opening one
being read already. -/
def readPieces : List Char → Option (List StringPiece × List Char)
  | [] => none
  | '"' :: rest => some ([], rest)
  | '\\' :: 'u' :: a :: b :: c :: d :: rest => do
      let n ← codeUnit? a b c d
      let (pieces, rest) ← readPieces rest
      return (.unit n :: pieces, rest)
  | '\\' :: c :: rest => do
      let c ← escaped? c
      let (pieces, rest) ← readPieces rest
      return (.char c :: pieces, rest)
  | c :: rest =>
      if c.toNat < 0x20 then none
      else do
        let (pieces, rest) ← readPieces rest
        return (.char c :: pieces, rest)

/-- Reads a string after its opening quote. -/
def readString (s : List Char) : Option (Option String × List Char) := do
  let (pieces, rest) ← readPieces s
  return ((StringPiece.decode pieces).map String.ofList, rest)

/-- Reads one or more digits. -/
def readDigits (s : List Char) : Option (List Nat × List Char) :=
  let digits := s.takeWhile Char.isDigit
  if digits.isEmpty then none
  else some (digits.map digitValue, s.dropWhile Char.isDigit)

/-- Reads the digits before the point: a zero stands alone. -/
def readWhole (s : List Char) : Option (List Nat × List Char) :=
  match s with
  | '0' :: rest =>
      if (rest.head?.map Char.isDigit).getD false then none
      else some ([0], rest)
  | _ => readDigits s

/-- Reads the point and the digits after it, if there is one. -/
def readFraction (s : List Char) : Option (Option (List Nat) × List Char) :=
  match s with
  | '.' :: rest => do
      let (digits, rest) ← readDigits rest
      return (some digits, rest)
  | _ => some (none, s)

/-- Reads the exponent, if there is one. -/
def readExponent (s : List Char) :
    Option (Option (Bool × List Nat) × List Char) :=
  match s with
  | c :: rest =>
      if c == 'e' || c == 'E' then do
        let (negative, rest) := match rest with
          | '-' :: rest => (true, rest)
          | '+' :: rest => (false, rest)
          | _ => (false, rest)
        let (digits, rest) ← readDigits rest
        return (some (negative, digits), rest)
      else some (none, s)
  | [] => some (none, s)

/-- Reads a number. -/
def readNumeral (s : List Char) : Option (Numeral × List Char) := do
  let (negative, s) := match s with
    | '-' :: rest => (true, rest)
    | _ => (false, s)
  let (whole, s) ← readWhole s
  let (fraction, s) ← readFraction s
  let (exponent, s) ← readExponent s
  return (⟨negative, whole, fraction, exponent⟩, s)

/-- Reads the white space and the colon between a key and its value. -/
def readColon (s : List Char) : Option (List Char) :=
  match skipSpace s with
  | ':' :: rest => some rest
  | _ => none

mutual
/-- Reads a value, with the white space before it, in at most so many
steps. -/
def readValue : Nat → List Char → Option (Value × List Char)
  | 0, _ => none
  | steps + 1, s =>
      match skipSpace s with
      | 'n' :: 'u' :: 'l' :: 'l' :: rest => some (.null, rest)
      | 't' :: 'r' :: 'u' :: 'e' :: rest => some (.bool true, rest)
      | 'f' :: 'a' :: 'l' :: 's' :: 'e' :: rest => some (.bool false, rest)
      | '"' :: rest => do
          let (text, rest) ← readString rest
          return (.string text, rest)
      | '[' :: rest =>
          match skipSpace rest with
          | ']' :: rest => some (.array [], rest)
          | _ => do
              let (items, rest) ← readItems steps rest
              return (.array items, rest)
      | '\x7b' :: rest =>
          match skipSpace rest with
          | '\x7d' :: rest => some (.object [], rest)
          | _ => do
              let (members, rest) ← readMembers steps rest
              return (.object members, rest)
      | s => do
          let (n, rest) ← readNumeral s
          return (.number n, rest)

/-- Reads the items of an array that is not empty, and its closing bracket. -/
def readItems : Nat → List Char → Option (List Value × List Char)
  | 0, _ => none
  | steps + 1, s => do
      let (item, rest) ← readValue steps s
      match skipSpace rest with
      | ']' :: rest => return ([item], rest)
      | ',' :: rest =>
          let (items, rest) ← readItems steps rest
          return (item :: items, rest)
      | _ => none

/-- Reads the members of an object that is not empty, and its closing
brace. -/
def readMembers :
    Nat → List Char → Option (List (Option String × Value) × List Char)
  | 0, _ => none
  | steps + 1, s =>
      match skipSpace s with
      | '"' :: rest => do
          let (key, rest) ← readString rest
          let rest ← readColon rest
          let (value, rest) ← readValue steps rest
          match skipSpace rest with
          | '\x7d' :: rest => return ([(key, value)], rest)
          | ',' :: rest =>
              let (members, rest) ← readMembers steps rest
              return ((key, value) :: members, rest)
          | _ => none
      | _ => none
end

/-- Reads a whole JSON text. -/
def read? (text : String) : Option Value :=
  let s := text.toList
  match readValue (2 * s.length + 2) s with
  | some (value, rest) =>
      if (skipSpace rest).isEmpty then some value else none
  | none => none

end CssVendor.Json
