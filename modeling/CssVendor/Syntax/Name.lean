import CssVendor.Syntax.Character

/-!
# Names and escapes

A name is a run of name characters and escapes. An escape writes a character
by its code in hexadecimal digits or, behind a backslash, by itself.

The functions named `…Length` measure, from the head of what is left, how many
characters belong to a name or an escape. An escape is measured when its
backslash is met and then passed over, so that the recursion follows the text.
-/

namespace CssVendor.Syntax

/-! ## Escapes -/

/-- The length of the line end at the head of a text. -/
def newlineLength : List Char → Nat
  | '\r' :: '\n' :: _ => 2
  | c :: _ => if isNewline c then 1 else 0
  | [] => 0

/-- The hexadecimal digits of an escape, six at most. -/
def escapeDigits (s : List Char) : List Char :=
  (s.take 6).takeWhile isHexDigit

/-- The length of the white space that ends a hexadecimal escape: one
character, or one line end. -/
def escapeEndLength (s : List Char) : Nat :=
  if headIs isNewline s then newlineLength s
  else if headIs isSpace s then 1 else 0

/-- The length of an escape after its backslash. -/
def escapeLength (s : List Char) : Nat :=
  let digits := escapeDigits s
  if digits.isEmpty then min 1 s.length
  else digits.length + escapeEndLength (s.drop digits.length)

/-- The value of a hexadecimal digit. -/
def hexDigitValue (c : Char) : Nat :=
  if c.isDigit then c.toNat - '0'.toNat
  else c.toLower.toNat - 'a'.toNat + 10

/-- The number that hexadecimal digits write. -/
def hexValue (digits : List Char) : Nat :=
  digits.foldl (fun n c => 16 * n + hexDigitValue c) 0

/-- The character with a given code, if there is one that can be escaped. -/
def ofCode (code : Nat) : Char :=
  if code == 0 || 0x10FFFF < code || (0xD800 ≤ code && code ≤ 0xDFFF) then
    replacement
  else Char.ofNat code

/-- The character that stands for one written as `c`. -/
def plainValue (c : Char) : Char := if c == '\x00' then replacement else c

/-- The character that an escape writes, given the text after its
backslash. -/
def escapeValue (s : List Char) : Char :=
  let digits := escapeDigits s
  if digits.isEmpty then
    match s with
    | c :: _ => plainValue c
    | [] => replacement
  else ofCode (hexValue digits)

/-! ## Names -/

/-- Whether an escape begins after a backslash: anything but a line end. -/
def startsEscape (afterBackslash : List Char) : Bool :=
  !headIs isNewline afterBackslash

/-- Whether an identifier begins at the head of a text. A hyphen before a
backslash begins one even if no escape follows; the name is then the hyphen
alone. -/
def startsIdent : List Char → Bool
  | '-' :: '\\' :: _ => true
  | '-' :: c :: _ => isNameStart c || c == '-'
  | '\\' :: rest => startsEscape rest
  | c :: _ => isNameStart c
  | [] => false

/-- The length of the name at the head of a text, of which the first `pending`
characters are known to belong to it. -/
def nameLengthFrom : Nat → List Char → Nat
  | _, [] => 0
  | pending + 1, _ :: s => nameLengthFrom pending s + 1
  | 0, c :: s =>
      if isNameChar c then nameLengthFrom 0 s + 1
      else if c == '\\' && startsEscape s then
        nameLengthFrom (escapeLength s) s + 1
      else 0

/-- The length of the name at the head of a text. -/
def nameLength (s : List Char) : Nat := nameLengthFrom 0 s

/-- The value of a name written with escapes, after its first `pending`
characters. -/
def unescapeFrom : Nat → List Char → List Char
  | _, [] => []
  | pending + 1, _ :: s => unescapeFrom pending s
  | 0, c :: s =>
      if c == '\\' then escapeValue s :: unescapeFrom (escapeLength s) s
      else plainValue c :: unescapeFrom 0 s

/-- The value of a name written with escapes. -/
def unescape (s : List Char) : List Char := unescapeFrom 0 s

end CssVendor.Syntax
