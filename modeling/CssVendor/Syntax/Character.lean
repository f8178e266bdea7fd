/-!
# Characters

The classes of characters that tokens are made of. White space, line ends and
digits are ASCII alone; every character beyond ASCII is a name character, and
so is NUL.
-/

namespace CssVendor.Syntax

/-- The line ends of CSS. -/
def isNewline (c : Char) : Bool := c == '\n' || c == '\r' || c == '\x0c'

/-- The white space of CSS. -/
def isSpace (c : Char) : Bool := c == ' ' || c == '\t' || isNewline c

/-- Whether a character can begin a name. -/
def isNameStart (c : Char) : Bool :=
  c.isAlpha || c == '_' || c == '\x00' || 0x80 ≤ c.toNat

/-- Whether a character can stand inside a name. -/
def isNameChar (c : Char) : Bool :=
  isNameStart c || c.isDigit || c == '-'

/-- Whether a character is a hexadecimal digit. -/
def isHexDigit (c : Char) : Bool :=
  c.isDigit || ('a' ≤ c && c ≤ 'f') || ('A' ≤ c && c ≤ 'F')

/-- Characters that cannot be shown and must not stand in a bare address. -/
def isUnprintable (c : Char) : Bool :=
  (0x01 ≤ c.toNat && c.toNat ≤ 0x08) || c.toNat == 0x0B ||
    (0x0E ≤ c.toNat && c.toNat ≤ 0x1F) || c.toNat == 0x7F

/-- Whether the first character of a text, if any, has a property. -/
def headIs (p : Char → Bool) : List Char → Bool
  | c :: _ => p c
  | [] => false

/-- Stands for what cannot be written. -/
def replacement : Char := '\uFFFD'

end CssVendor.Syntax
