/-!
# Blank characters and trimmed text

White space as Unicode counts it, and texts with the blanks at their ends
taken off. The CSS reader has a narrower notion of white space of its own
(`Syntax.isSpace`); this one serves the texts that are cut out of a sheet.
-/

namespace CssVendor.Text

/-- The code points of the Unicode property `White_Space`, in order. -/
def blankCodes : List Nat :=
  [0x9, 0xA, 0xB, 0xC, 0xD, 0x20, 0x85, 0xA0, 0x1680,
   0x2000, 0x2001, 0x2002, 0x2003, 0x2004, 0x2005, 0x2006, 0x2007,
   0x2008, 0x2009, 0x200A, 0x2028, 0x2029, 0x202F, 0x205F, 0x3000]

/-- Whether a character is Unicode white space. -/
def isBlank (c : Char) : Bool := blankCodes.contains c.toNat

/-- The text without the blanks it begins with. -/
def trimStart (s : List Char) : List Char := s.dropWhile isBlank

/-- The text without the blanks it ends with. -/
def trimEnd (s : List Char) : List Char := (s.reverse.dropWhile isBlank).reverse

/-- The text without the blanks at either end. -/
def trim (s : List Char) : List Char := trimEnd (trimStart s)

/-- There are twenty-five blank characters. -/
example : blankCodes.length = 25 := by decide

end CssVendor.Text
