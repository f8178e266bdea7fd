/-!
# Letter case

CSS keywords are compared without regard to the case of the letters A to Z;
all other characters stand for themselves. `Char.toLower` changes exactly
those letters.
-/

namespace CssVendor.Text

/-- The text with A to Z in lower case. -/
def lower (s : List Char) : List Char := s.map Char.toLower

/-- Whether a text is a keyword, given in lower case, whatever its letter
case. -/
def isKeyword (s : List Char) (keyword : String) : Bool :=
  lower s == keyword.toList

/-- Whether a text is one of a list of keywords, given in lower case. -/
def isOneOf (s : List Char) (keywords : List String) : Bool :=
  keywords.any (isKeyword s)

@[simp] theorem lower_length (s : List Char) : (lower s).length = s.length := by
  simp [lower]

end CssVendor.Text
