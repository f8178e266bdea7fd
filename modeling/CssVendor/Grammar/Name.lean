import CssVendor.Text.Ascii

/-!
# Names with a meaning

Names that grammars single out: those of custom properties, the words that
every property understands, and the names that authors may choose.
-/

namespace CssVendor.Grammar

/-- Whether a name is the name of a custom property. -/
def isCustomName : List Char → Bool
  | '-' :: '-' :: _ => true
  | _ => false

/-- The words that are a value of every property. -/
def wideKeywords : List String :=
  ["initial", "inherit", "unset", "revert", "revert-layer"]

/-- Whether a name may be chosen by an author: the words that are a value of
every property are taken, and so is `default`. -/
def isFreeName (name : List Char) : Bool :=
  !Text.isOneOf name ("default" :: wideKeywords)

end CssVendor.Grammar
