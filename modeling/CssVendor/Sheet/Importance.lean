import CssVendor.Text.Ascii
import CssVendor.Text.Blank

/-!
# Importance

A declaration is important if its value ends in an exclamation mark and the
word `important`, in any letter case and with blanks of any kind around the
mark. Neither belongs to the value.
-/

namespace CssVendor.Sheet

/-- The text before `! important` at the end of a text that has no blanks
around it, if it ends so. -/
def beforeImportant? (s : List Char) : Option (List Char) :=
  let head := s.take (s.length - 9)
  let word := s.drop (s.length - 9)
  if Text.isKeyword word "important" then
    match (Text.trimEnd head).reverse with
    | '!' :: rest => some (Text.trimEnd rest.reverse)
    | _ => none
  else none

/-- The value of a declaration without blanks around it, and whether it is
important. -/
def splitImportant (raw : List Char) : List Char × Bool :=
  let s := Text.trim raw
  match beforeImportant? s with
  | some value => (value, true)
  | none => (s, false)

end CssVendor.Sheet
