import CssVendor.Fault
import CssVendor.Grammar.Sheet

/-!
# Parsing a sheet

A text is first shown to a validator and then, if it is accepted, cut into a
tree. A text that is not accepted leaves no record.

What the validator accepts, and what it says of a text that it does not, is a
parameter: the tree of an accepted text does not depend on it. The program runs
with the grammar for a validator.
-/

namespace CssVendor.Sheet

/-- Something that tells which texts are style sheets. -/
class Validator where
  accepts : String → Bool
  /-- What is wrong with a text that is not accepted. -/
  reason : String → String

/-- The grammar. It tells which texts are sheets, but not in whose words they
are refused: all have the same reason, which stands in for any. -/
instance Validator.grammar : Validator where
  accepts css := Grammar.isSheet (Syntax.components css.toList)
  reason _ := "not a style sheet"

/-- The tree of a text, and the records of reading it. -/
def parse [Validator] (css : String) : Except Fault (Block × List Record) :=
  if Validator.accepts css then .ok (tree (Syntax.components css.toList))
  else .error (.malformedSheet (Validator.reason css))

end CssVendor.Sheet
