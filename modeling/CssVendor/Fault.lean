/-!
# Faults

Everything that can end an operation early, and how each fault is told to the
user.
-/

namespace CssVendor

/-- Why an operation failed. -/
inductive Fault
  /-- A declaration has no property name. -/
  | unnamedProperty (block : String) (index : Nat)
  /-- The style sheet is not well formed. -/
  | malformedSheet (reason : String)
  /-- The options are not a JSON text of the expected shape. -/
  | malformedOptions
  /-- A file could not be read as text. -/
  | unreadable (path : String)
  deriving DecidableEq, Repr, Inhabited

/-- The fault in the user's words. -/
def Fault.message : Fault → String
  | .unnamedProperty block index =>
      "declaration #" ++ Nat.repr index ++ " in \x60" ++ block ++
        "\x60 has an empty property name"
  | .malformedSheet reason => "failed to parse stylesheet: " ++ reason
  | .malformedOptions => "invalid plugin options"
  | .unreadable path => "failed to read " ++ path

end CssVendor
