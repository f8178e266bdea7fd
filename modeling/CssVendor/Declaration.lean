/-!
# Declarations

One `name: value` pair of a rule. The value and the importance flag together
are the payload; a filled-in form copies the payload of another declaration
under a new name.
-/

namespace CssVendor

/-- A property with its value. -/
structure Declaration where
  name : String
  value : String
  important : Bool
  deriving DecidableEq, Repr, Inhabited

namespace Declaration

/-- The same payload under another name. -/
def rename (d : Declaration) (name : String) : Declaration :=
  { d with name := name }

/-- The declaration as one line of text, without a semicolon. -/
def text (d : Declaration) : String :=
  d.name ++ ": " ++ d.value ++ if d.important then " !important" else ""

@[simp] theorem name_rename (d : Declaration) (name : String) :
    (d.rename name).name = name := rfl

@[simp] theorem value_rename (d : Declaration) (name : String) :
    (d.rename name).value = d.value := rfl

@[simp] theorem important_rename (d : Declaration) (name : String) :
    (d.rename name).important = d.important := rfl

end Declaration

end CssVendor
