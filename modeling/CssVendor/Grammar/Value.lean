import CssVendor.Grammar.Property
import CssVendor.Vendor

/-!
# Values of declarations

A property may have any value: one that is not understood is kept for the
browser to judge. Only `all`, with or without a vendor's mark, is held to the
words that every property understands. An exclamation mark at the top level of
a value must be the one of `!important`, with nothing behind it. A block in
curly brackets may stand at the top level only in the value of a custom
property, whose name begins with two hyphens.
-/

namespace CssVendor.Grammar

open Syntax

variable {α : Type}

/-- The property that stands for all others, and the forms that vendors might
have of it. -/
def allProperties : List String :=
  "all" :: Vendor.all.map fun v => v.apply "all"

/-- Whether parts are a value that a property may have. -/
def isValueFor (property : List Char) (value : Parts α) : Bool :=
  if isCustomName property then isAnyValue (componentsOf value)
  else if Text.isOneOf property allProperties then
    isOne (isKeyword wideKeywords) value
  else
    isAnyValue (componentsOf value) ||
      isTypedValue property (componentsOf value)

/-- Whether parts, from the first exclamation mark on, are `!important`. -/
def isImportance : Parts α → Bool
  | [] => true
  | mark :: rest =>
      isDelim '!' mark &&
        match afterKeyword? ["important"] rest with
        | some rest => isEnd rest
        | none => false

/-- Whether parts are a value that a property may have, with or without
`!important`. Where the value stands in brackets, a semicolon ends it, and
nothing may be left then. -/
def isValue (property : List Char) (parts : Parts α) : Bool :=
  let parts := withoutComments parts
  let value := parts.takeWhile fun p =>
    !isDelim '!' p && !p.isToken .semicolon
  isValueFor property value && isImportance (parts.drop value.length)

/-- The name of a declaration, and the parts behind its colon. -/
def nameAndValue? : Parts α → Option (List Char × Parts α)
  | p :: rest =>
      match ident? p, rest.dropWhile Annotated.isBlank with
      | some name, colon :: value =>
          if colon.isToken .colon then some (name, value) else none
      | _, _ => none
  | [] => none

/-- Whether parts are a declaration that a style query may ask for. -/
def isStyleFeature (parts : Parts α) : Bool :=
  match nameAndValue? (skipSpace parts) with
  | some (name, value) => isValue name value
  | none => false

/-- Whether parts are a declaration. -/
def isDeclaration (parts : Parts α) : Bool :=
  match nameAndValue? parts with
  | some (name, value) =>
      isValue name value &&
        (isCustomName name || value.all fun p => p.curly?.isNone)
  | none => false

/-- Whether parts are a declaration of a custom property. -/
def isCustomDeclaration (parts : Parts α) : Bool :=
  match nameAndValue? parts with
  | some (name, value) => isCustomName name && isValue name value
  | none => false

end CssVendor.Grammar
