import CssVendor.Grammar.Stream

/-!
# Positions among siblings

The notation `An+B` of `:nth-child()` and its relatives: `even`, `odd`, a whole
number, or a multiple of `n` with a whole number added or taken away. A sign
that is written apart from its number may stand between them.
-/

namespace CssVendor.Grammar

open Syntax

variable {α : Type}

/-- Whether a part is a whole number, with a sign or without. -/
def isWholeNumber (signed : Bool) (p : Annotated α) : Bool :=
  match p.component with
  | .token ⟨.number, text⟩ => wholeNumber? text == some signed
  | _ => false

/-- The text of the number that a dimension begins with. -/
def dimensionNumber (text : List Char) : List Char :=
  text.take (numberLength text)

/-- Whether a name is `n-` followed by digits. -/
def isNDashDigits (name : List Char) : Bool :=
  match Text.lower name with
  | 'n' :: '-' :: d :: digits => (d :: digits).all Char.isDigit
  | _ => false

/-- What follows a whole number without a sign. -/
def afterUnsigned? (parts : Parts α) : Option (Parts α) :=
  match skipSpace parts with
  | p :: rest => if isWholeNumber false p then some rest else none
  | [] => none

/-- What follows the number added to a multiple of `n`, if there is one. -/
def afterAddend? (parts : Parts α) : Option (Parts α) :=
  match skipSpace parts with
  | p :: rest =>
      if isDelim '+' p || isDelim '-' p then afterUnsigned? rest
      else if isWholeNumber true p then some rest
      else some parts
  | [] => some parts

/-- What follows a multiple of `n`, given the name that ends it: `n` itself,
`n-` with a number still to come, or `n-` with digits in the name. -/
def afterMultiple? (name : List Char) (rest : Parts α) : Option (Parts α) :=
  if Text.isKeyword name "n" then afterAddend? rest
  else if Text.isKeyword name "n-" then afterUnsigned? rest
  else if isNDashDigits name then some rest
  else none

/-- What follows a position at the head of some parts. -/
def afterPosition? (parts : Parts α) : Option (Parts α) :=
  match skipSpace parts with
  | [] => none
  | p :: rest =>
      match p.component with
      | .token ⟨.number, text⟩ => (wholeNumber? text).map fun _ => rest
      | .token ⟨.dimension unit, text⟩ =>
          (wholeNumber? (dimensionNumber text)).bind fun _ =>
            afterMultiple? unit rest
      | .token ⟨.ident name, _⟩ =>
          match name with
          | '-' :: positive => afterMultiple? positive rest
          | _ =>
              if Text.isOneOf name ["even", "odd"] then some rest
              else afterMultiple? name rest
      | .token ⟨.delim '+', _⟩ =>
          match rest with
          | q :: rest =>
              (ident? q).bind fun name => afterMultiple? name rest
          | [] => none
      | _ => none

end CssVendor.Grammar
