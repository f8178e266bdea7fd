import CssVendor.Grammar.Definition
import CssVendor.Grammar.Value

/-!
# Registrations

The body of `@property`, which registers a custom property: the definition of
its values, whether elements inherit it, and the value it has at first, each
in a declaration. If one of them is declared again, the last declaration
counts.
-/

namespace CssVendor.Grammar

open Syntax

variable {α : Type}

/-- What has been said of a custom property. -/
structure Registration (α : Type) where
  definition : Option Definition
  inherits : Bool
  initial : Option (Parts α)
  deriving Inhabited

namespace Registration

/-- Of which nothing has been said. -/
def empty : Registration α := ⟨none, false, none⟩

/-- The definition that a value writes: the text of one string. -/
def definition? (value : Parts α) : Option Definition :=
  match skipSpace value with
  | ⟨.token ⟨.string, text⟩, _⟩ :: rest =>
      if isEnd rest then Definition.ofText? (stringValue text) else none
  | _ => none

/-- A registration with one more declaration, if that is a good one. -/
def declare? (r : Registration α) (name : List Char) (value : Parts α) :
    Option (Registration α) :=
  if Text.isKeyword name "syntax" then
    (definition? value).map fun d => { r with definition := some d }
  else if Text.isKeyword name "inherits" then
    if isOne (isKeyword ["true", "false"]) value then
      some { r with inherits := true }
    else none
  else if Text.isKeyword name "initial-value" then
    some { r with initial := some value }
  else none

/-- A registration with further declarations. -/
def declareAll? (r : Registration α) :
    List (Parts α) → Option (Registration α)
  | [] => some r
  | parts :: rest => do
      let (name, value) ← nameAndValue? parts
      let r ← r.declare? name (withoutComments value)
      r.declareAll? rest

/-- Whether everything has been said, and the value at first fits. Only where
any value will do, there need not be one. -/
def isComplete (r : Registration α) : Bool :=
  r.inherits &&
    match r.definition, r.initial with
    | some definition, some value => definition.admits value
    | some .universal, none => true
    | _, none => false
    | none, _ => false

end Registration

/-- Whether stretches of declarations register a custom property. -/
def isRegistration (stretches : List (Parts α)) : Bool :=
  match Registration.empty.declareAll? stretches with
  | some r => r.isComplete
  | none => false

end CssVendor.Grammar
