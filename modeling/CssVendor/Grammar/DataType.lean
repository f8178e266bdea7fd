import CssVendor.Grammar.AnyValue
import CssVendor.Grammar.Calculation

/-!
# Data types

The types of value that grammars are made of and that one component can
write. Numbers and quantities may be written as calculations.
-/

namespace CssVendor.Grammar

open Syntax

/-- A type of value. -/
inductive DataType
  | number
  | integer
  | length
  | percentage
  | lengthPercentage
  | angle
  | time
  | resolution
  | string
  | url
  /-- A name that an author may choose. -/
  | customIdent
  deriving DecidableEq, Repr, Inhabited

/-- The units of resolution. -/
def resolutionUnits : List String := ["dpi", "dpcm", "dppx", "x"]

/-- Whether a component is a number without a unit, or a calculation of
one. -/
def isNumber (c : Component) : Bool :=
  match calculated? .number c with
  | some (.number _) => true
  | _ => c.isToken .number

/-- Whether a component is a quantity of a measure, or a calculation that comes
to one. -/
def isMeasured (m : Measure) (c : Component) : Bool :=
  match c with
  | .token t => (Quantity.ofToken? m t).isSome
  | .block _ _ _ =>
      match calculated? m c with
      | some (.measured _ _) => true
      | _ => false

/-- Whether a component is a length or a percentage, as the measure has it. A
calculation need not come to anything yet, and a number without a unit is a
length too. -/
def isExtent (m : Measure) (c : Component) : Bool :=
  (calculated? m c).isSome || c.isToken .number || isMeasured m c

/-- Whether a component is the address of something: a `url()`, whose argument
may be quoted. -/
def isUrl : Component → Bool
  | .token t => t.kind == .url
  | .block ⟨.function name, _⟩ content _ =>
      Text.isKeyword name "url" && isQuotedAddress content
  | .block _ _ _ => false

/-- Whether a component writes a value of a type. -/
def DataType.admits (type : DataType) (c : Component) : Bool :=
  match type with
  | .number => isNumber c
  | .integer => isIndex c
  | .length => isExtent .length c
  | .percentage => isMeasured .percentage c
  | .lengthPercentage => isExtent .extent c
  | .angle => isMeasured .angle c
  | .time => isMeasured .time c
  | .resolution =>
      match c with
      | .token ⟨.dimension unit, _⟩ => Text.isOneOf unit resolutionUnits
      | _ => false
  | .string => c.isToken .string
  | .url => isUrl c
  | .customIdent =>
      match c with
      | .token ⟨.ident name, _⟩ => isFreeName name
      | _ => false

/-- What follows a value of a type. -/
def DataType.after? {α : Type} (type : DataType) (parts : Parts α) :
    Option (Parts α) :=
  match skipSpace parts with
  | p :: rest => if type.admits p.component then some rest else none
  | [] => none

end CssVendor.Grammar
