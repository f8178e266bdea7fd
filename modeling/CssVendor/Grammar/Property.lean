import CssVendor.Grammar.DataType

/-!
# Properties

What is known of properties by their names. A property that is known takes a
calculation of its own type as it stands, however deep the brackets in it are
nested; so the properties are listed whose value can be a single number or
quantity.
-/

namespace CssVendor.Grammar

open Syntax

/-- Properties that measure an extent along a line. -/
def extentProperties : List String :=
  ["width", "height", "min-width", "min-height", "max-width", "max-height",
   "block-size", "inline-size", "min-block-size", "min-inline-size",
   "max-block-size", "max-inline-size", "top", "right", "bottom", "left",
   "inset", "inset-block", "inset-block-start", "inset-block-end",
   "inset-inline", "inset-inline-start", "inset-inline-end", "margin",
   "margin-top", "margin-right", "margin-bottom", "margin-left",
   "margin-block", "margin-block-start", "margin-block-end", "margin-inline",
   "margin-inline-start", "margin-inline-end", "padding", "padding-top",
   "padding-right", "padding-bottom", "padding-left", "padding-block",
   "padding-block-start", "padding-block-end", "padding-inline",
   "padding-inline-start", "padding-inline-end", "scroll-margin",
   "scroll-margin-top", "scroll-margin-right", "scroll-margin-bottom",
   "scroll-margin-left", "scroll-padding", "scroll-padding-top",
   "scroll-padding-right", "scroll-padding-bottom", "scroll-padding-left",
   "gap", "row-gap", "column-gap", "flex-basis", "font-size", "line-height",
   "text-indent", "vertical-align", "border-radius",
   "border-top-left-radius", "border-top-right-radius",
   "border-bottom-left-radius", "border-bottom-right-radius",
   "background-position", "background-position-x", "background-position-y",
   "background-size", "stroke-width", "stroke-dashoffset", "translate",
   "transform-origin", "perspective-origin", "text-decoration-thickness"]

/-- Properties that measure a length. -/
def lengthProperties : List String :=
  ["border-width", "border-top-width", "border-right-width",
   "border-bottom-width", "border-left-width", "border-block-width",
   "border-inline-width", "outline-width", "letter-spacing", "word-spacing",
   "perspective"]

/-- Properties whose value is a number. -/
def numberProperties : List String :=
  ["opacity", "flex-grow", "flex-shrink", "line-height", "aspect-ratio",
   "scale", "animation-iteration-count", "font-weight", "fill-opacity",
   "stroke-opacity", "stroke-miterlimit", "tab-size"]

/-- Properties that measure a time. -/
def timeProperties : List String :=
  ["animation-duration", "animation-delay", "transition-duration",
   "transition-delay"]

/-- Properties that measure an angle. -/
def angleProperties : List String := ["rotate"]

/-- The properties of a type. -/
def propertiesOf : DataType → List String
  | .lengthPercentage => extentProperties
  | .length => lengthProperties
  | .number => numberProperties
  | .time => timeProperties
  | .angle => angleProperties
  | _ => []

/-- Whether a component is a value of a property, as a calculation of its
type. -/
def isCalculationFor (property : List Char) (c : Component) : Bool :=
  [DataType.lengthPercentage, .length, .number, .time, .angle].any fun type =>
    Text.isOneOf property (propertiesOf type) && type.admits c

/-- Whether components are one such component. -/
def isTypedValue (property : List Char) (cs : List Component) : Bool :=
  match significant cs with
  | [c] => isCalculationFor property c
  | _ => false

end CssVendor.Grammar
