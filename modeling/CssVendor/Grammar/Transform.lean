import CssVendor.Grammar.DataType

/-!
# Transformations and images

The functions that move, turn, stretch or skew, with the types of their
arguments, and what can be seen as an image.
-/

namespace CssVendor.Grammar

open Syntax

/-! ## Transformations -/

/-- What an argument of a transformation can be. -/
inductive TransformArgument
  | number
  /-- A number or a percentage. -/
  | factor
  | length
  /-- A length or a percentage. -/
  | extent
  /-- An angle, or zero without a unit. -/
  | angle
  deriving DecidableEq, Repr, Inhabited

/-- Whether a component may be an argument. -/
def TransformArgument.admits (a : TransformArgument) (c : Component) : Bool :=
  match a with
  | .number => isNumber c
  | .factor => isNumber c || DataType.percentage.admits c
  | .length => DataType.length.admits c
  | .extent => DataType.lengthPercentage.admits c
  | .angle =>
      DataType.angle.admits c ||
        match c with
        | .token ⟨.number, text⟩ => numberValue text == 0
        | _ => false

/-- The transformations by their names: the arguments that each needs, and
those that it may have besides. -/
def transforms :
    List (String × List TransformArgument × List TransformArgument) :=
  [("matrix", List.replicate 6 .number, []),
   ("matrix3d", List.replicate 16 .number, []),
   ("translate", [.extent], [.extent]), ("translatex", [.extent], []),
   ("translatey", [.extent], []), ("translatez", [.length], []),
   ("translate3d", [.extent, .extent, .length], []),
   ("scale", [.factor], [.factor]), ("scalex", [.factor], []),
   ("scaley", [.factor], []), ("scalez", [.factor], []),
   ("scale3d", [.factor, .factor, .factor], []), ("rotate", [.angle], []),
   ("rotatex", [.angle], []), ("rotatey", [.angle], []),
   ("rotatez", [.angle], []),
   ("rotate3d", [.number, .number, .number, .angle], []),
   ("skew", [.angle], [.angle]), ("skewx", [.angle], []),
   ("skewy", [.angle], []), ("perspective", [.length], [])]

/-- Whether the arguments between commas are those that a transformation
takes. -/
def areArguments :
    List TransformArgument → List TransformArgument → List (Parts Unit) → Bool
  | [], _, [] => true
  | [], optional, segments =>
      (segments.zip optional).length == segments.length &&
        (segments.zip optional).all fun (segment, a) =>
          isOne (fun p => a.admits p.component) segment
  | _ :: _, _, [] => false
  | a :: needed, optional, segment :: segments =>
      isOne (fun p => a.admits p.component) segment &&
        areArguments needed optional segments

/-- Whether a component is a transformation. -/
def isTransform : Component → Bool
  | .block ⟨.function name, _⟩ content _ =>
      match transforms.lookup (String.ofList (Text.lower name)) with
      | some (needed, optional) =>
          areArguments needed optional (splitCommas (plainParts content))
      | none => false
  | _ => false

/-! ## Images -/

/-- The functions that make an image. -/
def imageFunctions : List String :=
  ["linear-gradient", "repeating-linear-gradient", "radial-gradient",
   "repeating-radial-gradient", "conic-gradient", "repeating-conic-gradient",
   "-webkit-linear-gradient", "-webkit-repeating-linear-gradient",
   "-webkit-radial-gradient", "-webkit-repeating-radial-gradient",
   "-webkit-gradient", "-moz-linear-gradient",
   "-moz-repeating-linear-gradient", "-moz-radial-gradient",
   "-moz-repeating-radial-gradient", "-o-linear-gradient",
   "-o-repeating-linear-gradient", "-o-radial-gradient",
   "-o-repeating-radial-gradient", "image-set", "-webkit-image-set"]

/-- Whether a component is an image: an address, the absence of one, or the
result of a function. The arguments of the function are not looked into. -/
def isImage : Component → Bool
  | .token ⟨.ident name, _⟩ => Text.isKeyword name "none"
  | .block ⟨.function name, text⟩ content closer =>
      if Text.isOneOf name imageFunctions then content.any fun c => !c.isBlank
      else isUrl (.block ⟨.function name, text⟩ content closer)
  | c => isUrl c

end CssVendor.Grammar
