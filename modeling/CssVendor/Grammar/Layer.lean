import CssVendor.Grammar.Stream

/-!
# Layers

The names of cascade layers: words joined by full stops, with nothing in
between. An at-rule lists them with commas.
-/

namespace CssVendor.Grammar

open Syntax

variable {α : Type}

/-- Whether parts go on with the name of a layer, and nothing follows it. -/
def isLayerRest : Parts α → Bool
  | dot :: p :: rest =>
      if isDelim '.' dot && isIdent p then isLayerRest rest
      else isEnd (dot :: p :: rest)
  | parts => isEnd parts

/-- Whether parts are the name of a layer. -/
def isLayerName (parts : Parts α) : Bool :=
  match skipSpace parts with
  | p :: rest => isIdent p && isLayerRest rest
  | [] => false

/-- How many layers a list names, if it is well formed. A list that ends in a
comma, like an empty one, names none. -/
def layerCount? (segments : List (Parts α)) : Option Nat :=
  match segments.reverse with
  | [] => some 0
  | last :: before =>
      if !before.all isLayerName then none
      else if isEnd last then some 0
      else if isLayerName last then some segments.length
      else none

/-- Whether components are the prelude of `@layer`: a block belongs to one
layer or to a nameless one, and without a block there must be names. -/
def isLayerPrelude (cs : List Component) (hasBlock : Bool) : Bool :=
  match layerCount? (splitCommas (plainParts cs)) with
  | none => false
  | some count => if hasBlock then count ≤ 1 else 0 < count

end CssVendor.Grammar
