import CssVendor.Grammar.Layer
import CssVendor.Grammar.MediaQuery
import CssVendor.Grammar.Supports

/-!
# Imports

Which preludes of `@import` are well formed: the address of a sheet, and after
it, each if need be, the layer it goes to, what must be supported and the media
it is for.
-/

namespace CssVendor.Grammar

open Syntax

/-- Whether a part is the address of a sheet: a string or a `url()`. -/
def isAddress (p : Annotated Unit) : Bool :=
  isString p || isUrl p.component

/-- The content of a function of the given name at the head of some parts, and
what follows it. -/
def readFunction? (name : String) (parts : Parts Unit) :
    Option (List Component × Parts Unit) :=
  match skipSpace parts with
  | ⟨.block ⟨.function found, _⟩ content _, _⟩ :: rest =>
      if Text.isKeyword found name then some (content, rest) else none
  | _ => none

/-- What follows the layer, if one is given well. -/
def afterLayer? (parts : Parts Unit) : Option (Parts Unit) :=
  match afterKeyword? ["layer"] parts, readFunction? "layer" parts with
  | some rest, _ => some rest
  | none, some (content, rest) =>
      if isLayerName (plainParts content) then some rest else none
  | none, none => some parts

/-- Whether components are a declaration that may be supported. -/
def isSupportsDeclaration (cs : List Component) : Bool :=
  match significant cs with
  | name :: colon :: value =>
      (ident? (⟨name, none⟩ : Annotated Unit)).isSome && colon.isToken .colon &&
        value.all Component.isClean
  | _ => false

/-- What follows the condition on what is supported, if one is given well. -/
def afterSupports? (parts : Parts Unit) : Option (Parts Unit) :=
  match readFunction? "supports" parts with
  | some (content, rest) =>
      if isSupportsCondition content || isSupportsDeclaration content then
        some rest
      else none
  | none => some parts

/-- Whether components are the prelude of `@import`. -/
def isImportPrelude (cs : List Component) : Bool :=
  match skipSpace (plainParts cs) with
  | [] => false
  | p :: rest =>
      isAddress p &&
        match (afterLayer? rest).bind afterSupports? with
        | some media => isMediaQueryList (componentsOf media)
        | none => false

end CssVendor.Grammar
