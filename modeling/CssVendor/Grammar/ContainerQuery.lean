import CssVendor.Grammar.Condition
import CssVendor.Grammar.Feature
import CssVendor.Grammar.Value

/-!
# Container queries

Which preludes of `@container` are well formed: a condition on the size or the
style of a container, behind the container's name if it has one. The function
`style()` has conditions of its own, which ask about declarations.
-/

namespace CssVendor.Grammar

open Syntax

/-- The features of a container that are known. -/
def containerFeatures : FeatureTable :=
  [("width", .length), ("height", .length), ("inline-size", .length),
   ("block-size", .length), ("aspect-ratio", .ratio), ("orientation", .word)]

/-- What a style query can ask. -/
def styleVocabulary : Vocabulary where
  question parts :=
    if isStyleFeature parts then .ok () else .error .wrong
  function? _ _ := none

/-- What a container query can ask. -/
def containerVocabulary : Vocabulary where
  question := readFeature containerFeatures
  function? name content :=
    if Text.isKeyword name "style" then
      some (styleVocabulary.read (styleVocabulary.parts content))
    else none

/-- Whether a name may be the name of a container. -/
def isContainerName (name : List Char) : Bool :=
  isFreeName name && !Text.isOneOf name ["none", "and", "not", "or"]

/-- What follows the name of a container, if there is one. -/
def afterContainerName (parts : Parts Asked) : Parts Asked :=
  match skipSpace parts with
  | p :: rest =>
      match ident? p with
      | some name => if isContainerName name then rest else parts
      | none => parts
  | [] => parts

/-- Whether components are a container query. -/
def isContainerQuery (cs : List Component) : Bool :=
  isOk (readCondition containerVocabulary true
    (afterContainerName (containerVocabulary.parts cs)))

end CssVendor.Grammar
