import CssVendor.Grammar.Condition
import CssVendor.Grammar.Feature

/-!
# Media queries

Which preludes of `@media` are lists of media queries. A query names a kind of
medium, or states a condition on its features, or both. A list may break off:
its last query need not be complete.
-/

namespace CssVendor.Grammar

open Syntax

/-- The features of a medium that are known. -/
def mediaFeatures : FeatureTable :=
  [("width", .length), ("height", .length), ("device-width", .length),
   ("device-height", .length), ("aspect-ratio", .ratio),
   ("device-aspect-ratio", .ratio), ("resolution", .resolution),
   ("-webkit-device-pixel-ratio", .number),
   ("-moz-device-pixel-ratio", .number), ("color", .integer),
   ("color-index", .integer), ("monochrome", .integer), ("grid", .flag),
   ("horizontal-viewport-segments", .integer),
   ("vertical-viewport-segments", .integer), ("orientation", .word),
   ("overflow-block", .word), ("overflow-inline", .word),
   ("display-mode", .word), ("scan", .word), ("update", .word),
   ("environment-blending", .word), ("color-gamut", .word),
   ("dynamic-range", .word), ("inverted-colors", .word), ("pointer", .word),
   ("hover", .word), ("any-pointer", .word), ("any-hover", .word),
   ("nav-controls", .word), ("video-color-gamut", .word),
   ("video-dynamic-range", .word), ("scripting", .word),
   ("prefers-reduced-motion", .word), ("prefers-reduced-transparency", .word),
   ("prefers-contrast", .word), ("forced-colors", .word),
   ("prefers-color-scheme", .word), ("prefers-reduced-data", .word)]

/-- What a media query can ask. -/
def mediaVocabulary : Vocabulary where
  question := readFeature mediaFeatures
  function? _ _ := none

/-- What follows the kind of medium that a query begins with. The word before
it may be one of the two that can stand there, but then a kind must follow. -/
def afterMedium? (parts : Parts Asked) : Option (Parts Asked) :=
  afterIdent? ((afterKeyword? ["only", "not"] parts).getD parts)

/-- Accepts a query. -/
def readMediaQuery (parts : Parts Asked) : Asked :=
  match afterMedium? parts with
  | none => readCondition mediaVocabulary true parts
  | some rest =>
      match afterKeyword? ["and"] rest with
      | some condition => readCondition mediaVocabulary false condition
      | none => finish rest

/-- Whether parts are the queries of a list, of which the last one may break
off. -/
def areMediaQueries : List (Parts Asked) → Bool
  | [] => true
  | [last] =>
      match readMediaQuery last with
      | .ok () => true
      | .error failure => failure == .early
  | query :: queries => isOk (readMediaQuery query) && areMediaQueries queries

/-- Whether components are a list of media queries. The empty list is one. -/
def isMediaQueryList (cs : List Component) : Bool :=
  areMediaQueries (splitCommas (mediaVocabulary.parts cs))

end CssVendor.Grammar
