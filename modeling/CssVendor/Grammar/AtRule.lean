import CssVendor.Grammar.ContainerQuery
import CssVendor.Grammar.Layer
import CssVendor.Grammar.MediaQuery
import CssVendor.Grammar.Selector
import CssVendor.Grammar.Supports

/-!
# At-rules

What is known of an at-rule by its name: what may stand before its block,
whether it can do without one, what the block holds, and whether the rule may
stand inside a style rule. At-rules that are not known may look like anything.
-/

namespace CssVendor.Grammar

open Syntax

/-- The at-rules that are known at every level of a sheet. -/
inductive AtRule
  | media
  | supports
  | container
  | layer
  | scope
  | startingStyle
  | mozDocument
  /-- A style rule nested in another, which is known only there. -/
  | nest
  | page
  | fontFace
  | fontFeatureValues
  | fontPaletteValues
  | counterStyle
  | viewport
  | viewTransition
  | keyframes
  /-- An at-rule that is not known. -/
  | unknown
  deriving DecidableEq, Repr, Inhabited

/-- What the block of an at-rule holds. -/
inductive AtRuleContent
  /-- Rules and, inside a style rule, declarations. -/
  | rules
  | declarations
  /-- Declarations, and the margin boxes of a page. -/
  | pageBody
  /-- The features of a font, group by group. -/
  | fontFeatures
  /-- Items of which those that are not understood are passed over. -/
  | lenient
  /-- Any value. -/
  | anyValue
  deriving DecidableEq, Repr, Inhabited

namespace AtRule

/-- The names of at-rules, vendors' forms included. -/
def names : List (String × AtRule) :=
  [("media", .media), ("supports", .supports), ("container", .container),
   ("layer", .layer), ("scope", .scope), ("starting-style", .startingStyle),
   ("-moz-document", .mozDocument), ("page", .page),
   ("font-face", .fontFace), ("font-feature-values", .fontFeatureValues),
   ("font-palette-values", .fontPaletteValues),
   ("counter-style", .counterStyle), ("viewport", .viewport),
   ("-ms-viewport", .viewport), ("view-transition", .viewTransition),
   ("keyframes", .keyframes), ("-webkit-keyframes", .keyframes),
   ("-moz-keyframes", .keyframes), ("-o-keyframes", .keyframes),
   ("-ms-keyframes", .keyframes)]

/-- The at-rule of a name, which is given in lower case, inside or outside
style rules. -/
def ofName (nested : Bool) (name : String) : AtRule :=
  if nested && name == "nest" then .nest
  else (names.lookup name).getD .unknown

/-- What the block of an at-rule holds. -/
def content : AtRule → AtRuleContent
  | .media | .supports | .container | .layer | .scope | .startingStyle
  | .mozDocument | .nest => .rules
  | .counterStyle | .viewport => .declarations
  | .page => .pageBody
  | .fontFeatureValues => .fontFeatures
  | .fontFace | .fontPaletteValues | .viewTransition | .keyframes => .lenient
  | .unknown => .anyValue

/-- Whether an at-rule may stand inside a style rule. -/
def isNestable (rule : AtRule) : Bool :=
  rule.content == .rules || rule == .unknown

/-- Whether an at-rule may have no block. Layers are not announced inside a
style rule. -/
def isStatement (nested : Bool) : AtRule → Bool
  | .layer => !nested
  | .unknown => true
  | _ => false

/-! ## Preludes -/

/-- The pages that have a name of their own. -/
def pageClasses : List String := ["left", "right", "first", "last", "blank"]

/-- Whether parts are pages with a name of their own, each behind a colon. -/
def arePageClasses : (behindColon : Bool) → Parts Unit → Bool
  | behindColon, [] => !behindColon
  | true, p :: rest =>
      if p.kind == .space then arePageClasses true rest
      else isKeyword pageClasses p && arePageClasses false rest
  | false, p :: rest =>
      if p.isToken .colon then arePageClasses true rest else isEnd (p :: rest)

/-- Whether parts say which pages a page rule is for. -/
def isPageSelector (parts : Parts Unit) : Bool :=
  match skipSpace parts with
  | [] => false
  | p :: rest =>
      if isIdent p then arePageClasses false rest
      else p.isToken .colon && arePageClasses true rest

/-- Whether a part may name an animation. -/
def isKeyframesName (p : Annotated Unit) : Bool :=
  isString p ||
    match ident? p with
    | some name => isFreeName name && !Text.isKeyword name "none"
    | none => false

/-- Whether parts name a family of fonts: a string, or one word or more. -/
def isFamilyName (parts : Parts Unit) : Bool :=
  let words := parts.filter fun p => p.kind != .space
  isOne isString parts || (!words.isEmpty && words.all isIdent)

/-- Whether a part is a name that begins with two hyphens. -/
def isCustomIdent (p : Annotated Unit) : Bool :=
  match ident? p with
  | some name => isCustomName name
  | none => false

/-- Whether a part is the beginning of an address that every document has:
`url-prefix()` with nothing in it or an empty string. -/
def isEmptyPrefix (p : Annotated Unit) : Bool :=
  match p.component with
  | .block ⟨.function name, _⟩ content _ =>
      Text.isKeyword name "url-prefix" &&
        match significant content with
        | [] => true
        | [.token ⟨.string, text⟩] => (stringValue text).isEmpty
        | _ => false
  | _ => false

/-- What follows a pair of parentheses. What is in them is not looked into. -/
def afterRound? (parts : Parts Unit) : Option (Parts Unit) :=
  match skipSpace parts with
  | p :: rest => if (round? p).isSome then some rest else none
  | [] => none

/-- Whether parts bound a scope: the selectors from which on it reaches and,
behind `to`, those up to which, each in parentheses. Selectors that are not
understood are passed over. -/
def isScope (parts : Parts Unit) : Bool :=
  let rest := (afterRound? parts).getD parts
  match afterKeyword? ["to"] rest with
  | some limit => ((afterRound? limit).map isEnd).getD false
  | none => isEnd rest

/-- Whether components may stand between the at-keyword of a rule and its
block or its end. -/
def isPrelude (rule : AtRule) (cs : List Component) (hasBlock : Bool) : Bool :=
  let parts := plainParts cs
  match rule with
  | .media => isMediaQueryList cs
  | .supports => isSupportsCondition cs
  | .container => isContainerQuery cs
  | .layer => isLayerPrelude cs hasBlock
  | .scope => isScope parts
  | .mozDocument => isOne isEmptyPrefix parts
  | .nest => isNestPrelude cs
  | .page => isEnd parts || (splitCommas parts).all isPageSelector
  | .fontFeatureValues => (splitCommas parts).all isFamilyName
  | .fontPaletteValues => isOne isCustomIdent parts
  | .counterStyle =>
      isOne (fun p => DataType.customIdent.admits p.component) parts
  | .keyframes => isOne isKeyframesName parts
  | .startingStyle | .fontFace | .viewport | .viewTransition => isEnd parts
  | .unknown => isAnyValue cs

end AtRule

/-! ## Rules inside blocks -/

/-- The boxes in the margin of a page. -/
def marginBoxes : List String :=
  ["top-left-corner", "top-left", "top-center", "top-right",
   "top-right-corner", "left-top", "left-middle", "left-bottom", "right-top",
   "right-middle", "right-bottom", "bottom-left-corner", "bottom-left",
   "bottom-center", "bottom-right", "bottom-right-corner"]

/-- The groups of features that a font can have. -/
def fontFeatures : List String :=
  ["stylistic", "historical-forms", "styleset", "character-variant", "swash",
   "ornaments", "annotation"]

end CssVendor.Grammar
