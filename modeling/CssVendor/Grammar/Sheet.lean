import CssVendor.Grammar.AtRule
import CssVendor.Grammar.Import
import CssVendor.Grammar.Registration
import CssVendor.Sheet.Reader

/-!
# Well-formed sheets

Which texts are accepted as style sheets. A sheet, and a group outside style
rules, holds rules; the body of a style rule, and a group inside one, holds
declarations too. Whatever is written must fit its grammar, but names of
properties, features and at-rules need not be known, and the end of the text
closes everything that is open.

For every block it is worked out, the innermost first, what its content is
well formed as.
-/

namespace CssVendor.Grammar

open Syntax Sheet

/-- What the content of a block is well formed as. -/
structure Verdict where
  /-- A group of rules outside style rules. -/
  group : Bool
  /-- The body of a style rule, or a group inside one. -/
  body : Bool
  /-- Declarations only. -/
  declarations : Bool
  /-- The body of a page rule. -/
  pageBody : Bool
  /-- Groups of features of a font. -/
  fontFeatures : Bool
  /-- One such group. -/
  featureGroup : Bool
  /-- The registration of a custom property. -/
  registration : Bool
  deriving DecidableEq, Repr, Inhabited

/-! ## At-rules -/

/-- Whether the content of a block is any value. -/
def holdsAnyValue : Component → Bool
  | .block _ content _ => isAnyValue content
  | .token _ => false

/-- Whether a block holds what the block of an at-rule should hold. -/
def AtRuleContent.admits (content : AtRuleContent) (nested : Bool)
    (block : Component) (verdict : Verdict) : Bool :=
  match content with
  | .rules => if nested then verdict.body else verdict.group
  | .declarations => verdict.declarations
  | .pageBody => verdict.pageBody
  | .fontFeatures => verdict.fontFeatures
  | .lenient => true
  | .anyValue => holdsAnyValue block

/-- Whether an at-rule is well formed, inside or outside style rules. -/
def isGoodAtRule (nested : Bool) (keyword : Token) (before : Parts Verdict)
    (block : Option (Annotated Verdict × Verdict)) : Bool :=
  let rule := AtRule.ofName nested (atRuleName keyword)
  rule.isPrelude (componentsOf before) block.isSome &&
    (!nested || rule.isNestable) &&
    match block with
    | none => rule.isStatement nested
    | some (p, verdict) => rule.content.admits nested p.component verdict

/-! ## Sequences of items -/

/-- Whether an item of a sheet or of a group outside style rules is well
formed. -/
def isOuterItem : Item Verdict → Bool
  | .gap => true
  | .atRule keyword before block => isGoodAtRule false keyword before block
  | .rule before (_, verdict) =>
      isRulePrelude false (componentsOf before) && verdict.body
  | .stretch _ _ => false

/-- Whether an item of a body is well formed. -/
def isInnerItem : Item Verdict → Bool
  | .gap => true
  | .atRule keyword before block => isGoodAtRule true keyword before block
  | .rule before (_, verdict) =>
      isRulePrelude true (componentsOf before) && verdict.body
  | .stretch parts _ => isDeclaration parts

/-- Whether an item of a list of declarations is well formed. -/
def isDeclarationItem : Item Verdict → Bool
  | .gap => true
  | .stretch parts _ => isDeclaration parts
  | _ => false

/-- Whether the name of an at-rule inside the block of another, itself read as
a keyword, is one of some names. -/
def isNamed (names : List String) (keyword : Token) : Bool :=
  (keyword? (atRuleName keyword).toList).any names.contains

/-- Whether an item of a page rule is well formed. -/
def isPageItem : Item Verdict → Bool
  | .atRule keyword before (some (_, verdict)) =>
      isNamed marginBoxes keyword && isEnd (withoutComments before) &&
        verdict.declarations
  | item => isDeclarationItem item

/-- Whether an item of the body of `@font-feature-values` is well formed: an
at-rule for a group of features. -/
def isFontFeatureItem : Item Verdict → Bool
  | .gap => true
  | .atRule keyword before (some (_, verdict)) =>
      isNamed fontFeatures keyword && isEnd (withoutComments before) &&
        verdict.featureGroup
  | _ => false

/-- Whether parts are whole numbers, one at least. What stands behind the last
one is passed over, if it is a single part. -/
def areIndices (parts : Parts Verdict) : Bool :=
  let values := parts.filter fun p => !p.isBlank
  let rest := values.dropWhile fun p => isIndex p.component
  rest.length < values.length && rest.length ≤ 1

/-- Whether an item of a group of features is well formed: a feature with its
indices. -/
def isFeatureItem : Item Verdict → Bool
  | .gap => true
  | .stretch parts _ => (nameAndValue? parts).any fun (_, value) =>
      areIndices value
  | _ => false

/-- The parts of items that are stretches; `none` if there are at-rules or
rules among them. -/
def stretches? : List (Item Verdict) → Option (List (Parts Verdict))
  | [] => some []
  | .gap :: items => stretches? items
  | .stretch parts _ :: items => (stretches? items).map (parts :: ·)
  | _ :: _ => none

/-- The parts up to the next semicolon, and their length with it. -/
def readStretch (parts : Parts Verdict) : Item Verdict × Nat :=
  let whole := parts.takeWhile fun p => !p.isToken .semicolon
  (.stretch whole (whole.length < parts.length), whole.length + 1)

/-- The item at the head of a body, and its length. A declaration of a custom
property reaches to the next semicolon, whatever blocks it contains. -/
def readInnerItem (parts : Parts Verdict) : Item Verdict × Nat :=
  match readStretch parts with
  | (.stretch whole semicolon, length) =>
      if isCustomDeclaration whole then (.stretch whole semicolon, length)
      else Item.read .body parts
  | _ => Item.read .body parts

/-- The item at the head of a list of declarations, and its length. Blocks do
not end a declaration here. -/
def readDeclarationItem (parts : Parts Verdict) : Item Verdict × Nat :=
  match Item.read .body parts with
  | (.rule _ _, _) => readStretch parts
  | item => item

/-- What the content of a block is well formed as. -/
def Verdict.of (content : Parts Verdict) : Verdict :=
  let declarationItems := Text.divide readDeclarationItem content
  { group := (Item.all .group content).all isOuterItem
    body := (Text.divide readInnerItem content).all isInnerItem
    declarations := declarationItems.all isDeclarationItem
    pageBody := declarationItems.all isPageItem
    fontFeatures := declarationItems.all isFontFeatureItem
    featureGroup := declarationItems.all isFeatureItem
    registration := (stretches? declarationItems).any isRegistration }

/-! ## Sheets -/

/-- How far a sheet has come: each kind of rule at its beginning has its
place. -/
inductive Phase
  /-- Rules of every kind may come. -/
  | opening
  /-- Behind an `@import` rule. -/
  | imports
  /-- Behind a `@namespace` rule, where no sheet is imported any more. -/
  | namespaces
  /-- Behind any other rule. -/
  | main
  deriving DecidableEq, Repr, Inhabited

/-- Whether parts are the prelude of `@namespace`: an address, behind a name if
the namespace has one. -/
def isNamespacePrelude (parts : Parts Unit) : Bool :=
  isOne isAddress ((afterIdent? parts).getD parts)

/-- Where a rule leads that stands only at the level of a sheet; `none` if it
is not well formed or comes too late. -/
def Phase.afterStatement? (phase : Phase) (name : String)
    (before : List Component) : Option Phase :=
  let parts := plainParts before
  if name == "import" then
    if (phase == .opening || phase == .imports) && isImportPrelude before then
      some .imports
    else none
  else if name == "namespace" then
    if phase != .main && isNamespacePrelude parts then some .namespaces
    else none
  else if isOne isString parts then some phase
  else none

/-- The at-rules without a block that stand only at the level of a sheet. -/
def sheetStatements : List String := ["import", "namespace", "charset"]

/-- Where an at-rule without a block leads that may stand everywhere. Layers
that are announced behind an `@import` rule belong to the main part. -/
def Phase.afterAnnouncement (phase : Phase) (name : String) : Phase :=
  if name == "layer" && phase != .opening then .main else phase

/-- Whether a rule registers a custom property. -/
def isPropertyRule (before : Parts Verdict)
    (block : Option (Annotated Verdict × Verdict)) : Bool :=
  isOne AtRule.isCustomIdent (plainParts (componentsOf before)) &&
    match block with
    | some (_, verdict) => verdict.registration
    | none => false

/-- Where an item of a sheet leads, if it is well formed and may come. -/
def Phase.after? (phase : Phase) (item : Item Verdict) : Option Phase :=
  match item with
  | .gap => some phase
  | .atRule keyword before block =>
      let name := atRuleName keyword
      if sheetStatements.contains name then
        if block.isNone then phase.afterStatement? name (componentsOf before)
        else none
      else if name == "property" then
        if isPropertyRule before block then some .main else none
      else if isOuterItem item then
        some (if block.isSome then .main else phase.afterAnnouncement name)
      else none
  | item => if isOuterItem item then some .main else none

/-- Whether the items of a sheet are well formed and come in order. -/
def areSheetItems : Phase → List (Item Verdict) → Bool
  | _, [] => true
  | phase, item :: items =>
      match phase.after? item with
      | some next => areSheetItems next items
      | none => false

/-- Whether components are a well-formed sheet. -/
def isSheet (cs : List Component) : Bool :=
  areSheetItems .opening (itemsOf (annotate Verdict.of cs))

end CssVendor.Grammar
