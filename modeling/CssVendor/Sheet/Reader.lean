import CssVendor.Block
import CssVendor.Record
import CssVendor.Sheet.Importance
import CssVendor.Syntax.Item

/-!
# The tree of a sheet

Cuts a tree of blocks out of a sheet. Selectors, preludes and values keep the
text they are written with. Style rules and the groups `@media` and
`@supports` become blocks; every other at-rule is dropped. What is neither is
skipped with a warning.

What a body says is worked out from the bodies of the blocks inside it, the
innermost first. A warning names the block it stands in, which is known only
when that block is made; until then it is a note without a place.
-/

namespace CssVendor.Sheet

open Syntax

/-- Something to report about a body. -/
inductive Note
  /-- Text of the body itself that was skipped. -/
  | skipped (text : String)
  /-- A record whose place is settled. -/
  | settled (record : Record)
  deriving Repr, Inhabited

/-- The record of a note in a block of the given label. -/
def Note.record (label : String) : Note → Record
  | .skipped text => .warn (label ++ ": skipping \x60" ++ text ++ "\x60")
  | .settled record => record

/-- What the content of a block says as the body of a rule. -/
structure Body where
  declarations : List Declaration
  children : List Block
  notes : List Note
  deriving Inhabited

namespace Body

/-- A body that says nothing. -/
def empty : Body := ⟨[], [], []⟩

/-- One body after another. -/
def append (a b : Body) : Body :=
  ⟨a.declarations ++ b.declarations, a.children ++ b.children,
    a.notes ++ b.notes⟩

/-- A body with one declaration. -/
def ofDeclaration (d : Declaration) : Body := ⟨[d], [], []⟩

/-- A body of which a text is skipped. -/
def ofSkipped (text : List Char) : Body :=
  ⟨[], [], [.skipped (String.ofList (Text.trim text))]⟩

/-- The block of a kind with a given body. -/
def block (kind : BlockKind) (b : Body) : Block :=
  ⟨kind, b.declarations, b.children⟩

/-- The records of a body in a block of the given label. -/
def records (label : String) (b : Body) : List Record :=
  b.notes.map (Note.record label)

/-- A body with one block in it. -/
def ofBlock (kind : BlockKind) (b : Body) : Body :=
  ⟨[], [b.block kind], (b.records kind.label).map .settled⟩

/-- One body after another, for all of a list. -/
def concat : List Body → Body
  | [] => empty
  | b :: bs => b.append (concat bs)

end Body

/-! ## Selectors -/

/-- The parts without the blanks they end with. -/
def dropTrailingBlanks {α : Type} (parts : Parts α) : Parts α :=
  (parts.reverse.dropWhile Annotated.isBlank).reverse

/-- The text of one selector. It reaches to the end of the last token that is
not blank; of a block at its end, only the opening token belongs to it. -/
def selectorText {α : Type} (segment : Parts α) : List Char :=
  match (componentsOf (dropTrailingBlanks segment)).reverse with
  | [] => []
  | last :: before => Text.trim (textOf before.reverse ++ last.openingText)

/-- The selectors of a style rule. Empty ones are left out. -/
def selectors {α : Type} (before : Parts α) : List (List Char) :=
  ((splitCommas before).map selectorText).filter fun s => !s.isEmpty

/-! ## Items -/

/-- A declaration: a name, a colon and a value. -/
def declaration? {α : Type} : Parts α → Option Declaration
  | ⟨.token ⟨.ident name, _⟩, _⟩ :: rest =>
      match rest.dropWhile Annotated.isBlank with
      | colon :: value =>
          if colon.isToken .colon then
            let (value, important) :=
              splitImportant (textOf (componentsOf value))
            some ⟨String.ofList name, String.ofList value, important⟩
          else none
      | [] => none
  | _ => none

/-- The name of an at-rule in lower case. -/
def atRuleName (keyword : Token) : String :=
  match keyword.kind with
  | .atKeyword name => String.ofList (Text.lower name)
  | _ => ""

/-- The at-rules whose blocks are kept. -/
def isKept (name : String) : Bool := name == "media" || name == "supports"

/-- Whether the content of a block is blank throughout. -/
def isBlankBlock : Component → Bool
  | .token _ => true
  | .block _ content _ => content.all Component.isBlank

/-- What an at-rule that is not kept leaves behind: a record that it was
dropped and, if its block is not blank, a warning. -/
def dropped (name : String) (keyword : Token) (before : List Component)
    (block : Component) : Body :=
  let report : Body :=
    ⟨[], [], [.settled (.debug ("dropping @" ++ name ++ " block"))]⟩
  if isBlankBlock block then report
  else report.append (.ofSkipped (keyword.text ++ textOf before ++ block.text))

/-- What an item adds to the sheet or the body it stands in. Only in a body is
a stretch a declaration; elsewhere it is a rule without a block. -/
def ofItem (place : Place) : Item Body → Body
  | .gap => .empty
  | .atRule _ _ none => .empty
  | .atRule keyword before (some (block, body)) =>
      let name := atRuleName keyword
      let before := componentsOf before
      if isKept name then
        .ofBlock (.atRule name (String.ofList (Text.trim (textOf before)))) body
      else dropped name keyword before block.component
  | .rule before (block, body) =>
      match selectors before with
      | [] =>
          .ofSkipped (textOf (componentsOf before) ++
            block.component.openingText)
      | selectors => .ofBlock (.style (selectors.map String.ofList)) body
  | .stretch parts semicolon =>
      match place, declaration? parts with
      | .body, some d => .ofDeclaration d
      | _, _ =>
          .ofSkipped (textOf (componentsOf parts) ++
            if semicolon then [';'] else [])

/-- What the parts of a block's content say as the body of a rule. -/
def bodyOf (parts : Parts Body) : Body :=
  .concat ((Item.all .body parts).map (ofItem .body))

/-! ## Sheets -/

/-- Whether an item is only a blank. -/
def isGap {α : Type} : Item α → Bool
  | .gap => true
  | _ => false

/-- Whether an item is an at-rule of a name, given in lower case. -/
def isAtRule {α : Type} (name : String) : Item α → Bool
  | .atRule keyword _ _ => atRuleName keyword == name
  | _ => false

/-- The items of a sheet without the `@charset` rule that may be the first. -/
def withoutCharset {α : Type} : List (Item α) → List (Item α)
  | [] => []
  | item :: items =>
      if isGap item then item :: withoutCharset items
      else if isAtRule "charset" item then items
      else item :: items

/-- The items of a sheet, each component of it worked out. -/
def itemsOf {α : Type} (parts : Parts α) : List (Item α) :=
  withoutCharset (Item.all .sheet parts)

/-- What a sheet says at its own level. -/
def bodyOfSheet (cs : List Component) : Body :=
  .concat ((itemsOf (annotate bodyOf cs)).map (ofItem .sheet))

/-- The tree of a sheet, and the records of reading it. -/
def tree (cs : List Component) : Block × List Record :=
  let body := bodyOfSheet cs
  let root := body.block .root
  (root, body.records root.label ++
    [.debug ("parsed stylesheet into " ++ Nat.repr root.count ++ " blocks")])

end CssVendor.Sheet
