import CssVendor.Syntax.Component

/-!
# Items

A sheet, and the content of a block of rules, is a sequence of items: at-rules,
rules with a block, and stretches without one, with blanks in between. Where
an item ends depends on the place. At the level of a sheet, and in a group
that holds rules only, nothing but a block ends a rule; in the body of a style
rule a semicolon ends an item too, which makes declarations possible. At-rules
end at a semicolon or a block everywhere.

Items keep their parts, so that their texts can be cut out of the sheet.
-/

namespace CssVendor.Syntax

/-- Where a sequence of items stands. -/
inductive Place
  | sheet
  /-- A group that holds rules only. -/
  | group
  /-- A body that holds declarations and rules. -/
  | body
  deriving DecidableEq, Repr, Inhabited

namespace Place

/-- Whether a token of this kind only separates items. -/
def isGap : Place → TokenKind → Bool
  | .sheet, kind => kind.isBlank || kind == .cdo || kind == .cdc
  | _, kind => kind.isBlank || kind == .semicolon

/-- Whether a semicolon ends an item that is no at-rule. -/
def stopsAtSemicolon : Place → Bool
  | .body => true
  | _ => false

end Place

/-- One item of a sequence. -/
inductive Item (α : Type)
  /-- A blank between items. -/
  | gap
  /-- An at-rule: its keyword, what follows up to the end, and its block, if it
  has one. -/
  | atRule (keyword : Token) (before : Parts α)
      (block : Option (Annotated α × α))
  /-- Parts with a block behind them. -/
  | rule (before : Parts α) (block : Annotated α × α)
  /-- Parts without a block, and whether a semicolon ends them. -/
  | stretch (parts : Parts α) (semicolon : Bool)

namespace Item

variable {α : Type}

/-- Whether a part goes on with an item: it is no block in curly brackets and,
where semicolons end items, no semicolon. -/
def continues (semicolonEnds : Bool) (p : Annotated α) : Bool :=
  p.curly?.isNone && !(semicolonEnds && p.isToken .semicolon)

/-- An at-rule after its keyword, and its length. -/
def readAtRule (keyword : Token) (rest : Parts α) : Item α × Nat :=
  let before := rest.takeWhile (continues true)
  match rest.drop before.length with
  | [] => (.atRule keyword before none, before.length + 1)
  | p :: _ =>
      (.atRule keyword before (p.curly?.map fun a => (p, a)),
        before.length + 2)

/-- A rule or a stretch, and its length. -/
def readRule (place : Place) (parts : Parts α) : Item α × Nat :=
  let before := parts.takeWhile (continues place.stopsAtSemicolon)
  match parts.drop before.length with
  | [] => (.stretch before false, before.length)
  | p :: _ =>
      match p.curly? with
      | some a => (.rule before (p, a), before.length + 1)
      | none => (.stretch before true, before.length + 1)

/-- The item at the head of a sequence, and its length. -/
def read (place : Place) : Parts α → Item α × Nat
  | [] => (.gap, 0)
  | p :: rest =>
      if p.curly?.isNone && place.isGap p.kind then (.gap, 1)
      else match p.component with
        | .token t =>
            match t.kind with
            | .atKeyword _ => readAtRule t rest
            | _ => readRule place (p :: rest)
        | .block _ _ _ => readRule place (p :: rest)

/-- The items of a sequence. -/
def all (place : Place) (parts : Parts α) : List (Item α) :=
  Text.divide (read place) parts

end Item

end CssVendor.Syntax
