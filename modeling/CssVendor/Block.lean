import CssVendor.Declaration

/-!
# Blocks

A sheet is a tree of blocks. The root stands for the sheet itself; every other
block is a style rule or a conditional group, with its own declarations and
the blocks nested in it. A block is named in messages by its label.
-/

namespace CssVendor

/-- What a block is. -/
inductive BlockKind
  /-- The sheet itself. -/
  | root
  /-- A style rule with its selectors, such as `.red, #header`. -/
  | style (selectors : List String)
  /-- A group under an at-rule, such as `@media screen`. -/
  | atRule (name prelude : String)
  deriving DecidableEq, Repr, Inhabited

namespace BlockKind

/-- The text that names a block of this kind in messages. -/
def label : BlockKind → String
  | .root => "<root>"
  | .style selectors => String.intercalate ", " selectors
  | .atRule name prelude =>
      if prelude.isEmpty then "@" ++ name else "@" ++ name ++ " " ++ prelude

end BlockKind

/-- A block: its declarations in order, then the blocks nested in it. -/
structure Block where
  kind : BlockKind
  declarations : List Declaration
  children : List Block
  deriving Repr, Inhabited

namespace Block

/-- The text that names the block in messages. -/
def label (b : Block) : String := b.kind.label

/-- Whether the block is of the kind that stands for a sheet. -/
def isRoot (b : Block) : Bool :=
  match b.kind with
  | .root => true
  | _ => false

/-- The number of blocks in the tree under `b`, itself included. -/
def count : Block → Nat
  | ⟨_, _, children⟩ => 1 + go children
where
  go : List Block → Nat
    | [] => 0
    | c :: cs => count c + go cs

/-- An overview of the block alone: its label, then a line for each
declaration. -/
def summary (b : Block) : String :=
  "Block: " ++ b.label ++ "\n" ++
    String.join (b.declarations.map fun d => "  " ++ d.text ++ "\n")

end Block

end CssVendor
