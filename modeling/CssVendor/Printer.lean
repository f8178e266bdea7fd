import CssVendor.Block

/-!
# Printed sheets

A tree of blocks as CSS text, in one of two layouts. The pretty layout gives
every declaration and every closing brace a line of its own, indented by two
spaces a level; the compact layout writes no blanks of its own and a semicolon
only between a declaration and what follows it. Printing a root prints its
children: in the pretty layout an empty line stands between them.
-/

namespace CssVendor

/-- How a sheet is written. -/
inductive Layout
  | pretty
  | compact
  deriving DecidableEq, Repr, Inhabited

namespace Layout

/-- What stands between two selectors. -/
def comma : Layout → String
  | .pretty => ", "
  | .compact => ","

/-- What stands between two blocks of a sheet, beyond their own texts. -/
def gap : Layout → String
  | .pretty => "\n"
  | .compact => ""

end Layout

/-- What stands before the opening brace of a block of this kind. -/
def BlockKind.header (layout : Layout) : BlockKind → String
  | .root => ""
  | .style selectors => String.intercalate layout.comma selectors
  | .atRule name prelude =>
      if prelude.isEmpty then "@" ++ name else "@" ++ name ++ " " ++ prelude

/-- The declaration as the compact layout writes it. -/
def Declaration.compactText (d : Declaration) : String :=
  d.name ++ ":" ++ d.value ++ if d.important then "!important" else ""

/-- The blanks that begin a line at the given depth. -/
def indent : Nat → String
  | 0 => ""
  | depth + 1 => "  " ++ indent depth

namespace Block

/-- The block in the pretty layout, each line indented for `depth`. -/
def prettyText (depth : Nat) : Block → String
  | ⟨kind, declarations, children⟩ =>
      indent depth ++ kind.header .pretty ++ " \x7b\n" ++
        String.join (declarations.map fun d =>
          indent depth ++ "  " ++ d.text ++ ";\n") ++
        go (depth + 1) children ++ indent depth ++ "\x7d\n"
where
  go (depth : Nat) : List Block → String
    | [] => ""
    | c :: cs => prettyText depth c ++ go depth cs

/-- The block in the compact layout. -/
def compactText : Block → String
  | ⟨kind, declarations, children⟩ =>
      kind.header .compact ++ "\x7b" ++
        String.intercalate ";" (declarations.map Declaration.compactText) ++
        (if declarations.isEmpty || children.isEmpty then "" else ";") ++
        go children ++ "\x7d"
where
  go : List Block → String
    | [] => ""
    | c :: cs => compactText c ++ go cs

/-- The block on its own in the given layout. -/
def textIn (layout : Layout) (b : Block) : String :=
  match layout with
  | .pretty => b.prettyText 0
  | .compact => b.compactText

/-- The sheet under `b`: the texts of its children if `b` is a root, and of `b`
itself if not. -/
def print (layout : Layout) (b : Block) : String :=
  String.intercalate layout.gap
    ((if b.isRoot then b.children else [b]).map (textIn layout))

end Block

end CssVendor
