import CssVendor.Printer
import CssVendor.Text.Blank

/-!
# Printing piece by piece

A printer that hands out text as it goes through a tree: it opens a block,
writes one declaration after the other, goes into the children and closes the
block. Whether a semicolon is written behind a declaration is decided when the
declaration is written, from its position and from whether the block has
children. What has been written so far is kept as a list of pieces, in order.
-/

namespace CssVendor

/-- What the printer writes in one go. -/
inductive Piece
  /-- The header of a block and its opening brace. -/
  | opening (lead header : String)
  | declaration (lead : String) (d : Declaration)
  /-- A semicolon on its own. -/
  | semicolon
  | closing (lead : String)
  /-- The empty line between two blocks of a sheet. -/
  | gap
  deriving Repr

/-- What begins each line of a block at the given depth. -/
def Layout.lead (depth : Nat) : Layout → String
  | .pretty => indent depth
  | .compact => ""

/-- What is written behind an important value. -/
def Declaration.mark (d : Declaration) : String :=
  if d.important then " !important" else ""

namespace Piece

/-- The text of a piece. -/
def text : Layout → Piece → String
  | .pretty, .opening lead header => lead ++ header ++ " \x7b\n"
  | .compact, .opening _ header => header ++ "\x7b"
  | .pretty, .declaration lead d =>
      lead ++ "  " ++ d.name ++ ": " ++ d.value ++ d.mark ++ ";\n"
  | .compact, .declaration _ d =>
      d.name ++ ":" ++ d.value ++
        String.ofList (Text.trimStart d.mark.toList)
  | _, .semicolon => ";"
  | .pretty, .closing lead => lead ++ "\x7d\n"
  | .compact, .closing _ => "\x7d"
  | _, .gap => "\n"

/-- The text of pieces written one after the other. -/
def textAll (layout : Layout) (ps : List Piece) : String :=
  String.join (ps.map (text layout))

end Piece

/-- Writes declarations, the first of them at position `i` of `count`, behind
`out`. -/
def writeDeclarations (layout : Layout) (lead : String) (count : Nat)
    (hasChildren : Bool) (i : Nat) (out : List Piece) :
    List Declaration → List Piece
  | [] => out
  | d :: ds =>
      let out := out ++ [.declaration lead d]
      let out :=
        if layout = .compact ∧ (i + 1 < count ∨ hasChildren = true) then
          out ++ [.semicolon]
        else out
      writeDeclarations layout lead count hasChildren (i + 1) out ds

namespace Block

/-- Writes a block at the given depth behind `out`. -/
def write (layout : Layout) (depth : Nat) (out : List Piece) :
    Block → List Piece
  | ⟨kind, declarations, children⟩ =>
      let lead := layout.lead depth
      let out := out ++ [.opening lead (kind.header layout)]
      let out := writeDeclarations layout lead declarations.length
        (!children.isEmpty) 0 out declarations
      let out := go (depth + 1) out children
      out ++ [.closing lead]
where
  go (depth : Nat) (out : List Piece) : List Block → List Piece
    | [] => out
    | c :: cs => go depth (write layout depth out c) cs

/-- Writes the blocks of a sheet, the first of them at position `i`, behind
`out`. -/
def writeBlocks (layout : Layout) (i : Nat) (out : List Piece) :
    List Block → List Piece
  | [] => out
  | b :: bs =>
      let out := if 0 < i ∧ layout = .pretty then out ++ [.gap] else out
      writeBlocks layout (i + 1) (b.write layout 0 out) bs

/-- Writes the sheet under `b`. -/
def writeSheet (layout : Layout) (b : Block) : List Piece :=
  writeBlocks layout 0 [] (if b.isRoot then b.children else [b])

end Block

end CssVendor
