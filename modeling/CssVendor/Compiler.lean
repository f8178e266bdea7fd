import CssVendor.Filler
import CssVendor.Printer
import CssVendor.Sheet.Parse

/-!
# Compiling sheets

A compiler reads a sheet, runs its plugins over the tree in the order in which
they were added, and writes the tree out. Plugins live as long as their
compiler; what they carry from sheet to sheet is a count that no text shows.
-/

namespace CssVendor

/-! ## Plugins -/

/-- Appends a declaration to one block, roots excepted. -/
def Block.appendTo (d : Declaration) (b : Block) : Block :=
  if b.isRoot then b else { b with declarations := b.declarations ++ [d] }

/-- The visitor that appends a declaration to every block but the roots. -/
def appendVisitor (d : Declaration) : Visitor Unit Fault where
  visit _ b := ⟨(), b.appendTo d, .ok .descend⟩
  budget _ := 0
  budget_visit _ b := by
    simp only [Block.appendTo]
    split <;> simp [Block.count_eq]

/-- Something a compiler runs over a tree. -/
inductive Plugin
  /-- Fills in missing forms. -/
  | filler (f : Filler)
  /-- Appends a fixed declaration to every block but the roots. -/
  | append (d : Declaration)
  deriving Inhabited

namespace Plugin

/-- The name by which a plugin is announced. -/
def name : Plugin → String
  | .filler _ => Filler.name
  | .append _ => "append"

/-- A filler with the given options that has not run yet. -/
def register (options : Options) : Plugin := .filler (Filler.new options)

/-- One run over a tree. -/
def run (p : Plugin) (root : Block) : Run Plugin :=
  match p with
  | .filler f =>
      let r := f.run root
      ⟨.filler r.plugin, r.tree, r.records, r.result⟩
  | .append d =>
      let w := (appendVisitor d).walk () root
      ⟨.append d, w.tree, [], w.result⟩

/-- Announces and runs each plugin of a list. After a failed run, the plugins
that remain are left as they are. -/
def runAll : List Plugin → Block → Run (List Plugin)
  | [], root => ⟨[], root, [], .ok ()⟩
  | p :: ps, root =>
      let r := p.run root
      let records := .debug ("running plugin " ++ p.name) :: r.records
      match r.result with
      | .error fault => ⟨r.plugin :: ps, r.tree, records, .error fault⟩
      | .ok () =>
          let rs := runAll ps r.tree
          ⟨r.plugin :: rs.plugin, rs.tree, records ++ rs.records, rs.result⟩

end Plugin

/-! ## Compilers -/

/-- The plugins in order, and how sheets are written. -/
structure Compiler where
  plugins : List Plugin
  layout : Layout
  deriving Inhabited

/-- The outcome of compiling a sheet. -/
structure Compilation where
  /-- The compiler afterwards. -/
  compiler : Compiler
  records : List Record
  result : Except Fault String

namespace Compiler

/-- A compiler without plugins. -/
def new : Compiler := ⟨[], .pretty⟩

/-- The compiler with another layout. -/
def setLayout (c : Compiler) (layout : Layout) : Compiler :=
  { c with layout := layout }

/-- The compiler with one more plugin at the end. -/
def add (c : Compiler) (p : Plugin) : Compiler :=
  { c with plugins := c.plugins ++ [p] }

/-- Compiles one sheet. -/
def compile [Sheet.Validator] (c : Compiler) (css : String) : Compilation :=
  match Sheet.parse css with
  | .error fault => ⟨c, [], .error fault⟩
  | .ok (root, records) =>
      let r := Plugin.runAll c.plugins root
      ⟨{ c with plugins := r.plugin }, records ++ r.records,
        r.result.map fun _ => r.tree.print c.layout⟩

end Compiler

/-- Fills in the missing forms of one sheet. -/
def generate [Sheet.Validator] (css : String) (options : Options)
    (layout : Layout) : Except Fault String × List Record :=
  let c := ((Compiler.new.setLayout layout).add (.register options)).compile css
  (c.result, c.records)

end CssVendor
