import CssVendor.Printer.Writer
import CssVendor.Proofs.Pass
import CssVendor.Proofs.Written

/-!
# What the printer writes

The printer goes through a tree once and writes a piece at a time
(`Block.write`). What it has written before and where in the tree it stands
change nothing but the indent, so a block is written in the same pieces
wherever it stands (`write_append`), and its pieces are those of its header,
its declarations and its children (`write_nil_eq`). From these two equations
the texts of blocks and sheets follow by induction over the tree: they are the
ones of `Block.print`, which is put together from the texts of the parts.
-/

namespace CssVendor

/-- The pieces of the declarations of a block. -/
def declarationPieces (layout : Layout) (lead : String) (hasChildren : Bool) :
    List Declaration → List Piece
  | [] => []
  | d :: ds =>
      .declaration lead d ::
        ((if layout = .compact ∧ (ds ≠ [] ∨ hasChildren = true) then
            [.semicolon] else []) ++
          declarationPieces layout lead hasChildren ds)

/-- The position of a declaration tells whether it is the last. -/
theorem writeDeclarations_eq (layout : Layout) (lead : String) {count : Nat}
    (hasChildren : Bool) {i : Nat} (ds : List Declaration)
    (h : i + ds.length = count) (out : List Piece) :
    writeDeclarations layout lead count hasChildren i out ds =
      out ++ declarationPieces layout lead hasChildren ds := by
  induction ds generalizing i out with
  | nil => rw [writeDeclarations, declarationPieces, List.append_nil]
  | cons d ds ih =>
      have hlast : i + 1 < count ↔ ds ≠ [] := by
        rw [List.length_cons] at h
        rw [← List.length_pos_iff]
        omega
      have hnext : i + 1 + ds.length = count := by
        rw [List.length_cons] at h
        omega
      rw [writeDeclarations, ih hnext, declarationPieces]
      simp only [hlast]
      split <;> simp

namespace Block

theorem write_go_append {layout : Layout} {depth : Nat} {cs : List Block}
    (h : ∀ c ∈ cs, ∀ out, c.write layout depth out =
      out ++ c.write layout depth []) (out : List Piece) :
    write.go layout depth out cs =
      out ++ cs.flatMap fun c => c.write layout depth [] := by
  induction cs generalizing out with
  | nil => rw [write.go, List.flatMap_nil, List.append_nil]
  | cons c cs ih =>
      rw [write.go, ih (fun d hd => h d (by simp [hd])), h c (by simp),
        List.flatMap_cons, List.append_assoc]

/-- The pieces of a block do not depend on what was written before. -/
theorem write_append (layout : Layout) (b : Block) : ∀ depth out,
    b.write layout depth out = out ++ b.write layout depth [] := by
  induction b using inductionOn with
  | h b ih =>
      intro depth out
      obtain ⟨kind, ds, cs⟩ := b
      have hgo := write_go_append fun c hc => ih c hc (depth + 1)
      have hds := writeDeclarations_eq layout (layout.lead depth)
        (!cs.isEmpty) ds (Nat.zero_add _)
      simp only [write, hds, hgo]
      simp

/-- A block is written as its header, its declarations, its children one level
deeper, and its closing brace. -/
theorem write_nil_eq (layout : Layout) (depth : Nat) (b : Block) :
    b.write layout depth [] =
      .opening (layout.lead depth) (b.kind.header layout) ::
        (declarationPieces layout (layout.lead depth) (!b.children.isEmpty)
            b.declarations ++
          (b.children.flatMap fun c => c.write layout (depth + 1) []) ++
          [.closing (layout.lead depth)]) := by
  obtain ⟨kind, ds, cs⟩ := b
  have hgo : ∀ out, write.go layout (depth + 1) out cs =
      out ++ cs.flatMap fun c => c.write layout (depth + 1) [] :=
    write_go_append fun c _ => c.write_append layout (depth + 1)
  simp only [write, hgo, writeDeclarations_eq layout (layout.lead depth)
    (!cs.isEmpty) ds (Nat.zero_add _)]
  simp

end Block

/-! ## The text of the pieces -/

namespace Piece

variable {layout : Layout}

@[simp] theorem textAll_nil : textAll layout [] = "" := by
  simp [textAll]

@[simp] theorem textAll_cons (p : Piece) (ps : List Piece) :
    textAll layout (p :: ps) = p.text layout ++ textAll layout ps := by
  simp [textAll]

@[simp] theorem textAll_append (ps qs : List Piece) :
    textAll layout (ps ++ qs) = textAll layout ps ++ textAll layout qs := by
  simp [textAll]

end Piece

open Piece

/-- A declaration with its indent and its semicolon is its own text between
them. -/
theorem text_pretty_declaration (lead : String) (d : Declaration) :
    (Piece.declaration lead d).text .pretty =
      lead ++ "  " ++ d.text ++ ";\n" := by
  cases himportant : d.important <;>
    simp [text, Declaration.mark, Declaration.text, himportant,
      String.append_assoc]

theorem text_compact_declaration (lead : String) (d : Declaration) :
    (Piece.declaration lead d).text .compact = d.compactText := by
  have hmark : String.ofList (Text.trimStart d.mark.toList) =
      if d.important then "!important" else "" := by
    cases himportant : d.important <;> rw [Declaration.mark, himportant] <;>
      decide +kernel
  rw [text, hmark, Declaration.compactText]

@[simp] theorem text_semicolon (layout : Layout) :
    Piece.semicolon.text layout = ";" := by
  cases layout <;> rfl

theorem textAll_pretty_declarations (lead : String) (hasChildren : Bool)
    (ds : List Declaration) :
    textAll .pretty (declarationPieces .pretty lead hasChildren ds) =
      String.join (ds.map fun d => lead ++ "  " ++ d.text ++ ";\n") := by
  induction ds with
  | nil => simp [declarationPieces]
  | cons d ds ih =>
      rw [declarationPieces, if_neg (by simp), List.nil_append, textAll_cons,
        ih, text_pretty_declaration, List.map_cons, String.join_cons]

theorem textAll_compact_declarations (lead : String) (hasChildren : Bool)
    (ds : List Declaration) :
    textAll .compact (declarationPieces .compact lead hasChildren ds) =
      String.intercalate ";" (ds.map Declaration.compactText) ++
        if ds.isEmpty || !hasChildren then "" else ";" := by
  match ds with
  | [] => simp [declarationPieces]
  | [d] =>
      cases hasChildren <;>
        simp [declarationPieces, text_compact_declaration]
  | d :: e :: ds =>
      have hrest := textAll_compact_declarations lead hasChildren (e :: ds)
      rw [declarationPieces, if_pos (by simp), textAll_cons, textAll_append,
        hrest, text_compact_declaration]
      simp [String.intercalate_cons_cons, String.append_assoc]

namespace Block

theorem prettyText_go_eq (depth : Nat) (cs : List Block) :
    prettyText.go depth cs = String.join (cs.map (prettyText depth)) := by
  induction cs with
  | nil => simp [prettyText.go]
  | cons c cs ih => rw [prettyText.go, ih, List.map_cons, String.join_cons]

theorem compactText_go_eq (cs : List Block) :
    compactText.go cs = String.join (cs.map compactText) := by
  induction cs with
  | nil => simp [compactText.go]
  | cons c cs ih => rw [compactText.go, ih, List.map_cons, String.join_cons]

/-- What is printed of a block at the given depth. -/
def printed (layout : Layout) (depth : Nat) (b : Block) : String :=
  textAll layout (b.write layout depth [])

theorem textAll_children (layout : Layout) (depth : Nat) (cs : List Block) :
    textAll layout (cs.flatMap fun c => c.write layout depth []) =
      String.join (cs.map (printed layout depth)) := by
  induction cs with
  | nil => simp
  | cons c cs ih =>
      rw [List.flatMap_cons, textAll_append, ih, List.map_cons,
        String.join_cons, printed]

/-- A block is a header line, a line for each declaration, its children one
level deeper, and a closing line. -/
theorem printed_pretty (b : Block) (depth : Nat) :
    b.printed .pretty depth =
      indent depth ++ b.kind.header .pretty ++ " \x7b\n" ++
        String.join (b.declarations.map fun d =>
          indent (depth + 1) ++ d.text ++ ";\n") ++
        String.join (b.children.map (printed .pretty (depth + 1))) ++
        indent depth ++ "\x7d\n" := by
  rw [printed, write_nil_eq, textAll_cons, textAll_append, textAll_append,
    textAll_children, Layout.lead, textAll_pretty_declarations]
  simp [text, indent, indent_comm, String.append_assoc]

/-- A block is its header and, in braces, its declarations with semicolons
between them, one more semicolon if children follow, and the children. -/
theorem printed_compact (b : Block) (depth : Nat) :
    b.printed .compact depth =
      b.kind.header .compact ++ "\x7b" ++
        String.intercalate ";" (b.declarations.map Declaration.compactText) ++
        (if b.declarations ≠ [] ∧ b.children ≠ [] then ";" else "") ++
        String.join (b.children.map (printed .compact (depth + 1))) ++
        "\x7d" := by
  have hsemicolon : (if b.declarations.isEmpty || !!b.children.isEmpty then
      "" else ";") =
      if b.declarations ≠ [] ∧ b.children ≠ [] then ";" else "" := by
    cases b.declarations <;> cases b.children <;> rfl
  rw [printed, write_nil_eq, textAll_cons, textAll_append, textAll_append,
    textAll_children, textAll_compact_declarations, hsemicolon]
  simp [text, String.append_assoc]

/-- The pieces of a block make up its text. -/
theorem printed_eq_prettyText (b : Block) : ∀ depth,
    b.printed .pretty depth = b.prettyText depth := by
  induction b using inductionOn with
  | h b ih =>
      intro depth
      obtain ⟨kind, ds, cs⟩ := b
      have hcs : cs.map (printed .pretty (depth + 1)) =
          cs.map (prettyText (depth + 1)) :=
        List.map_congr_left fun c hc => ih c hc (depth + 1)
      rw [printed_pretty, hcs, prettyText, prettyText_go_eq]
      simp [indent, indent_comm, String.append_assoc]

theorem printed_eq_compactText (b : Block) : ∀ depth,
    b.printed .compact depth = b.compactText := by
  induction b using inductionOn with
  | h b ih =>
      intro depth
      obtain ⟨kind, ds, cs⟩ := b
      have hcs : cs.map (printed .compact (depth + 1)) = cs.map compactText :=
        List.map_congr_left fun c hc => ih c hc (depth + 1)
      rw [printed_compact, hcs, compactText, compactText_go_eq]
      cases ds <;> cases cs <;> rfl

theorem printed_zero (layout : Layout) (b : Block) :
    b.printed layout 0 = b.textIn layout := by
  cases layout with
  | pretty => exact b.printed_eq_prettyText 0
  | compact => exact b.printed_eq_compactText 0

/-! ## Sheets -/

theorem writeBlocks_compact (bs : List Block) : ∀ i out,
    writeBlocks .compact i out bs =
      out ++ bs.flatMap fun b => b.write .compact 0 [] := by
  induction bs with
  | nil => intro i out; rw [writeBlocks, List.flatMap_nil, List.append_nil]
  | cons b bs ih =>
      intro i out
      rw [writeBlocks, ih, if_neg (by simp), write_append, List.flatMap_cons,
        List.append_assoc]

/-- A block that is not the first of a sheet is set apart from the one before
it. -/
theorem textAll_writeBlocks (layout : Layout) {i : Nat} (hi : 0 < i)
    (bs : List Block) (out : List Piece) :
    textAll layout (writeBlocks layout i out bs) = textAll layout out ++
      String.join (bs.map fun b => layout.gap ++ b.textIn layout) := by
  induction bs generalizing i out with
  | nil => simp [writeBlocks]
  | cons b bs ih =>
      have hgap : textAll layout
          (if 0 < i ∧ layout = .pretty then out ++ [.gap] else out) =
          textAll layout out ++ layout.gap := by
        cases layout <;> simp [hi, Piece.text, Layout.gap]
      rw [writeBlocks, ih (Nat.succ_pos i), write_append, textAll_append, hgap,
        ← printed, printed_zero, List.map_cons, String.join_cons]
      simp [String.append_assoc]

theorem intercalate_eq_join (sep s : String) (ss : List String) :
    String.intercalate sep (s :: ss) =
      s ++ String.join (ss.map (sep ++ ·)) := by
  induction ss generalizing s with
  | nil => simp
  | cons t ss ih =>
      rw [String.intercalate_cons_cons, ih, List.map_cons, String.join_cons]
      simp [String.append_assoc]

/-- The sheet is printed piece by piece. -/
theorem textAll_writeSheet (layout : Layout) (t : Block) :
    textAll layout (t.writeSheet layout) = t.print layout := by
  rw [writeSheet, print]
  generalize (if t.isRoot then t.children else [t]) = bs
  cases bs with
  | nil => simp [writeBlocks]
  | cons b bs =>
      rw [writeBlocks, if_neg (by simp),
        textAll_writeBlocks layout Nat.one_pos, ← printed, printed_zero,
        List.map_cons, intercalate_eq_join, List.map_map]
      rfl

theorem print_of_root {t : Block} (h : t.kind = .root) (layout : Layout) :
    t.print layout =
      String.intercalate layout.gap (t.children.map (textIn layout)) := by
  have hroot : t.isRoot = true := by
    rw [isRoot, h]
  rw [print, if_pos hroot]

theorem print_of_not_root {b : Block} (h : b.kind ≠ .root)
    (layout : Layout) : b.print layout = b.textIn layout := by
  have hroot : ¬ b.isRoot = true := by
    rw [isRoot]
    split
    · next hkind => exact absurd hkind h
    · exact Bool.false_ne_true
  rw [print, if_neg hroot, List.map_singleton, String.intercalate_singleton]

end Block

end CssVendor
