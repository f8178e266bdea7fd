import CssVendor.Proofs.Header
import CssVendor.Proofs.Pass

/-!
# What is printed

A tree as it is printed, described once for both layouts. A block is its header
and, in curly brackets, a sequence of pieces: declarations, each with a
semicolon, then the blocks nested in it. In the pretty layout a line end and an
indent stand before each of them and before the closing bracket; the compact
layout writes nothing there, and leaves the semicolon of a declaration out that
ends a block.

The pretty layout itself writes line ends behind its lines. They are moved
before the lines here, so that the blanks between two pieces stay together.
-/

namespace CssVendor

/-- What stands before a piece that has a line of its own. -/
def Layout.line (depth : Nat) : Layout → List Char
  | .pretty => '\n' :: (indent depth).toList
  | .compact => []

/-- Declarations with a semicolon behind each. -/
def writtenDeclarations (layout : Layout) (depth : Nat)
    (ds : List Declaration) : List Char :=
  ds.flatMap fun d => layout.line depth ++ (d.written layout ++ [';'])

/-- What stands between the braces of a block, given what is printed of its
children. -/
def writtenContent (depth : Nat) (ds : List Declaration)
    (childrenText : List Char) : Layout → List Block → List Char
  | .compact, [] =>
      [';'].intercalate (ds.map (Declaration.written .compact))
  | layout, _ =>
      writtenDeclarations layout (depth + 1) ds ++
        (childrenText ++ layout.line depth)

/-- A block as it is printed, without the blanks around it. -/
def Block.written (layout : Layout) (depth : Nat) : Block → List Char
  | ⟨kind, declarations, children⟩ =>
      kind.written layout ++ '\x7b' ::
        (writtenContent depth declarations (go layout (depth + 1) children)
          layout children ++ ['\x7d'])
where
  go (layout : Layout) (depth : Nat) : List Block → List Char
    | [] => []
    | c :: cs =>
        layout.line depth ++ (written layout depth c ++ go layout depth cs)

theorem writtenContent_eq {layout : Layout} {children : List Block}
    (h : layout = .pretty ∨ children ≠ []) (depth : Nat)
    (ds : List Declaration) (childrenText : List Char) :
    writtenContent depth ds childrenText layout children =
      writtenDeclarations layout (depth + 1) ds ++
        (childrenText ++ layout.line depth) := by
  rw [writtenContent]
  rintro rfl rfl
  rcases h with h | h
  · cases h
  · exact h rfl

theorem indent_comm (depth : Nat) :
    "  " ++ indent depth = indent depth ++ "  " := by
  induction depth with
  | zero => rfl
  | succ depth ih => rw [indent, String.append_assoc, ← ih]

theorem text_eq_written (d : Declaration) :
    d.text.toList = d.written .pretty := by
  cases himportant : d.important <;>
    simp [Declaration.text, Declaration.written, Declaration.payload,
      Layout.pad, himportant]

theorem compactText_eq_written (d : Declaration) :
    d.compactText.toList = d.written .compact := by
  cases himportant : d.important <;>
    simp [Declaration.compactText, Declaration.written, Declaration.payload,
      Layout.pad, himportant]

/-- Lines that end with a line end, behind a line end, are lines that begin with
one and a line end behind them. -/
theorem join_declarations (depth : Nat) (ds : List Declaration) :
    '\n' :: (String.join (ds.map fun d =>
        indent depth ++ "  " ++ d.text ++ ";\n")).toList =
      writtenDeclarations .pretty (depth + 1) ds ++ ['\n'] := by
  induction ds with
  | nil => rfl
  | cons d ds ih =>
      rw [writtenDeclarations, List.flatMap_cons, List.append_assoc,
        ← writtenDeclarations, ← ih]
      simp [Layout.line, indent, ← indent_comm, text_eq_written]

theorem prettyText_go (depth : Nat) {cs : List Block}
    (h : ∀ c ∈ cs, (c.prettyText depth).toList =
      (indent depth).toList ++ (c.written .pretty depth ++ ['\n'])) :
    '\n' :: (Block.prettyText.go depth cs).toList =
      Block.written.go .pretty depth cs ++ ['\n'] := by
  induction cs with
  | nil => rfl
  | cons c cs ih =>
      rw [Block.written.go, List.append_assoc, List.append_assoc,
        ← ih fun d hd => h d (by simp [hd]), Block.prettyText.go,
        String.toList_append, h c (by simp)]
      simp [Layout.line]

theorem toList_prettyText (b : Block) : ∀ depth, (b.prettyText depth).toList =
    (indent depth).toList ++ (b.written .pretty depth ++ ['\n']) := by
  induction b using Block.inductionOn with
  | h b ih =>
      intro depth
      obtain ⟨kind, ds, cs⟩ := b
      have hds := join_declarations depth ds
      have hcs := prettyText_go (depth + 1) fun c hc => ih c hc (depth + 1)
      have hheader : kind.written .pretty =
          (kind.header .pretty).toList ++ [' '] :=
        rfl
      have hcontent : '\n' :: ((String.join (ds.map fun d =>
          indent depth ++ "  " ++ d.text ++ ";\n")).toList ++
            ((Block.prettyText.go (depth + 1) cs).toList ++
              (indent depth).toList)) =
          writtenDeclarations .pretty (depth + 1) ds ++
            (Block.written.go .pretty (depth + 1) cs ++
              Layout.line depth .pretty) := by
        rw [← List.cons_append, hds, List.append_assoc, List.singleton_append,
          ← List.cons_append, hcs, List.append_assoc]
        rfl
      rw [Block.prettyText, Block.written, writtenContent_eq (Or.inl rfl),
        ← hcontent, hheader]
      simp

theorem intercalate_declarations (depth : Nat) (ds : List Declaration) :
    [';'].intercalate (ds.map (Declaration.written .compact)) ++
        (if ds.isEmpty then [] else [';']) =
      writtenDeclarations .compact depth ds := by
  match ds with
  | [] => rfl
  | [d] => simp [writtenDeclarations, Layout.line]
  | d :: e :: ds =>
      have hrest := intercalate_declarations depth (e :: ds)
      rw [writtenDeclarations, List.flatMap_cons, ← writtenDeclarations,
        ← hrest]
      simp [Layout.line, List.intercalate_cons_cons]

theorem compactText_go (depth : Nat) {cs : List Block}
    (h : ∀ c ∈ cs, c.compactText.toList = c.written .compact depth) :
    (Block.compactText.go cs).toList = Block.written.go .compact depth cs := by
  induction cs with
  | nil => rfl
  | cons c cs ih =>
      rw [Block.written.go, ← ih fun d hd => h d (by simp [hd]),
        ← h c (by simp), Block.compactText.go, String.toList_append]
      rfl

theorem toList_compactText (b : Block) : ∀ depth,
    b.compactText.toList = b.written .compact depth := by
  induction b using Block.inductionOn with
  | h b ih =>
      intro depth
      obtain ⟨kind, ds, cs⟩ := b
      have hcs := compactText_go (depth + 1) fun c hc => ih c hc (depth + 1)
      have hheader : kind.written .compact = (kind.header .compact).toList := by
        simp [BlockKind.written, Layout.pad]
      have hds : (String.intercalate ";"
          (ds.map Declaration.compactText)).toList =
          [';'].intercalate (ds.map (Declaration.written .compact)) := by
        rw [String.toList_intercalate, List.map_map]
        refine congrArg _ (List.map_congr_left fun d _ => ?_)
        exact compactText_eq_written d
      rw [Block.compactText, Block.written]
      cases cs with
      | nil => simp [hheader, hds, Block.compactText.go, writtenContent]
      | cons c cs =>
          have hall := intercalate_declarations (depth + 1) ds
          have hsemicolon : (if ds.isEmpty || (c :: cs).isEmpty then "" else
              ";").toList = if ds.isEmpty then [] else [';'] := by
            cases ds <;> simp
          rw [writtenContent_eq (Or.inr (by simp)), ← hall, ← hds, ← hcs,
            hheader, ← hsemicolon]
          simp [Layout.line]

/-! ## Sheets -/

/-- What is printed behind each block of a sheet. -/
def Layout.finish : Layout → List Char
  | .pretty => ['\n']
  | .compact => []

/-- The blocks of a sheet as they are printed. -/
def writtenSheet (layout : Layout) (bs : List Block) : List Char :=
  layout.gap.toList.intercalate
    (bs.map fun b => b.written layout 0 ++ layout.finish)

theorem toList_textIn (layout : Layout) (b : Block) :
    (b.textIn layout).toList = b.written layout 0 ++ layout.finish := by
  cases layout with
  | pretty => exact toList_prettyText b 0
  | compact => exact (toList_compactText b 0).trans (List.append_nil _).symm

theorem toList_print {t : Block} (h : t.kind = .root) (layout : Layout) :
    (t.print layout).toList = writtenSheet layout t.children := by
  have hroot : t.isRoot = true := by
    rw [Block.isRoot, h]
  rw [Block.print, if_pos hroot, String.toList_intercalate, List.map_map]
  refine congrArg _ (List.map_congr_left fun b _ => ?_)
  exact toList_textIn layout b

end CssVendor
