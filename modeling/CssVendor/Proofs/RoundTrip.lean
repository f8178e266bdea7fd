import CssVendor.Proofs.Written
import CssVendor.Sheet.Parse

/-!
# Printed trees read back

A tree of legible blocks, printed in either layout, reads as that tree. The
proof follows the recursion of `Block.written`, and the judgments `Reads` and
`Says` are put together as the text is.
-/

namespace CssVendor

open Syntax Text Sheet

variable {x : List Char} {cs : List Component}

/-- Every block of a tree can be printed and read back. -/
def Block.Legible (b : Block) : Prop :=
  ∀ c ∈ b.preorder, c.kind.Legible ∧ ∀ d ∈ c.declarations, d.Legible

instance (b : Block) : Decidable b.Legible :=
  inferInstanceAs (Decidable (∀ c ∈ b.preorder, _))

theorem Block.Legible.self {b : Block} (h : b.Legible) :
    b.kind.Legible ∧ ∀ d ∈ b.declarations, d.Legible :=
  h b (Block.mem_preorder.2 (Or.inl rfl))

theorem Block.Legible.child {b c : Block} (h : b.Legible)
    (hc : c ∈ b.children) : c.Legible :=
  fun d hd => h d (Block.mem_preorder.2 (Or.inr ⟨c, hc, hd⟩))

/-! ## Blanks -/

theorem reads_gap {w : List Char} (hw : ∀ c ∈ w, isSpace c = true)
    (hx : headIs isSpace x = false) :
    ∃ cs, Reads w cs x ∧ ∀ place, Says place cs .empty := by
  by_cases hnil : w = []
  · subst hnil
    exact ⟨[], Reads.nil x, Says.nil⟩
  · refine ⟨_, Reads.blanks hnil hw hx, fun place => Says.gap ?_⟩
    cases place <;> rfl

theorem isSpace_indent (depth : Nat) :
    ∀ c ∈ (indent depth).toList, isSpace c = true := by
  induction depth with
  | zero => simp [indent]
  | succ depth ih =>
      rw [indent, String.toList_append]
      exact List.forall_mem_append.2 ⟨by decide, ih⟩

theorem isSpace_line (layout : Layout) (depth : Nat) :
    ∀ c ∈ layout.line depth, isSpace c = true := by
  cases layout with
  | compact => simp [Layout.line]
  | pretty => exact List.forall_mem_cons.2 ⟨by decide, isSpace_indent depth⟩

theorem head_selectorChars {s : List Char} (h : LegibleSelector s)
    (pad : List Char) (rest : List (List Char)) (t : List Char) :
    headIs isSpace (selectorChars pad [] (s :: rest) ++ t) = false := by
  cases rest with
  | nil =>
      rw [selectorChars, List.nil_append, List.append_assoc,
        headIs_append h.nonempty]
      exact h.trimmed.head_not_space
  | cons s' rest =>
      rw [selectorChars, List.nil_append, List.append_assoc,
        headIs_append h.nonempty]
      · exact h.trimmed.head_not_space
      · simp

/-- A printed header begins with no blank. -/
theorem BlockKind.Legible.head_not_space {kind : BlockKind} (h : kind.Legible)
    (layout : Layout) (t : List Char) :
    headIs isSpace (kind.written layout ++ t) = false := by
  match kind, h with
  | .style [], h => exact absurd rfl h.1
  | .style (s :: selectors), h =>
      have hne : s :: selectors ≠ [] := by simp
      have hchars := selectorChars_eq layout hne []
      rw [List.nil_append] at hchars
      show headIs isSpace ((String.intercalate layout.comma _).toList ++
        layout.pad ++ t) = false
      rw [← hchars]
      exact head_selectorChars (h.2 s (by simp)) _ _ t
  | .atRule name prelude, h =>
      obtain ⟨lead, -, -, hheader⟩ := atRule_written layout name prelude
      rw [hheader]
      rfl

theorem Declaration.Legible.head_not_space {d : Declaration} (h : d.Legible)
    (layout : Layout) (t : List Char) :
    headIs isSpace (d.written layout ++ t) = false := by
  have hident := startsIdent_of_isPlainName h.name
  have hchars := isNameChar_of_isPlainName h.name
  have hne : d.name.toList ≠ [] := by
    intro hnil
    rw [hnil] at hident
    cases hident
  rw [Declaration.written, List.append_assoc, headIs_append hne]
  cases hname : d.name.toList with
  | nil => exact absurd hname hne
  | cons c n =>
      rw [hname] at hchars
      have hc := (hchars c (by simp)).1
      have hspace : ∀ d ∈ [' ', '\t', '\n', '\r', '\x0c'], c ≠ d := by
        intro d hd
        refine ne_of_isNameChar hc ?_
        revert d
        decide
      simp [headIs, isSpace, isNewline, hspace]

/-! ## The content of a block -/

/-- Declarations with semicolons are read one by one. -/
theorem reads_declarations {ds : List Declaration} (h : ∀ d ∈ ds, d.Legible)
    (layout : Layout) (depth : Nat) (x : List Char) :
    ∃ cs, Reads (writtenDeclarations layout depth ds) cs x ∧
      Says .body cs ⟨ds, [], []⟩ := by
  induction ds with
  | nil => exact ⟨[], Reads.nil x, Says.nil .body⟩
  | cons d ds ih =>
      obtain ⟨rest, hrest, hsaidRest⟩ := ih fun e he => h e (by simp [he])
      have hd := h d (by simp)
      obtain ⟨value, hreads, hgoesOn, hdeclaration⟩ :=
        hd.reads layout (x := ';' :: (writtenDeclarations layout depth ds ++ x))
          (startsBreak_cons (by decide) (by decide) (by decide)) rfl
      have hsemicolon := Reads.mark (c := ';') (by decide) rfl
        (writtenDeclarations layout depth ds ++ x)
      obtain ⟨blanks, hblanks, hgap⟩ := reads_gap (isSpace_line layout depth)
        (hd.head_not_space layout
          (';' :: (writtenDeclarations layout depth ds ++ x)))
      have hsaid := (hgap .body).append
        ((says_declaration hdeclaration hgoesOn).append hsaidRest)
      refine ⟨_, ?_, hsaid⟩
      have hall := ((hblanks.append hreads).append hsemicolon).append hrest
      rw [writtenDeclarations, List.flatMap_cons, ← writtenDeclarations]
      simp only [List.append_assoc] at hall ⊢
      exact hall

/-- So are declarations with semicolons between them. -/
theorem reads_last_declarations {ds : List Declaration}
    (h : ∀ d ∈ ds, d.Legible) (hx : StartsBreak x)
    (hblank : headIs isSpace x = false) :
    ∃ cs, Reads ([';'].intercalate (ds.map (Declaration.written .compact))) cs
        x ∧ bodyOf (annotate bodyOf cs) = ⟨ds, [], []⟩ := by
  rcases List.eq_nil_or_concat ds with rfl | ⟨ds, d, rfl⟩
  · exact ⟨[], Reads.nil x, rfl⟩
  · rw [List.concat_eq_append] at h ⊢
    have hwritten := intercalate_declarations 0 (ds ++ [d])
    have hne : (ds ++ [d]).isEmpty = false := by simp
    rw [hne, writtenDeclarations, List.flatMap_append, ← writtenDeclarations,
      List.flatMap_singleton, Layout.line, List.nil_append,
      ← List.append_assoc] at hwritten
    have hd := h d (by simp)
    obtain ⟨value, hreads, hgoesOn, hdeclaration⟩ :=
      hd.reads .compact hx hblank
    obtain ⟨cs, hcs, hsaid⟩ := reads_declarations
      (fun e (he : e ∈ ds) => h e (by simp [he])) .compact 0
      (d.written .compact ++ x)
    refine ⟨_, ?_, bodyOf_append_declaration hdeclaration hgoesOn hsaid⟩
    rw [List.append_cancel_right hwritten]
    exact hcs.append hreads

/-- A block reads as itself wherever it is printed. -/
def Block.ReadsBack (b : Block) : Prop :=
  ∀ layout depth x, ∃ cs, Reads (b.written layout depth) cs x ∧
    ∀ place, Says place cs ⟨[], [b], []⟩

theorem Block.head_written {b : Block} (h : b.kind.Legible) (layout : Layout)
    (depth : Nat) (t : List Char) :
    headIs isSpace (b.written layout depth ++ t) = false := by
  obtain ⟨kind, ds, cs⟩ := b
  rw [Block.written, List.append_assoc]
  exact h.head_not_space layout _

theorem reads_children {bs : List Block} (h : ∀ b ∈ bs, b.ReadsBack)
    (hkind : ∀ b ∈ bs, b.kind.Legible) (layout : Layout) (depth : Nat)
    (x : List Char) :
    ∃ cs, Reads (Block.written.go layout depth bs) cs x ∧
      Says .body cs ⟨[], bs, []⟩ := by
  induction bs with
  | nil => exact ⟨[], Reads.nil x, Says.nil .body⟩
  | cons b bs ih =>
      obtain ⟨rest, hrest, hsaidRest⟩ := ih (fun c hc => h c (by simp [hc]))
        fun c hc => hkind c (by simp [hc])
      obtain ⟨cs, hreads, hsaid⟩ := h b (by simp) layout depth
        (Block.written.go layout depth bs ++ x)
      obtain ⟨blanks, hblanks, hgap⟩ := reads_gap (isSpace_line layout depth)
        (Block.head_written (hkind b (by simp)) layout depth
          (Block.written.go layout depth bs ++ x))
      refine ⟨_, ?_, (hgap .body).append ((hsaid .body).append hsaidRest)⟩
      have hall := (hblanks.append hreads).append hrest
      simp only [List.append_assoc] at hall
      exact hall

/-- What stands between the braces of a block says its declarations and its
children. -/
theorem reads_content {ds : List Declaration} {bs : List Block}
    (hds : ∀ d ∈ ds, d.Legible) (hbs : ∀ b ∈ bs, b.ReadsBack)
    (hkind : ∀ b ∈ bs, b.kind.Legible) (layout : Layout) (depth : Nat)
    (x : List Char) :
    ∃ cs, Reads (writtenContent depth ds
        (Block.written.go layout (depth + 1) bs) layout bs) cs
        ('\x7d' :: x) ∧
      bodyOf (annotate bodyOf cs) = ⟨ds, bs, []⟩ := by
  have hbrace : StartsBreak ('\x7d' :: x) :=
    startsBreak_cons (by decide) (by decide) (by decide)
  -- Only here does a declaration end without a semicolon.
  by_cases hlast : layout = .compact ∧ bs = []
  · obtain ⟨rfl, rfl⟩ := hlast
    exact reads_last_declarations hds hbrace rfl
  · have hwritten : layout = .pretty ∨ bs ≠ [] := by
      cases layout with
      | pretty => exact Or.inl rfl
      | compact => exact Or.inr fun hnil => hlast ⟨rfl, hnil⟩
    rw [writtenContent_eq hwritten]
    obtain ⟨blanks, hblanks, hgap⟩ :=
      reads_gap (x := '\x7d' :: x) (isSpace_line layout depth) rfl
    obtain ⟨children, hchildren, hsaidChildren⟩ :=
      reads_children hbs hkind layout (depth + 1)
        (layout.line depth ++ '\x7d' :: x)
    obtain ⟨cs, hcs, hsaid⟩ := reads_declarations hds layout (depth + 1)
      (Block.written.go layout (depth + 1) bs ++
        (layout.line depth ++ '\x7d' :: x))
    have hbody : ((Body.mk ds [] []).append ⟨[], bs, []⟩).append .empty =
        ⟨ds, bs, []⟩ := by
      simp [Body.append, Body.empty]
    have hall := ((hsaid.append hsaidChildren).append (hgap .body)).bodyOf_eq
    refine ⟨_, ?_, hall.trans hbody⟩
    rw [← List.append_assoc]
    refine (hcs.append hchildren).append ?_
    exact hblanks

/-- A printed block reads as itself. -/
theorem Block.readsBack (b : Block) (h : b.Legible) : b.ReadsBack := by
  -- For all depths and all that follows: children stand deeper than `b`.
  induction b using Block.inductionOn with
  | h b ih =>
      obtain ⟨kind, ds, bs⟩ := b
      have hself := h.self
      have hbs : ∀ b ∈ bs, b.Legible := fun b hb => h.child hb
      have hkind : ∀ b ∈ bs, b.kind.Legible := fun b hb => (hbs b hb).self.1
      intro layout depth x
      obtain ⟨content, hcontent, hbody⟩ := reads_content hself.2
        (fun b hb => ih b hb (hbs b hb)) hkind layout depth x
      obtain ⟨header, hheader, hsaid⟩ := hself.1.reads layout _
      refine ⟨_, hheader.append hcontent.curly, fun place => ?_⟩
      have hblock := hsaid place content (some ⟨.closeCurly, ['\x7d']⟩)
      rw [hbody] at hblock
      exact hblock

/-! ## Sheets -/

/-- Behind a block of a sheet stand blanks and the rest of the sheet. -/
theorem writtenSheet_cons (layout : Layout) (b : Block) (bs : List Block) :
    ∃ w, (∀ c ∈ w, isSpace c = true) ∧ writtenSheet layout (b :: bs) =
      b.written layout 0 ++ (w ++ writtenSheet layout bs) := by
  have hfinish : ∀ c ∈ layout.finish, isSpace c = true := by
    cases layout <;> decide
  have hgap : ∀ c ∈ layout.gap.toList, isSpace c = true := by
    cases layout <;> decide
  cases bs with
  | nil =>
      refine ⟨layout.finish, hfinish, ?_⟩
      simp [writtenSheet]
  | cons c bs =>
      refine ⟨layout.finish ++ layout.gap.toList, ?_, ?_⟩
      · intro d hd
        exact (List.mem_append.1 hd).elim (hfinish d) (hgap d)
      · simp [writtenSheet, List.intercalate_cons_cons]

/-- The blocks of a sheet are read one by one. -/
theorem reads_sheet {bs : List Block} (h : ∀ b ∈ bs, b.ReadsBack)
    (hkind : ∀ b ∈ bs, b.kind.Legible) (layout : Layout) :
    headIs isSpace (writtenSheet layout bs) = false ∧
      ∃ cs, Reads (writtenSheet layout bs) cs [] ∧
        Says .sheet cs ⟨[], bs, []⟩ := by
  induction bs with
  | nil => exact ⟨rfl, [], Reads.nil [], Says.nil .sheet⟩
  | cons b bs ih =>
      obtain ⟨hhead, rest, hrest, hsaidRest⟩ :=
        ih (fun c hc => h c (by simp [hc])) fun c hc => hkind c (by simp [hc])
      obtain ⟨w, hw, htext⟩ := writtenSheet_cons layout b bs
      rw [htext]
      refine ⟨Block.head_written (hkind b (by simp)) layout 0 _, ?_⟩
      obtain ⟨blanks, hblanks, hgap⟩ :=
        reads_gap (x := writtenSheet layout bs ++ []) hw (by simpa using hhead)
      obtain ⟨cs, hreads, hsaid⟩ := h b (by simp) layout 0
        (w ++ writtenSheet layout bs ++ [])
      refine ⟨_, hreads.append (hblanks.append hrest), ?_⟩
      exact (hsaid .sheet).append ((hgap .sheet).append hsaidRest)

/-- A tree that can be printed and read back: a root, with nothing declared at
the level of the sheet, over legible blocks. -/
structure Block.Printable (t : Block) : Prop where
  root : t.kind = .root
  bare : t.declarations = []
  legible : ∀ b ∈ t.children, b.Legible

instance (t : Block) : Decidable t.Printable :=
  decidable_of_iff (_ ∧ _ ∧ _)
    ⟨fun h => ⟨h.1, h.2.1, h.2.2⟩, fun h => ⟨h.root, h.bare, h.legible⟩⟩

/-- What a printed sheet says is what its tree says. -/
theorem Block.Printable.bodyOfSheet_print {t : Block} (h : t.Printable)
    (layout : Layout) :
    bodyOfSheet (components (t.print layout).toList) = ⟨[], t.children, []⟩ := by
  obtain ⟨-, cs, hreads, hsaid⟩ := reads_sheet
    (fun b hb => b.readsBack (h.legible b hb))
    (fun b hb => (h.legible b hb).self.1) layout
  rw [toList_print h.root, hreads.components_eq]
  exact hsaid.bodyOfSheet_eq

/-- Parsing undoes printing. In either layout, a tree of legible blocks is cut
out of its printed text again, with no warning; so if the text is accepted at
all, it is parsed into that tree. -/
theorem Sheet.parse_print [Validator] {t : Block} (h : t.Printable)
    (layout : Layout) :
    let css := t.print layout
    let records : List Record :=
      [.debug ("parsed stylesheet into " ++ Nat.repr t.count ++ " blocks")]
    tree (components css.toList) = (t, records) ∧ parse css =
      if Validator.accepts css then .ok (t, records)
      else .error (.malformedSheet (Validator.reason css)) := by
  have htree : tree (components (t.print layout).toList) = (t,
      [.debug ("parsed stylesheet into " ++ Nat.repr t.count ++ " blocks")]) := by
    obtain ⟨kind, ds, cs⟩ := t
    obtain rfl : kind = .root := h.root
    obtain rfl : ds = [] := h.bare
    rw [tree, h.bodyOfSheet_print layout]
    rfl
  refine ⟨htree, ?_⟩
  rw [parse, htree]

/-- A sheet with a rule nested three blocks deep. -/
def nestedSheet : Block :=
  ⟨.root, [], [⟨.atRule "media" "print", [], [⟨.style [".a", "p"],
    [⟨"color", "red", true⟩, ⟨"width", "calc(1px + 0px)", false⟩],
    [⟨.style ["a:hover"], [⟨"src", "url(b.png)", false⟩], []⟩]⟩]⟩]⟩

theorem Sheet.parse_print_nestedSheet :
    nestedSheet.Printable ∧
      parse ("@media print\x7b.a,p\x7bcolor:red!important;" ++
        "width:calc(1px + 0px);a:hover\x7bsrc:url(b.png)\x7d\x7d\x7d") =
        .ok (nestedSheet, [.debug "parsed stylesheet into 4 blocks"]) := by
  have h : nestedSheet.Printable := by decide +kernel
  have htext : nestedSheet.print .compact =
      "@media print\x7b.a,p\x7bcolor:red!important;" ++
        "width:calc(1px + 0px);a:hover\x7bsrc:url(b.png)\x7d\x7d\x7d" := by
    decide +kernel
  have haccepted : Validator.accepts (nestedSheet.print .compact) = true := by
    decide +kernel
  have hparse := (parse_print h .compact).2
  rw [if_pos haccepted, htext] at hparse
  exact ⟨h, hparse⟩

end CssVendor
