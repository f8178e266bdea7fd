import CssVendor.Proofs.IdentifierNames
import CssVendor.Proofs.RoundTrip
import CssVendor.Proofs.SheetRun

/-!
# The tool on its own output

A sheet that the tool has written comes back unchanged when the tool is run on
it again. Three things meet here. A form that is filled in has a name that can
be printed, so a legible tree is legible after a run and its text is parsed
into it again (`Sheet.parse_print`). If no declared name bears more than one
mark, all that one expansion can add is there after the first, so the second
run leaves the tree alone. And the layout is not part of the tree: whichever
the first output was written in, the second is written from the same tree.
-/

namespace CssVendor

open Syntax Text Sheet

/-- Whether a name reads as a vendor's form. -/
def NameForm.isVendored : NameForm → Bool
  | .vendored _ _ => true
  | _ => false

/-- Whether a name that is a vendor's form stands for a name written without
escapes, which is no vendor's form itself. -/
def isOnceMarked (n : String) : Bool :=
  match NameForm.of n with
  | .vendored _ c => isPlainName c.toList && !(NameForm.of c).isVendored
  | _ => true

theorem isOnceMarked_vendored {n c : String} {v : Vendor}
    (h : isOnceMarked n = true) (hn : NameForm.of n = .vendored v c) :
    isPlainName c.toList = true ∧ nesting c = 0 := by
  rw [isOnceMarked, hn, Bool.and_eq_true] at h
  obtain ⟨hplain, hvendored⟩ := h
  refine ⟨hplain, nesting_eq_zero fun w e hc => ?_⟩
  rw [hc] at hvendored
  cases hvendored

theorem nesting_le_one_of_isOnceMarked {n : String}
    (h : isOnceMarked n = true) : nesting n ≤ 1 := by
  cases hn : NameForm.of n with
  | vendored v c =>
      rw [nesting_of_vendored hn, (isOnceMarked_vendored h hn).2]
  | plain | dangling =>
      rw [nesting_eq_zero fun v c hc => by rw [hn] at hc; cases hc]
      exact Nat.zero_le 1

theorem fill_fill {ds : List Declaration}
    (h : ∀ d ∈ ds, isOnceMarked d.name = true) : fill (fill ds) = fill ds := by
  have hsettled : SettledBelow 1 ds := settledBelow_of_nesting_le fun d hd =>
    nesting_le_one_of_isOnceMarked (h d hd)
  exact fill_of_settledBelow_zero (settledBelow_fill hsettled)

/-- What a vendor's form stands for is no stub then. -/
theorem stubless_of_isOnceMarked {ds : List Declaration}
    (h : ∀ d ∈ ds, isOnceMarked d.name = true) : Stubless ds := by
  intro d hd v c hname
  by_cases hc : c = ""
  · subst hc
    rfl
  · have hform : NameForm.of d.name = .vendored v c := by
      rw [hname, NameForm.of_apply v hc]
    exact isStub_of_isPlainName (isOnceMarked_vendored (h d hd) hform).1

/-! ## Trees after one run and after two -/

/-- Whether no name declared in a tree bears more than one mark, and what the
marked ones stand for can be printed. -/
def Block.OnceMarked (t : Block) : Prop :=
  ∀ b ∈ t.preorder, ∀ d ∈ b.declarations, isOnceMarked d.name = true

instance (t : Block) : Decidable t.OnceMarked :=
  inferInstanceAs (Decidable (∀ b ∈ t.preorder, _))

namespace Filler

/-- A second run finds nothing to fill in. -/
theorem tree_run_run (f g : Filler) {t : Block} (h : t.TidySheet)
    (hmarked : t.OnceMarked) :
    (g.run (f.run t).tree).tree = (f.run t).tree := by
  have hfirst := (f.run_sheet h).2
  have hsecond := (g.run_sheet (f.tidySheet_run h)).2
  have hfilled : ∀ b' ∈ (f.run t).tree.preorder,
      fill b'.declarations = b'.declarations := by
    refine forall₂_mem_right (fun b b' hb hbb' => ?_) hfirst hmarked
    rw [hbb'.declarations]
    exact fill_fill hb
  refine (Block.eq_of_agrees (forall₂_imp (fun b hb b' hbb' => ?_)
    hsecond)).symm
  exact ⟨hbb'.kind.symm, (hbb'.declarations.trans (hfilled b hb)).symm,
    hbb'.children.symm⟩

/-- A sheet that can be printed can be printed after a run. -/
theorem printable_run (f : Filler) {t : Block} (h : t.TidySheet)
    (hlegible : ∀ b ∈ t.children, b.Legible) (hmarked : t.OnceMarked) :
    (f.run t).tree.Printable := by
  have htidy := f.tidySheet_run h
  refine ⟨htidy.root, htidy.bare, ?_⟩
  have hfilled := (f.run_sheet h).2
  rw [Block.preorder_eq, Block.preorder_eq, List.forall₂_cons] at hfilled
  have hblocks := forall₂_mem_right
    (p := fun b => (b.kind.Legible ∧ ∀ d ∈ b.declarations, d.Legible) ∧
      ∀ d ∈ b.declarations, isOnceMarked d.name = true)
    (q := fun b' => b'.kind.Legible ∧ ∀ d ∈ b'.declarations, d.Legible)
    (fun b b' hb hbb' => ?_) hfilled.2 fun b hb => ?_
  · intro b hb c hc
    exact hblocks c (Block.mem_preorder_go.2 ⟨b, hb, hc⟩)
  · obtain ⟨⟨hkind, hdeclarations⟩, hnames⟩ := hb
    rw [hbb'.kind, hbb'.declarations]
    exact ⟨hkind, legible_fill hdeclarations (stubless_of_isOnceMarked hnames)⟩
  · obtain ⟨c, hc, hbc⟩ := Block.mem_preorder_go.1 hb
    exact ⟨hlegible c hc b hbc,
      hmarked b (by rw [Block.preorder_eq]; exact List.mem_cons_of_mem _ hb)⟩

end Filler

/-! ## Outputs -/

/-- Filling in a sheet that is accepted gives the text of its tree after one
run. -/
theorem generate_of_parse [Sheet.Validator] {css : String} {t : Block}
    {records : List Record} (hparse : Sheet.parse css = .ok (t, records))
    (options : Options) (layout : Layout) :
    (generate css options layout).1 =
      .ok (((Filler.new options).run t).tree.print layout) := by
  have hresult := ((Filler.new options).run_sheet
    (Sheet.tidySheet_of_parse hparse)).1
  have hrun : (Plugin.runAll [.register options] t).result = .ok () ∧
      (Plugin.runAll [.register options] t).tree =
        ((Filler.new options).run t).tree := by
    have hplugin : ((Plugin.register options).run t).result = .ok () := hresult
    simp only [Plugin.runAll, hplugin]
    exact ⟨trivial, rfl⟩
  simp only [generate, Compiler.new, Compiler.setLayout, Compiler.add,
    List.nil_append, Compiler.compile, hparse, hrun]
  rfl

/-- The output for a sheet of legible texts, in which no name bears more than
one mark, is the same for all options, and running the tool on it is harmless:
if the output in either layout is accepted as a sheet at all, then the output
for it is, in every layout, that for the sheet one began with. -/
theorem generate_generate [Sheet.Validator] {css : String} {t : Block}
    {records : List Record} (hparse : Sheet.parse css = .ok (t, records))
    (hlegible : ∀ b ∈ t.children, b.Legible) (hmarked : t.OnceMarked) :
    ∃ out : Layout → String,
      (∀ options layout, (generate css options layout).1 = .ok (out layout)) ∧
      ∀ layout, (∃ r, Sheet.parse (out layout) = .ok r) →
        ∀ options layout',
          (generate (out layout) options layout').1 = .ok (out layout') := by
  have htidy := Sheet.tidySheet_of_parse hparse
  let f := Filler.new default
  refine ⟨fun layout => (f.run t).tree.print layout, fun options layout => ?_,
    fun layout haccepted options layout' => ?_⟩
  · rw [generate_of_parse hparse, (Filler.run_eq _ f t).2]
  · obtain ⟨r, hr⟩ := haccepted
    have hprint := (Sheet.parse_print
      (f.printable_run htidy hlegible hmarked) layout).2
    have hparse' := hprint
    rw [hr] at hprint
    split at hprint
    · next hsheet =>
        rw [if_pos hsheet] at hparse'
        rw [generate_of_parse hparse', f.tree_run_run _ htidy hmarked]
    · cases hprint

/-- A rule in a group: the form that is declared and the four that are filled in
stand in the output, and nothing else comes of it. -/
theorem generate_generate_grouped :
    let css := "@media print \x7b a \x7b -o-x: 1px \x7d \x7d"
    let out := "@media print\x7ba\x7b-o-x:1px;-webkit-x:1px;-moz-x:1px;" ++
      "-ms-x:1px;x:1px\x7d\x7d"
    ∀ options layout, (generate css options .compact).1 = .ok out ∧
      (generate out options layout).1 = (generate css options layout).1 := by
  intro css out options layout
  have haccepted : ∀ s ∈ [css, out],
      Grammar.isSheet (components s.toList) = true := by decide +kernel
  have hparse : ∀ s ∈ [css, out],
      Sheet.parse s = .ok (Sheet.tree (components s.toList)) := fun s hs =>
    if_pos (haccepted s hs)
  have hlegible : ∀ b ∈ (Sheet.tree (components css.toList)).1.children,
      b.Legible := by decide +kernel
  have hmarked : (Sheet.tree (components css.toList)).1.OnceMarked := by
    decide +kernel
  obtain ⟨text, htext, hagain⟩ :=
    generate_generate (hparse css (by simp)) hlegible hmarked
  have hout : text .compact = out := by
    have hcompact := htext default .compact
    have hvalue : (generate css default .compact).1 = .ok out := by
      decide +kernel
    rw [hvalue] at hcompact
    exact (Except.ok.inj hcompact).symm
  have hsame := hagain .compact (by rw [hout]; exact ⟨_, hparse out (by simp)⟩)
  rw [hout] at hsame
  exact ⟨by rw [htext, hout], by rw [hsame, htext]⟩

end CssVendor
