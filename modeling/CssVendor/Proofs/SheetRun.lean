import CssVendor.Compiler
import CssVendor.Proofs.RepeatedRun
import CssVendor.Proofs.Tidy

/-!
# Runs over the tree of a sheet

No run over the tree of a sheet can fail. What the filler refuses is a property
without a name; a tidy tree has none, and a form that is filled in has a name
because the canonical name it is made from is not empty. So the tree is tidy
after a run as it was before, and the next plugin in a chain meets a tidy tree
again. All that is left to go wrong in compiling a sheet is that the text is no
sheet.
-/

namespace CssVendor

/-- What one run makes of a block of a sheet, apart from what is in the blocks
below it. -/
structure Block.FilledOnce (b b' : Block) : Prop where
  kind : b'.kind = b.kind
  declarations : b'.declarations = fill b.declarations
  children : b'.children.length = b.children.length

theorem Block.filledOnce_of_filled {b b' : Block}
    (h : b.isRoot = true → b.declarations = [])
    (hnamed : ∀ d ∈ b.declarations, d.name ≠ "") (hfilled : b.Filled b') :
    b.FilledOnce b' := by
  rw [Filled] at hfilled
  split at hfilled
  · next hroot =>
      refine ⟨hfilled.kind.symm, ?_, hfilled.children.symm⟩
      rw [← hfilled.declarations, h hroot]
      rfl
  · next hroot =>
      obtain ⟨e, he, hagrees⟩ := hfilled
      rw [expand_of_named (by simpa using hroot) hnamed] at he
      cases he
      exact ⟨hagrees.kind.symm, hagrees.declarations.symm,
        hagrees.children.symm⟩

theorem tidy_fill {ds : List Declaration} (h : ∀ d ∈ ds, d.Tidy) :
    ∀ d ∈ fill ds, d.Tidy := by
  have hnamed := fill_named fun d hd => (h d hd).named
  intro d hd
  rcases List.mem_append.1 hd with hold | hnew
  · exact h d hold
  · obtain ⟨e, he, c, -, n, -, rfl⟩ := exists_of_mem_missingForms hnew
    exact ⟨hnamed _ hd, (h e he).trimmed, (h e he).plain⟩

theorem Block.Tidy.filledOnce {b b' : Block} (h : b.Tidy)
    (hfilled : b.FilledOnce b') : b'.Tidy := by
  refine ⟨?_, ?_⟩
  · rw [hfilled.kind]
    exact h.kind
  · rw [hfilled.declarations]
    exact tidy_fill h.declarations

theorem Block.TidySheet.named {t : Block} (h : t.TidySheet) :
    ∀ b ∈ t.preorder, ∀ d ∈ b.declarations, d.name ≠ "" := by
  intro b hb d hd
  rw [preorder_eq] at hb
  rcases List.mem_cons.1 hb with rfl | hb
  · rw [h.bare] at hd
    cases hd
  · exact ((h.blocks b hb).declarations d hd).named

theorem Block.TidySheet.bare_of_isRoot {t b : Block} (h : t.TidySheet)
    (hb : b ∈ t.preorder) (hroot : b.isRoot = true) : b.declarations = [] := by
  rw [preorder_eq] at hb
  rcases List.mem_cons.1 hb with rfl | hb
  · exact h.bare
  · rw [(h.blocks b hb).kind.not_root] at hroot
    cases hroot

namespace Filler

/-- A run over the tree of a sheet comes to its end and fills in every
block. -/
theorem run_sheet (f : Filler) {t : Block} (h : t.TidySheet) :
    (f.run t).result = .ok () ∧
      List.Forall₂ Block.FilledOnce t.preorder (f.run t).tree.preorder := by
  have hnamed : t.Named := fun b hb ⟨_, d, hd, hempty⟩ =>
    h.named b hb d hd hempty
  obtain ⟨hresult, hfilled⟩ := run_of_named (f := f) hnamed
  refine ⟨hresult, forall₂_imp (fun b hb b' hbb' => ?_) hfilled⟩
  exact Block.filledOnce_of_filled (h.bare_of_isRoot hb) (h.named b hb) hbb'

theorem tidySheet_run (f : Filler) {t : Block} (h : t.TidySheet) :
    (f.run t).tree.TidySheet := by
  obtain ⟨-, hfilled⟩ := f.run_sheet h
  rw [Block.preorder_eq, Block.preorder_eq, List.forall₂_cons] at hfilled
  obtain ⟨hroot, hblocks⟩ := hfilled
  refine ⟨hroot.kind.trans h.root, ?_, forall₂_mem_right
    (fun b b' hb hfilled => hb.filledOnce hfilled) hblocks h.blocks⟩
  rw [hroot.declarations, h.bare]
  rfl

end Filler

/-! ## Chains of fillers -/

/-- Whether a plugin is a filler, whatever its options and its count. -/
def Plugin.IsFiller (p : Plugin) : Prop := ∃ f : Filler, p = .filler f

theorem Plugin.runAll_sheet {ps : List Plugin} (hps : ∀ p ∈ ps, p.IsFiller)
    {t : Block} (h : t.TidySheet) :
    (runAll ps t).result = .ok () ∧ (runAll ps t).tree.TidySheet ∧
      ∀ p ∈ (runAll ps t).plugin, p.IsFiller := by
  induction ps generalizing t with
  | nil => exact ⟨rfl, h, List.forall_mem_nil _⟩
  | cons p ps ih =>
      obtain ⟨f, rfl⟩ := hps p (List.mem_cons_self ..)
      have hresult : ((Plugin.filler f).run t).result = .ok () :=
        (f.run_sheet h).1
      obtain ⟨hrest, htree, hfillers⟩ :=
        ih (fun q hq => hps q (List.mem_cons_of_mem _ hq)) (f.tidySheet_run h)
      simp only [runAll, hresult]
      refine ⟨hrest, htree, fun q hq => ?_⟩
      rcases List.mem_cons.1 hq with rfl | hq
      · exact ⟨_, rfl⟩
      · exact hfillers q hq

/-- The tree of every sheet is tidy, and every run of a filler over a tidy tree
comes to its end and leaves it tidy. So a compiler whose plugins are fillers,
however many and whatever they have run over before, compiles every sheet; it
fails on no text but one that is no sheet, and it is again such a compiler
afterwards. -/
theorem Compiler.compile_of_fillers [Sheet.Validator] :
    (∀ css t records, Sheet.parse css = .ok (t, records) → t.TidySheet) ∧
    (∀ (f : Filler) (t : Block), t.TidySheet →
      (f.run t).result = .ok () ∧ (f.run t).tree.TidySheet) ∧
    ∀ (c : Compiler) (css : String), (∀ p ∈ c.plugins, p.IsFiller) →
      ((∃ r text, Sheet.parse css = .ok r ∧
          (c.compile css).result = .ok text) ∨
        ∃ reason, Sheet.parse css = .error (.malformedSheet reason) ∧
          (c.compile css).result = .error (.malformedSheet reason)) ∧
      ∀ p ∈ (c.compile css).compiler.plugins, p.IsFiller := by
  refine ⟨fun css t records => Sheet.tidySheet_of_parse,
    fun f t h => ⟨(f.run_sheet h).1, f.tidySheet_run h⟩, fun c css hc => ?_⟩
  rw [compile]
  cases hparse : Sheet.parse css with
  | error fault =>
      rw [Sheet.fault_of_parse hparse]
      exact ⟨Or.inr ⟨_, rfl, rfl⟩, hc⟩
  | ok r =>
      obtain ⟨t, records⟩ := r
      obtain ⟨hresult, -, hfillers⟩ :=
        Plugin.runAll_sheet hc (Sheet.tidySheet_of_parse hparse)
      refine ⟨Or.inl ⟨(t, records),
        (Plugin.runAll c.plugins t).tree.print c.layout, rfl, ?_⟩, hfillers⟩
      simp only [hresult]
      rfl

/-- Two fillers over a group that is not closed, with a rule in a rule and a
name that is a mark alone. -/
theorem Compiler.compile_of_fillers_twice :
    let css := "@MEDIA print\x7ba\x7b-o-:1;b\x7btransform:x!important"
    (∃ t records, Sheet.parse css = .ok (t, records) ∧ t.TidySheet) ∧
      ∀ (f g : Filler) (layout : Layout), ∃ text,
        (Compiler.compile ⟨[.filler f, .filler g], layout⟩ css).result =
          .ok text := by
  intro css
  have hparse : Sheet.parse css =
      .ok (Sheet.tree (Syntax.components css.toList)) :=
    if_pos (by decide +kernel)
  obtain ⟨htidy, -, hcompile⟩ := compile_of_fillers
  refine ⟨⟨_, _, hparse, htidy css _ _ hparse⟩, fun f g layout => ?_⟩
  have hfillers : ∀ p ∈ [Plugin.filler f, Plugin.filler g], p.IsFiller := by
    intro p hp
    rcases List.mem_cons.1 hp with rfl | hp
    · exact ⟨f, rfl⟩
    · exact ⟨g, List.mem_singleton.1 hp⟩
  rcases (hcompile ⟨_, layout⟩ css hfillers).1 with
    ⟨-, text, -, htext⟩ | ⟨reason, herror, -⟩
  · exact ⟨text, htext⟩
  · rw [hparse] at herror
    cases herror

end CssVendor
