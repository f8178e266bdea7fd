import CssVendor.Proofs.AcceptedRules
import CssVendor.Proofs.Pointwise

/-!
# The selectors of a tree and the preludes of its sheet

The style rules of a tree, parents first, are those rules of the sheet that
have a selector, in the order in which they are written. This module puts the
lists of selectors in the tree next to the preludes in the sheet.

A prelude is cut into segments at its commas, and each segment that is not
blank is kept as a selector. What is kept of it was worked out for a segment
that stands somewhere in a text (`Placed.keeps`), and preludes stand in front of
a curly bracket. Between two commas there may be nothing but blanks, and then
nothing is kept; the grammar does not accept such a prelude.
-/

namespace CssVendor

open Syntax Text Sheet

/-- The selectors of a style rule. -/
def BlockKind.selectors? : BlockKind → Option (List String)
  | .style selectors => some selectors
  | _ => none

/-- The lists of selectors in a tree, parents first. -/
def Block.selectorLists (t : Block) : List (List String) :=
  t.preorder.filterMap fun b => b.kind.selectors?

namespace Sheet

/-- The preludes of the style rules of a sheet that become blocks, each before
those inside it. -/
def preludes (cs : List Component) : List (List Component) :=
  (rules cs).filterMap Rule.prelude?

/-! ## The selectors of a prelude -/

/-- The segments of a prelude, cut apart at the commas between brackets. -/
def segmentsOf (prelude : List Component) : List (List Component) :=
  prelude.splitOnP (Component.isToken .comma)

/-- The segments of a prelude that are not blank. -/
def shownSegments (prelude : List Component) : List (List Component) :=
  (segmentsOf prelude).filter fun segment => !segment.all Component.isBlank

/-- The selectors of a rule are what is kept of the segments of its prelude, in
order and without the empty ones. If all segments can be read alone, there is
one for each segment that is not blank, with the tokens of the segment. -/
structure KeepsAll (prelude : List Component) (selectors : List String) :
    Prop where
  texts : ∃ texts, List.Forall₂ Keeps (segmentsOf prelude) texts ∧
    selectors = (texts.filter fun s => !s.isEmpty).map String.ofList
  whole : (∀ segment ∈ segmentsOf prelude, StandsAlone segment) →
    List.Forall₂ (fun segment selector => HasTokensOf segment selector.toList)
      (shownSegments prelude) selectors

theorem Placed.keeps_segments {α : Type} {s : List Char} {parts : Parts α}
    (h : Placed s (componentsOf parts)) :
    List.Forall₂ Keeps (segmentsOf (componentsOf parts))
      ((splitCommas parts).map selectorText) := by
  rw [segmentsOf, ← map_componentsOf_splitCommas, List.forall₂_map_left_iff,
    List.forall₂_map_right_iff, List.forall₂_same]
  exact fun segment hsegment => (h.segment hsegment).keeps

/-- Nothing is kept of a segment that can be read alone just if it is blank. -/
theorem Keeps.isEmpty_iff {segment : List Component} {text : List Char}
    (h : Keeps segment text) (halone : StandsAlone segment) :
    text.isEmpty = true ↔ segment.all Component.isBlank = true := by
  constructor
  · intro hempty
    by_contra hshown
    obtain ⟨c, hc, hblank⟩ : ∃ c ∈ segment, c.isBlank = false := by
      simpa using hshown
    exact (h.whole halone).ne_nil hc hblank (List.isEmpty_iff.1 hempty)
  · intro hblank
    exact List.isEmpty_iff.2 (h.blank (List.all_eq_true.1 hblank))

theorem Placed.keepsAll {s : List Char} {prelude : List Component}
    (h : Placed s prelude) : KeepsAll prelude (selectorsOf prelude) := by
  have hparts := componentsOf_annotate (fun _ => ()) prelude
  rw [← hparts] at h
  have hkeeps := h.keeps_segments
  rw [hparts] at hkeeps
  have hselectors : selectorsOf prelude =
      (((splitCommas (annotate (fun _ => ()) prelude)).map selectorText).filter
        fun s => !s.isEmpty).map String.ofList := rfl
  generalize (splitCommas (annotate (fun _ => ()) prelude)).map selectorText =
    texts at hkeeps hselectors
  refine ⟨⟨texts, hkeeps, hselectors⟩, fun hall => ?_⟩
  have halone : List.Forall₂ (fun segment text => Keeps segment text ∧
      StandsAlone segment) (segmentsOf prelude) texts :=
    forall₂_imp (fun segment hsegment text hkept =>
      ⟨hkept, hall segment hsegment⟩) hkeeps
  rw [hselectors, List.forall₂_map_right_iff]
  refine forall₂_imp (fun segment _ text hkept => ?_)
    (List.rel_filter (fun segment text hkept => ?_) halone)
  · rw [String.toList_ofList]
    exact hkept.1.whole hkept.2
  · simpa using (not_congr (hkept.1.isEmpty_iff hkept.2)).symm

/-! ## The selectors of a tree -/

theorem Rule.Stands.selectors? {s : List Char} {rule : Rule}
    (h : rule.Stands s) :
    rule.kind.selectors? = rule.prelude?.map selectorsOf := by
  have hstyle := h.style
  cases hkind : rule.kind with
  | style selectors =>
      have hprelude : rule.prelude? = some rule.header := by
        rw [Rule.prelude?, hkind]
      have hselectors := (hstyle rule.header hprelude).2
      rw [hkind] at hselectors
      rw [hprelude, hselectors]
      rfl
  | root | atRule name prelude =>
      rw [Rule.prelude?, hkind]
      rfl

theorem selectorLists_of_parse [Validator] {css : String} {t : Block}
    {records : List Record} (h : parse css = .ok (t, records)) :
    t.selectorLists = (preludes (components css.toList)).map selectorsOf := by
  have htail := preorder_tail_of_parse h
  have hroot : t.kind.selectors? = none := by
    rw [(tidySheet_of_parse h).root]
    rfl
  rw [Block.preorder_eq, List.tail_cons] at htail
  rw [Block.selectorLists, Block.preorder_eq, List.filterMap_cons, hroot,
    htail, List.filterMap_map, preludes, List.map_filterMap]
  refine List.filterMap_congr fun rule hrule => ?_
  exact ((follows_rules css.toList).stands rule hrule).selectors?

theorem placed_of_mem_preludes {s : List Char} :
    ∀ prelude ∈ preludes (components s), Placed s prelude := by
  intro prelude hprelude
  obtain ⟨rule, hrule, hprelude⟩ := List.mem_filterMap.1 hprelude
  exact (((follows_rules s).stands rule hrule).style prelude hprelude).1

/-- No segment of an accepted prelude is blank. -/
theorem shownSegments_of_isRulePrelude {nested : Bool}
    {prelude : List Component}
    (h : Grammar.isRulePrelude nested prelude = true) :
    shownSegments prelude = segmentsOf prelude := by
  refine List.filter_eq_self.2 fun segment hsegment => ?_
  rw [segmentsOf, ← componentsOf_annotate Grammar.Arguments.of prelude,
    ← map_componentsOf_splitCommas] at hsegment
  obtain ⟨parts, hparts, rfl⟩ := List.mem_map.1 hsegment
  obtain ⟨p, hp, hblank⟩ := Grammar.exists_shown_of_isRulePrelude h parts hparts
  simpa using ⟨p.component, List.mem_map_of_mem hp, hblank⟩

/-- Selectors are kept as they are written, except that a block at the end of
one is cut off behind its opening token. Where the grammar accepts the sheet, no
segment of a prelude is blank, so that there is a selector for each. -/
theorem selectors_as_written [Validator] {css : String} {t : Block}
    {records : List Record} (h : parse css = .ok (t, records)) :
    List.Forall₂ KeepsAll (preludes (components css.toList))
        t.selectorLists ∧
      (Grammar.isSheet (components css.toList) = true →
        ∀ rule ∈ rules (components css.toList), rule.InFlat →
          ∀ prelude ∈ rule.prelude?,
            shownSegments prelude = segmentsOf prelude) := by
  refine ⟨?_, fun haccepted rule hrule hflat prelude hprelude => ?_⟩
  · rw [selectorLists_of_parse h, List.forall₂_map_right_iff, List.forall₂_same]
    exact fun prelude hprelude =>
      (placed_of_mem_preludes prelude hprelude).keepsAll
  · obtain ⟨nested, hgood⟩ :=
      (accepted_of_isSheet haccepted rule hrule hflat).prelude prelude hprelude
    exact shownSegments_of_isRulePrelude hgood

/-- Of a function at the end of a selector, only the opening token is kept. -/
theorem selectors_as_written_function :
    let css := "a , b[x] > c \x7b\x7d a:not(.b)\x7b\x7d"
    ∃ t records, parse css = .ok (t, records) ∧
      t.selectorLists = [["a", "b[x] > c"], ["a:not("]] ∧
      List.Forall₂ KeepsAll (preludes (components css.toList))
        t.selectorLists ∧
      (∀ rule ∈ rules (components css.toList), ∀ prelude ∈ rule.prelude?,
        shownSegments prelude = segmentsOf prelude) ∧
      ∀ prelude ∈ preludes (components css.toList),
        ¬ HasTokensOf prelude "a:not(".toList := by
  intro css
  have haccepted : Grammar.isSheet (components css.toList) = true := by
    decide +kernel
  have hparse : parse css = .ok (tree (components css.toList)) :=
    if_pos haccepted
  have hflat : ∀ rule ∈ rules (components css.toList), rule.InFlat := by
    decide +kernel
  obtain ⟨hkeeps, hshown⟩ := selectors_as_written hparse
  exact ⟨_, _, hparse, by decide +kernel, hkeeps,
    fun rule hrule => hshown haccepted rule hrule (hflat rule hrule),
    by decide +kernel⟩

end Sheet

end CssVendor
