import CssVendor.Proofs.BodyItems
import CssVendor.Proofs.SheetRules

/-!
# The rules of a sheet that the grammar accepts

The reader and the grammar go over a sheet separately. Here they are put next
to each other, rule by rule: in a sheet that the grammar accepts, it accepts
the prelude and the content of every rule that becomes a block. The bodies
around the rule must be flat for this, so that both cut them into the same
items; what stands elsewhere in the sheet does not matter.

The rules in a block and what the block is well formed as are both worked out
from the blocks inside it, so this is an induction over components, with a case
for each kind of item.
-/

namespace CssVendor.Sheet

open Syntax Text Grammar

/-! ## Flat bodies -/

/-- No custom property in a body has a block in curly brackets at the top level
of its value. -/
def FlatBody (content : List Component) : Prop :=
  (divide readInnerItem (annotate Verdict.of content)).all isFlatItem = true

instance (content : List Component) : Decidable (FlatBody content) :=
  inferInstanceAs (Decidable (_ = _))

/-- The content of a block is well formed as a body or as a group of rules. -/
def HoldsRules (content : List Component) : Prop :=
  (Verdict.of (annotate Verdict.of content)).body = true ∨
    (Verdict.of (annotate Verdict.of content)).group = true

/-- The items that the reader finds in a flat body are well formed. -/
theorem HoldsRules.items {content : List Component} (h : HoldsRules content)
    (hflat : FlatBody content) :
    ∀ item ∈ Item.all .body (annotate Verdict.of content),
      isInnerItem item = true ∨ isOuterItem item = true := by
  intro item hitem
  rcases h with hbody | hgroup
  · have hitems : (divide readInnerItem (annotate Verdict.of content)).all
        isInnerItem = true := hbody
    rw [divide_readInnerItem hflat] at hitems
    exact Or.inl (List.all_eq_true.1 hitems item hitem)
  · have hitems : (Item.all .group (annotate Verdict.of content)).all
        isOuterItem = true := hgroup
    rw [all_group hitems] at hitems
    exact Or.inr (List.all_eq_true.1 hitems item hitem)

/-! ## Accepted rules -/

/-- The bodies around a rule are flat. -/
def Rule.InFlat (rule : Rule) : Prop := ∀ content ∈ rule.around, FlatBody content

instance (rule : Rule) : Decidable rule.InFlat :=
  inferInstanceAs (Decidable (∀ content ∈ rule.around, _))

/-- The grammar takes a rule for one, inside or outside of style rules. -/
structure Rule.Accepted (rule : Rule) : Prop where
  prelude : ∀ prelude ∈ rule.prelude?,
    ∃ nested, isRulePrelude nested prelude = true
  content : HoldsRules rule.content

/-- Rules are accepted if the bodies around them are flat. -/
def AllAccepted (rules : List Rule) : Prop :=
  ∀ rule ∈ rules, rule.InFlat → rule.Accepted

theorem AllAccepted.withInner {kind : BlockKind}
    {header content : List Component} {inside : List Rule}
    (hrule : Rule.Accepted ⟨kind, header, content, []⟩)
    (hinside : FlatBody content → AllAccepted inside) :
    AllAccepted (Rule.withInner kind header content inside) := by
  refine List.forall_mem_cons.2 ⟨fun _ => hrule, fun rule hrule hflat => ?_⟩
  obtain ⟨inner, hinner, rfl⟩ := List.mem_map.1 hrule
  obtain ⟨haround, hcontent⟩ := List.forall_mem_append.1 hflat
  have haccepted := hinside (hcontent content (by simp)) inner hinner haround
  exact ⟨haccepted.prelude, haccepted.content⟩

/-- What is worked out for a block in curly brackets is what its content is well
formed as, and the rules in it, which are accepted if that is. -/
def AcceptedPart (p : Annotated (List Rule × Verdict)) : Prop :=
  ∀ x ∈ p.curly?, x.2 = Verdict.of (annotate Verdict.of p.component.content) ∧
    (HoldsRules p.component.content → FlatBody p.component.content →
      AllAccepted x.1)

section Items

variable {parts : Parts (List Rule × Verdict)}

theorem content_of_isKept {nested : Bool} {name : String}
    (h : isKept name = true) : (AtRule.ofName nested name).content = .rules := by
  have hname : name = "media" ∨ name = "supports" := by simpa [isKept] using h
  rcases hname with rfl | rfl <;> cases nested <;> decide

/-- A group, if it is well formed. -/
theorem accepted_atRule {nested : Bool} {keyword : Token}
    {before : Parts (List Rule × Verdict)}
    {block : Option (Annotated (List Rule × Verdict) × List Rule × Verdict)}
    (hparts : ∀ p ∈ parts, AcceptedPart p)
    (hwithin : (Item.atRule keyword before block).Within parts)
    (h : isKept (atRuleName keyword) = true → isGoodAtRule nested keyword
      (Parts.map Prod.snd before)
      (block.map fun b => (b.1.map Prod.snd, b.2.2)) = true) :
    AllAccepted (ruled ((Item.atRule keyword before block).map Prod.fst)) := by
  match block with
  | none => exact List.forall_mem_nil _
  | some (p, inside, verdict) =>
      simp only [Item.map, Option.map_some, ruled]
      split
      · next hkept =>
          obtain ⟨hmem, hcurly⟩ := hwithin.2 _ rfl
          obtain ⟨hverdict, hinside⟩ := hparts p hmem (inside, verdict) hcurly
          have hgood : (_ && AtRuleContent.admits
              (AtRule.ofName nested (atRuleName keyword)).content nested
              p.component verdict) = true := h hkept
          rw [Bool.and_eq_true, content_of_isKept hkept] at hgood
          have hcontent : (if nested then verdict.body else verdict.group) =
            true := hgood.2
          rw [show verdict = _ from hverdict] at hcontent
          have hholds : HoldsRules p.component.content := by
            cases nested
            · exact Or.inr hcontent
            · exact Or.inl hcontent
          refine .withInner ⟨fun prelude hprelude => ?_, hholds⟩ (hinside hholds)
          cases hprelude
      · exact List.forall_mem_nil _

/-- A style rule with a good prelude and a good body. -/
theorem accepted_rule {nested : Bool} {before : Parts (List Rule × Verdict)}
    {block : Annotated (List Rule × Verdict) × List Rule × Verdict}
    (hparts : ∀ p ∈ parts, AcceptedPart p)
    (hwithin : (Item.rule before block).Within parts)
    (h : (isRulePrelude nested (componentsOf (Parts.map Prod.snd before)) &&
      block.2.2.body) = true) :
    AllAccepted (ruled ((Item.rule before block).map Prod.fst)) := by
  obtain ⟨p, inside, verdict⟩ := block
  have hmem : p ∈ parts := hwithin.1.subset (by simp)
  obtain ⟨hverdict, hinside⟩ := hparts p hmem (inside, verdict) hwithin.2
  rw [Bool.and_eq_true, componentsOf_map, show verdict = _ from hverdict] at h
  simp only [Item.map, ruled, componentsOf_map]
  split
  · exact List.forall_mem_nil _
  · refine .withInner ⟨fun prelude hprelude => ?_, Or.inl h.2⟩
      (hinside (Or.inl h.2))
    cases hprelude
    exact ⟨nested, h.1⟩

/-- An item that is well formed, inside or outside of style rules. -/
theorem accepted_item (hparts : ∀ p ∈ parts, AcceptedPart p)
    {item : Item (List Rule × Verdict)} (hwithin : item.Within parts)
    (h : isInnerItem (item.map Prod.snd) = true ∨
      isOuterItem (item.map Prod.snd) = true) :
    AllAccepted (ruled (item.map Prod.fst)) := by
  match item, hwithin, h with
  | .gap, _, _ => exact List.forall_mem_nil _
  | .atRule keyword before block, hwithin, h =>
      rcases h with hinner | houter
      · exact accepted_atRule hparts hwithin fun _ => hinner
      · exact accepted_atRule hparts hwithin fun _ => houter
  | .rule before block, hwithin, h =>
      rcases h with hinner | houter
      · exact accepted_rule hparts hwithin hinner
      · exact accepted_rule hparts hwithin houter
  | .stretch _ _, _, _ => exact List.forall_mem_nil _

end Items

/-! ## Bodies and sheets -/

theorem AllAccepted.flatMap {α : Type} {l : List α} {rulesIn : α → List Rule}
    (h : ∀ a ∈ l, AllAccepted (rulesIn a)) : AllAccepted (l.flatMap rulesIn) := by
  intro rule hrule
  obtain ⟨a, ha, hrule⟩ := List.mem_flatMap.1 hrule
  exact h a ha rule hrule

/-- The rules in a well-formed flat body. -/
theorem accepted_rulesOfBody {content : List Component}
    (hparts : ∀ p ∈ annotate (both rulesOfBody Verdict.of) content,
      AcceptedPart p)
    (h : HoldsRules content) (hflat : FlatBody content) :
    AllAccepted (rulesOfBody (annotate rulesOfBody content)) := by
  have hitems := h.items hflat
  rw [← map_snd_both rulesOfBody Verdict.of, Item.all_map] at hitems
  rw [← map_fst_both rulesOfBody Verdict.of, rulesOfBody, Item.all_map,
    List.flatMap_map]
  refine .flatMap fun item hitem => ?_
  exact accepted_item hparts (Item.within_of_mem hitem)
    (hitems _ (List.mem_map_of_mem hitem))

theorem acceptedPart_annotate (c : Component) :
    AcceptedPart (c.annotate (both rulesOfBody Verdict.of)) := by
  induction c using Component.inductionOn with
  | token t =>
      intro x hx
      cases hx
  | block opener content last ih =>
      intro x hx
      obtain ⟨-, hx⟩ := of_curly?_eq_some hx
      obtain rfl : _ = x := Option.some.inj hx
      have hparts : ∀ p ∈ annotate (both rulesOfBody Verdict.of) content,
          AcceptedPart p := forall_mem_annotate ih
      refine ⟨congrArg Verdict.of (map_snd_both _ _ content),
        fun hholds hflat => ?_⟩
      have hrules := accepted_rulesOfBody hparts hholds hflat
      rwa [← map_fst_both rulesOfBody Verdict.of] at hrules

theorem isOuterItem_of_after? {phase next : Phase} {keyword : Token}
    {before : Parts Verdict} {block : Option (Annotated Verdict × Verdict)}
    (h : phase.after? (.atRule keyword before block) = some next)
    (hkept : isKept (atRuleName keyword) = true) :
    isOuterItem (.atRule keyword before block) = true := by
  have hname : atRuleName keyword = "media" ∨
      atRuleName keyword = "supports" := by
    simpa [isKept] using hkept
  have hstatement : sheetStatements.contains (atRuleName keyword) = false := by
    rcases hname with hname | hname <;> rw [hname] <;> decide
  have hproperty : (atRuleName keyword == "property") = false := by
    rcases hname with hname | hname <;> rw [hname] <;> decide
  rw [Phase.after?] at h
  simp only [hstatement, hproperty, Bool.false_eq_true, if_false] at h
  split at h
  · next houter => exact houter
  · cases h

theorem accepted_sheetItem {parts : Parts (List Rule × Verdict)}
    (hparts : ∀ p ∈ parts, AcceptedPart p) {item : Item (List Rule × Verdict)}
    (hwithin : item.Within parts) {phase next : Phase}
    (h : phase.after? (item.map Prod.snd) = some next) :
    AllAccepted (ruled (item.map Prod.fst)) := by
  match item, hwithin, h with
  | .gap, _, _ => exact List.forall_mem_nil _
  | .atRule keyword before block, hwithin, h =>
      exact accepted_atRule hparts hwithin fun hkept =>
        isOuterItem_of_after? h hkept
  | .rule before block, hwithin, h =>
      refine accepted_item hparts hwithin (Or.inr ?_)
      have h : (if _ then some Phase.main else none) = some next := h
      split at h
      · next houter => exact houter
      · cases h
  | .stretch _ _, _, h => cases h

theorem exists_phase {items : List (Item Verdict)} {phase : Phase}
    (h : areSheetItems phase items = true) :
    ∀ item ∈ items, ∃ phase next, Phase.after? phase item = some next := by
  induction items generalizing phase with
  | nil => exact List.forall_mem_nil _
  | cons item items ih =>
      rw [areSheetItems] at h
      split at h
      · next next hnext =>
          exact List.forall_mem_cons.2 ⟨⟨phase, next, hnext⟩, ih h⟩
      · cases h

/-- In a well-formed sheet, the rules that become blocks are accepted where the
bodies around them are flat. -/
theorem accepted_of_isSheet {cs : List Component}
    (h : Grammar.isSheet cs = true) : AllAccepted (rules cs) := by
  have hparts : ∀ p ∈ annotate (both rulesOfBody Verdict.of) cs,
      AcceptedPart p := forall_mem_annotate fun c _ => acceptedPart_annotate c
  rw [Grammar.isSheet, ← map_snd_both rulesOfBody Verdict.of, itemsOf_map] at h
  rw [rules, ← map_fst_both rulesOfBody Verdict.of, itemsOf_map,
    List.flatMap_map]
  refine .flatMap fun item hitem => ?_
  obtain ⟨phase, next, hnext⟩ := exists_phase h _ (List.mem_map_of_mem hitem)
  exact accepted_sheetItem hparts
    (Item.within_of_mem (withoutCharset_subset _ hitem)) hnext

end CssVendor.Sheet
