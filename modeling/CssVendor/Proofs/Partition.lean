import CssVendor.Proofs.BodyText
import CssVendor.Proofs.SingleDeclaration

/-!
# A body is a stable partition of its items

The declarations and the rules in the body of a rule may be written in any
order, with anything between them that only separates. The block of the rule
keeps the declarations, in their order, and the blocks of the rules, in theirs.
How the two are interleaved makes no difference, and a rule whose header begins
as a declaration does, such as `a:hover`, is not read as one.

A passage reads as its pieces do in front of whatever follows it, and in a
sheet a closing brace or nothing follows the content of a rule; so the content
is made of the components of the pieces.
-/

namespace CssVendor.Sheet

open Syntax

/-- If the body of the rule is written as a passage, the block has the
declarations and the blocks of that passage. -/
def Rule.Partitions (rule : Rule) (b : Block) : Prop :=
  ∀ p : Passage, p.text = textOf rule.content →
    b = ⟨rule.kind, p.declarations, p.blocks⟩

theorem partitions_of_says {rule : Rule}
    (h : ∀ p : Passage, p.text = textOf rule.content →
      Says .body rule.content p.body) : rule.Partitions rule.block := by
  intro p hp
  rw [Rule.block, (h p hp).bodyOf_eq, Body.block, p.declarations_body,
    p.children_body]

/-- What follows the content of a rule is no white space. -/
theorem head_not_space_of_closeCurly {s : List Char} {rest : List Token}
    (hrest : rest ⊆ tokenize s)
    (hhead : ∀ t ∈ rest.head?, some TokenKind.closeCurly = some t.kind) :
    headIs isSpace (rest.flatMap Token.text) = false := by
  cases rest with
  | nil => rfl
  | cons t rest =>
      exact (startsBreak_of_token rest (hrest (List.mem_cons_self ..))
        (Or.inr (Option.some.inj (hhead t rfl)).symm)).2

theorem partitions_of_fills {s : List Char} {rule : Rule}
    (h : Fills s (some .closeCurly) rule.content) :
    rule.Partitions rule.block := by
  obtain ⟨rest, hplace, hmatched, hhead⟩ := h
  refine partitions_of_says fun p hp => ?_
  have hrest : rest ⊆ tokenize s := fun t ht =>
    hplace.subset (List.mem_append_right _ ht)
  obtain ⟨cs, hreads, hsays⟩ :=
    p.reads (head_not_space_of_closeCurly hrest hhead)
  rw [hp] at hreads
  rwa [eq_of_reads hplace hmatched hreads] at hsays

/-- A rule that stands by itself. -/
theorem WrittenRule.partitions (r : WrittenRule) :
    r.rule.Partitions r.rule.block := by
  refine partitions_of_says fun p hp => ?_
  obtain ⟨cs, hreads, hsays⟩ := p.reads (x := []) rfl
  have hcontent : r.rule.content = cs := by
    rw [← hreads.components_eq, hp, WrittenRule.rule, textOf_components]
  rwa [hcontent]

/-- The blocks of an accepted sheet, parents first, are those of its rules, and
each of them partitions the body of its rule into declarations and blocks; so
do the blocks that these are made of, each read from the text of its rule
alone. -/
theorem body_partitions [Validator] {css : String} {t : Block}
    {records : List Record} (h : parse css = .ok (t, records)) :
    List.Forall₂ Rule.Partitions (rules (components css.toList))
        t.preorder.tail ∧
      ∀ r : WrittenRule, r.rule.Partitions r.rule.block := by
  refine ⟨?_, WrittenRule.partitions⟩
  rw [preorder_tail_of_parse h, List.forall₂_map_right_iff, List.forall₂_same]
  exact fun rule hrule =>
    partitions_of_fills ((follows_rules css.toList).stands rule hrule).content

/-- Two declarations with two rules between them, one of which begins as a
declaration does. -/
def interleaved : Passage where
  pieces :=
    [(⟨[], by decide +kernel, by decide +kernel⟩,
      .declaration ⟨"color".toList, " red !IMPORTANT".toList,
        by decide +kernel, by decide +kernel, by decide +kernel⟩),
     (⟨" ".toList, by decide +kernel, by decide +kernel⟩,
      .rule ⟨"a:hover".toList, "width: 1px".toList, .style ["a:hover"],
        by decide +kernel, by decide +kernel, by decide +kernel,
        by decide +kernel⟩),
     (⟨"/* ; */;\n".toList, by decide +kernel, by decide +kernel⟩,
      .rule ⟨"@MEDIA(min-width: 1px)".toList, "top: 0;".toList,
        .atRule "media" "(min-width: 1px)", by decide +kernel,
        by decide +kernel, by decide +kernel, by decide +kernel⟩),
     (⟨[], by decide +kernel, by decide +kernel⟩,
      .declaration ⟨"left".toList, "0".toList, by decide +kernel,
        by decide +kernel, by decide +kernel⟩)]
  last := ⟨";".toList, by decide +kernel, by decide +kernel⟩

/-- The declarations around the rules are kept together. -/
theorem body_partitions_interleaved :
    let css := "a\x7b" ++ String.ofList interleaved.text ++ "\x7d"
    ∃ t records, parse css = .ok (t, records) ∧
      (List.Forall₂ Rule.Partitions (rules (components css.toList))
          t.preorder.tail ∧
        ∀ r : WrittenRule, r.rule.Partitions r.rule.block) ∧
      (rules (components css.toList)).map (fun r => textOf r.content) =
        [interleaved.text, "width: 1px".toList, "top: 0;".toList] ∧
      interleaved.declarations =
        [⟨"color", "red", true⟩, ⟨"left", "0", false⟩] ∧
      t.preorder.tail.map Block.declarations =
        [interleaved.declarations, [⟨"width", "1px", false⟩],
          [⟨"top", "0", false⟩]] := by
  intro css
  have haccepted : Grammar.isSheet (components css.toList) = true := by
    decide +kernel
  have hparse : parse css = .ok (tree (components css.toList)) :=
    if_pos haccepted
  exact ⟨_, _, hparse, body_partitions hparse, by decide +kernel,
    by decide +kernel, by decide +kernel⟩

end CssVendor.Sheet
