import CssVendor.Proofs.Matching
import CssVendor.Proofs.SelectorText
import CssVendor.Proofs.Tidy

/-!
# The rules of a sheet and the blocks of its tree

Every block of a tree but the root is made of one rule of the sheet: a style
rule with a selector, or a group under `@media` or `@supports`. The blocks,
parents first, are those rules in the order in which they are written, and each
is what the content of its rule says, whatever stands around it.

The tree and the list of rules both work something out for every block from
what is worked out for the blocks inside it, so they are worked out as a pair,
and what is shown of the pair is an induction over components. The same
induction tells where a rule stands in the text, its header in front of a curly
bracket and its content behind it, up to the bracket that closes it.
-/

namespace CssVendor.Syntax

/-- The components inside a block. -/
def Component.content : Component → List Component
  | .token _ => []
  | .block _ content _ => content

/-! ## Where components stand -/

/-- Components are all that stands between an opening bracket and the token, of
kind `closer`, that closes it, or else the end of the text. -/
def Fills (s : List Char) (closer : Option TokenKind) (cs : List Component) :
    Prop :=
  ∃ rest, tokensOf cs ++ rest <:+ tokenize s ∧
    Matched rest.isEmpty closer cs ∧ ∀ t ∈ rest.head?, closer = some t.kind

theorem fills_components (s : List Char) : Fills s none (components s) := by
  have hall : tokensOf (components s) ++ [] = tokenize s := by
    rw [List.append_nil, tokensOf_components]
  exact ⟨[], hall ▸ List.suffix_refl _, matched_nest _, by simp⟩

/-- What stands in a block. -/
theorem Fills.content {s : List Char} {closer : Option TokenKind}
    {cs content : List Component} {opener : Token} {last : Option Token}
    (h : Fills s closer cs) (hmem : .block opener content last ∈ cs) :
    Fills s opener.kind.closer? content := by
  obtain ⟨rest, hplace, hmatched, -⟩ := h
  obtain ⟨before, behind, rfl⟩ := List.append_of_mem hmem
  rw [tokensOf_append, tokensOf_cons, Component.tokens_block] at hplace
  have hblock := hmatched.of_suffix
  refine ⟨last.toList ++ (tokensOf behind ++ rest), ?_, ?_⟩
  · refine List.IsSuffix.trans ⟨tokensOf before ++ [opener], ?_⟩ hplace
    simp
  · generalize hrest : rest.isEmpty = ends at hblock
    cases hblock with
    | block hopener hopens hcontent _ =>
        rw [hopener]
        exact ⟨hcontent, by simp⟩
    | openBlock hopener hcontent =>
        rw [List.isEmpty_iff.1 hrest, hopener]
        exact ⟨hcontent, by simp⟩

end CssVendor.Syntax

namespace CssVendor.Sheet

open Syntax Text

/-- What stands in front of a block in curly brackets. -/
theorem placed_of_fills {s : List Char} {closer : Option TokenKind}
    {cs before : List Component} {block : Component} (h : Fills s closer cs)
    (hpiece : before ++ [block] <:+: cs) (hcurly : block.isCurly = true) :
    Placed s before := by
  obtain ⟨rest, hplace, hmatched, -⟩ := h
  refine ⟨fun c hc => hmatched.formed c
    (hpiece.subset (List.mem_append_left _ hc)), ?_⟩
  cases block with
  | token t => cases hcurly
  | block opener content last =>
      have hopener : opener.kind = .openCurly := eq_of_beq hcurly
      have htokens : tokensOf before ++ [opener] <:+:
          tokensOf (before ++ [.block opener content last]) :=
        ⟨[], tokensOf content ++ last.toList, by simp [tokensOf_append]⟩
      refine ⟨opener, by rw [hopener]; rfl, htokens.trans ?_⟩
      exact (tokensOf_isInfix hpiece).trans
        ((List.prefix_append _ rest).isInfix.trans hplace.isInfix)

/-! ## Selectors are a matter of components -/

section Selectors

variable {α β : Type} {parts : Parts α} {parts' : Parts β}

theorem selectorText_eq_of_componentsOf
    (h : componentsOf parts = componentsOf parts') :
    selectorText parts = selectorText parts' := by
  rw [selectorText, selectorText, componentsOf_dropTrailingBlanks, h,
    componentsOf_dropTrailingBlanks]

/-- The selectors that the components of a prelude make up. -/
def selectorsOf (prelude : List Component) : List String :=
  (selectors (annotate (fun _ => ()) prelude)).map String.ofList

theorem selectors_eq_of_componentsOf
    (h : componentsOf parts = componentsOf parts') :
    selectors parts = selectors parts' := by
  have htext : ∀ {γ : Type} (parts : Parts γ),
      (splitCommas parts).map selectorText =
        ((componentsOf parts).splitOnP (Component.isToken .comma)).map
          fun cs => selectorText (annotate (fun _ => ()) cs) := by
    intro γ parts
    rw [← map_componentsOf_splitCommas, List.map_map]
    refine List.map_congr_left fun segment _ => ?_
    exact selectorText_eq_of_componentsOf (componentsOf_annotate _ _).symm
  rw [selectors, selectors, htext, htext, h]

theorem selectorsOf_componentsOf (parts : Parts α) :
    selectorsOf (componentsOf parts) =
      (selectors parts).map String.ofList := by
  rw [selectorsOf]
  refine congrArg _ (selectors_eq_of_componentsOf ?_)
  exact componentsOf_annotate _ _

end Selectors

/-! ## Rules -/

/-- A rule that becomes a block of some kind. -/
structure Rule where
  kind : BlockKind
  /-- What stands in front of the braces, the keyword of an at-rule too. -/
  header : List Component
  /-- What stands between the braces. -/
  content : List Component
  /-- The contents of the rules around this one, the innermost first. -/
  around : List (List Component)

namespace Rule

/-- The block that a rule becomes. -/
def block (rule : Rule) : Block :=
  (bodyOf (annotate bodyOf rule.content)).block rule.kind

/-- The prelude of a style rule. -/
def prelude? (rule : Rule) : Option (List Component) :=
  match rule.kind with
  | .style _ => some rule.header
  | _ => none

/-- The rule in one more block around it. -/
def within (content : List Component) (rule : Rule) : Rule :=
  { rule with around := rule.around ++ [content] }

/-- A rule, and behind it those in its content. -/
def withInner (kind : BlockKind) (header content : List Component)
    (inside : List Rule) : List Rule :=
  ⟨kind, header, content, []⟩ :: inside.map (within content)

end Rule

/-- What an item adds to the rules of a sheet, given those inside its block. -/
def ruled : Item (List Rule) → List Rule
  | .atRule keyword before (some (block, inside)) =>
      if isKept (atRuleName keyword) then
        let prelude := String.ofList (trim (textOf (componentsOf before)))
        Rule.withInner (.atRule (atRuleName keyword) prelude)
          (.token keyword :: componentsOf before) block.component.content inside
      else []
  | .rule before (block, inside) =>
      if (selectors before).isEmpty then []
      else Rule.withInner (.style (selectorsOf (componentsOf before)))
        (componentsOf before) block.component.content inside
  | _ => []

/-- The rules among the items of a body, with those inside them. -/
def rulesOfBody (parts : Parts (List Rule)) : List Rule :=
  (Item.all .body parts).flatMap ruled

/-- The rules of a sheet that become blocks, each before those inside it. -/
def rules (cs : List Component) : List Rule :=
  (itemsOf (annotate rulesOfBody cs)).flatMap ruled

/-! ## Bodies and rules together -/

/-- A rule stands in a text. The selectors of a style rule are those of the
prelude there. -/
structure Rule.Stands (s : List Char) (rule : Rule) : Prop where
  style : ∀ prelude ∈ rule.prelude?,
    Placed s prelude ∧ rule.kind = .style (selectorsOf prelude)
  content : Fills s (some .closeCurly) rule.content

/-- The blocks in a body are those of some rules, which stand in a text. -/
structure Follows (s : List Char) (b : Body) (rules : List Rule) : Prop where
  blocks : Block.preorder.go b.children = rules.map Rule.block
  stands : ∀ rule ∈ rules, rule.Stands s

variable {s : List Char} {b : Body} {rs : List Rule}

theorem Follows.of_children (h : b.children = []) : Follows s b [] := by
  refine ⟨?_, List.forall_mem_nil _⟩
  rw [h]
  rfl

theorem Follows.ofBlock {kind : BlockKind} {header content : List Component}
    (h : Follows s b rs) (hb : b = bodyOf (annotate bodyOf content))
    (hstands : Rule.Stands s ⟨kind, header, content, []⟩) :
    Follows s (.ofBlock kind b) (Rule.withInner kind header content rs) := by
  refine ⟨?_, List.forall_mem_cons.2 ⟨hstands, fun rule hrule => ?_⟩⟩
  · have hall : Block.preorder.go (Body.ofBlock kind b).children =
        (b.block kind).preorder := List.append_nil _
    have hone : b.block kind = Rule.block ⟨kind, header, content, []⟩ := by
      rw [hb]
      rfl
    have hinside : (b.block kind).children = b.children := rfl
    rw [hall, Block.preorder_eq, hinside, h.blocks, hone, Rule.withInner,
      List.map_cons, List.map_map]
    rfl
  · obtain ⟨inner, hinner, rfl⟩ := List.mem_map.1 hrule
    exact ⟨(h.stands inner hinner).style, (h.stands inner hinner).content⟩

theorem Follows.concat {α : Type} {l : List α} {body : α → Body}
    {rulesIn : α → List Rule} (h : ∀ a ∈ l, Follows s (body a) (rulesIn a)) :
    Follows s (.concat (l.map body)) (l.flatMap rulesIn) := by
  induction l with
  | nil => exact .of_children rfl
  | cons a l ih =>
      obtain ⟨ha, hl⟩ := List.forall_mem_cons.1 h
      have hrest := ih hl
      refine ⟨?_, fun rule hrule => ?_⟩
      · have hchildren : (Body.concat ((a :: l).map body)).children =
            (body a).children ++ (Body.concat (l.map body)).children := rfl
        rw [hchildren, Block.preorder_go_append, ha.blocks, hrest.blocks,
          List.flatMap_cons, List.map_append]
      · rcases List.mem_append.1 hrule with hrule | hrule
        · exact ha.stands rule hrule
        · exact hrest.stands rule hrule

/-- What is worked out for a block in curly brackets is what its content says,
and the rules in it. -/
def RuledPart (s : List Char) (p : Annotated (Body × List Rule)) : Prop :=
  ∀ x ∈ p.curly?, x.1 = bodyOf (annotate bodyOf p.component.content) ∧
    Fills s (some .closeCurly) p.component.content ∧ Follows s x.1 x.2

theorem follows_item {closer : Option TokenKind}
    {parts : Parts (Body × List Rule)}
    (hfills : Fills s closer (componentsOf parts))
    (hparts : ∀ p ∈ parts, RuledPart s p) (place : Place)
    {item : Item (Body × List Rule)} (h : item.Within parts) :
    Follows s (ofItem place (item.map Prod.fst)) (ruled (item.map Prod.snd)) := by
  match item, h with
  | .gap, _ => exact .of_children rfl
  | .atRule _ _ none, _ => exact .of_children rfl
  | .atRule keyword before (some (p, body, inside)), h =>
      simp only [Item.map, Option.map_some, ofItem, ruled, componentsOf_map]
      split
      · obtain ⟨hmem, hcurly⟩ := h.2 _ rfl
        obtain ⟨hbody, hcontent, hfollows⟩ := hparts p hmem _ hcurly
        refine hfollows.ofBlock hbody ⟨fun prelude hprelude => ?_, hcontent⟩
        cases hprelude
      · exact .of_children (children_dropped _ _ _ _)
  | .rule before (p, body, inside), h =>
      obtain ⟨hpiece, hcurly⟩ := h
      obtain ⟨hbody, hcontent, hfollows⟩ :=
        hparts p (hpiece.subset (by simp)) _ hcurly
      have hplaced : Placed s (componentsOf before) := by
        refine placed_of_fills hfills ?_ (of_curly?_eq_some hcurly).1
        have hcomponents : componentsOf (before ++ [p]) <:+:
            componentsOf parts := hpiece.map _
        rwa [componentsOf, List.map_append] at hcomponents
      simp only [Item.map, ofItem, ruled, componentsOf_map,
        selectorsOf_componentsOf,
        selectors_eq_of_componentsOf (componentsOf_map Prod.fst before),
        selectors_eq_of_componentsOf (componentsOf_map Prod.snd before)]
      cases hselectors : selectors before with
      | nil => exact .of_children rfl
      | cons selector rest =>
          refine hfollows.ofBlock hbody ⟨fun prelude hprelude => ?_, hcontent⟩
          cases hprelude
          refine ⟨hplaced, ?_⟩
          rw [selectorsOf_componentsOf, hselectors]
  | .stretch parts semicolon, _ =>
      exact .of_children (children_stretch place _ semicolon)

theorem ruledPart_annotate {c : Component} {closer : Option TokenKind}
    {cs : List Component} (hfills : Fills s closer cs) (hc : c ∈ cs) :
    RuledPart s (c.annotate (both bodyOf rulesOfBody)) := by
  induction c using Component.inductionOn generalizing closer cs with
  | token t =>
      intro x hx
      cases hx
  | block opener content last ih =>
      intro x hx
      obtain ⟨hcurly, hx⟩ := of_curly?_eq_some hx
      obtain rfl : _ = x := Option.some.inj hx
      have hopener : opener.kind = .openCurly := eq_of_beq hcurly
      have hcontent := hfills.content hc
      rw [hopener] at hcontent
      have hparts : ∀ p ∈ annotate (both bodyOf rulesOfBody) content,
          RuledPart s p :=
        forall_mem_annotate fun d hd => ih d hd hcontent hd
      refine ⟨congrArg bodyOf (map_fst_both _ _ content), hcontent, ?_⟩
      rw [both, bodyOf, rulesOfBody, Item.all_map, Item.all_map, List.map_map,
        List.flatMap_map]
      rw [← componentsOf_annotate (both bodyOf rulesOfBody) content] at hcontent
      exact .concat fun item hitem =>
        follows_item hcontent hparts .body (Item.within_of_mem hitem)

/-- The blocks of a tree below the root are those of the rules of the sheet,
and each of these stands in the sheet. -/
theorem follows_rules (s : List Char) :
    Follows s (bodyOfSheet (components s)) (rules (components s)) := by
  have hfills := fills_components s
  have hparts : ∀ p ∈ annotate (both bodyOf rulesOfBody) (components s),
      RuledPart s p :=
    forall_mem_annotate fun c hc => ruledPart_annotate hfills hc
  rw [bodyOfSheet, rules, ← map_fst_both bodyOf rulesOfBody,
    ← map_snd_both bodyOf rulesOfBody, itemsOf_map, itemsOf_map, List.map_map,
    List.flatMap_map]
  rw [← componentsOf_annotate (both bodyOf rulesOfBody) (components s)]
    at hfills
  exact .concat fun item hitem => follows_item hfills hparts .sheet
    (Item.within_of_mem (withoutCharset_subset _ hitem))

theorem preorder_tail_of_parse [Validator] {css : String} {t : Block}
    {records : List Record} (h : parse css = .ok (t, records)) :
    t.preorder.tail = (rules (components css.toList)).map Rule.block := by
  cases tree_of_parse h
  rw [Block.preorder_eq]
  exact (follows_rules css.toList).blocks

end CssVendor.Sheet
