import CssVendor.Proofs.Importance
import CssVendor.Proofs.ItemParts
import CssVendor.Proofs.Pass
import CssVendor.Proofs.Says
import CssVendor.Proofs.TokenHead
import CssVendor.Sheet.Parse

/-!
# What every tree that is read is like

Whatever text a sheet is, the tree cut out of it has no property without a
name, no selector that is empty, and no blanks around the texts it keeps. The
body of a block is put together from what was worked out for the blocks inside
it, so this is an induction over components: an item has a tidy body if the
parts that it is made of have (`tidy_ofItem`). That names are not empty comes
from the tokens, of which each takes in one character at least.

Nothing is declared at the level of the sheet itself, where only rules are
read: what is neither a rule with a block nor an at-rule is skipped there
(`mem_declarations_ofItem`). So none of this depends on what the validator
accepts.
-/

namespace CssVendor

open Syntax Text Sheet

/-- A declaration of a sheet: it has a name, and the blanks around its value
and its importance have been taken off. -/
structure Declaration.Tidy (d : Declaration) : Prop where
  named : d.name ≠ ""
  trimmed : Trimmed d.value.toList
  plain : d.important = false → ¬ EndsImportant d.value.toList

/-- The kind of a block below the root of a sheet. -/
def BlockKind.Tidy : BlockKind → Prop
  | .root => False
  | .style selectors =>
      selectors ≠ [] ∧ ∀ s ∈ selectors, s ≠ "" ∧ Trimmed s.toList
  | .atRule name prelude =>
      (name = "media" ∨ name = "supports") ∧ Trimmed prelude.toList

/-- A block below the root of a sheet, apart from the blocks in it. -/
structure Block.Tidy (b : Block) : Prop where
  kind : b.kind.Tidy
  declarations : ∀ d ∈ b.declarations, d.Tidy

/-- The tree of a sheet: a root with nothing declared, over blocks of other
kinds that are tidy at every depth. -/
structure Block.TidySheet (t : Block) : Prop where
  root : t.kind = .root
  bare : t.declarations = []
  blocks : ∀ b ∈ preorder.go t.children, b.Tidy

theorem BlockKind.Tidy.not_root {b : Block} (h : b.kind.Tidy) :
    b.isRoot = false := by
  rw [Block.isRoot]
  split
  · next hroot =>
      rw [hroot] at h
      exact h.elim
  · rfl

end CssVendor

namespace CssVendor.Sheet

open Syntax Text

/-! ## Declarations and selectors -/

theorem tidy_declaration? {parts : Parts Body} {d : Declaration}
    (hparts : ∀ p ∈ parts, ∀ t ∈ p.component.tokens, t.Named)
    (h : declaration? parts = some d) : d.Tidy := by
  unfold declaration? at h
  split at h
  · next name text content rest =>
      have hname : name ≠ [] := hparts _ (List.mem_cons_self ..) ⟨_, text⟩
        (by simp) name rfl
      split at h
      · split at h
        · cases h
          refine ⟨by simpa using hname, ?_, fun himportant => ?_⟩
          · rw [String.toList_ofList]
            exact trimmed_splitImportant _
          · rw [String.toList_ofList]
            exact not_endsImportant_splitImportant himportant
        · cases h
      · cases h
  · cases h

theorem trimmed_selectorText {α : Type} (segment : Parts α) :
    Trimmed (selectorText segment) := by
  rw [selectorText]
  split
  · rfl
  · exact trimmed_trim _

theorem tidy_selectors {α : Type} {before : Parts α}
    (h : selectors before ≠ []) :
    (BlockKind.style ((selectors before).map String.ofList)).Tidy := by
  refine ⟨by simpa using h, fun s hs => ?_⟩
  obtain ⟨text, htext, rfl⟩ := List.mem_map.1 hs
  rw [selectors, List.mem_filter] at htext
  obtain ⟨hmem, hne⟩ := htext
  obtain ⟨segment, -, rfl⟩ := List.mem_map.1 hmem
  refine ⟨by simpa using hne, ?_⟩
  simpa using trimmed_selectorText segment

/-! ## Bodies -/

/-- The blocks in a body that is one block. -/
theorem mem_preorder_ofBlock {kind : BlockKind} {b : Body} {c : Block} :
    c ∈ Block.preorder.go (Body.ofBlock kind b).children ↔
      c = ⟨kind, b.declarations, b.children⟩ ∨
        c ∈ Block.preorder.go b.children := by
  have hall : Block.preorder.go (Body.ofBlock kind b).children =
      (b.block kind).preorder := List.append_nil _
  rw [hall, Block.preorder_eq, List.mem_cons]
  rfl

theorem mem_declarations_concat {bs : List Body} {d : Declaration} :
    d ∈ (Body.concat bs).declarations ↔ ∃ b ∈ bs, d ∈ b.declarations := by
  rw [Body.declarations_concat, List.mem_flatMap]

theorem mem_preorder_concat {bs : List Body} {c : Block} :
    c ∈ Block.preorder.go (Body.concat bs).children ↔
      ∃ b ∈ bs, c ∈ Block.preorder.go b.children := by
  simp only [Body.children_concat, Block.mem_preorder_go, List.mem_flatMap]
  exact ⟨fun ⟨d, ⟨b, hb, hd⟩, hc⟩ => ⟨b, hb, d, hd, hc⟩,
    fun ⟨b, hb, d, hd, hc⟩ => ⟨d, ⟨b, hb, hd⟩, hc⟩⟩

/-- A body whose declarations and blocks, at every depth, are tidy. -/
structure Body.Tidy (b : Body) : Prop where
  declarations : ∀ d ∈ b.declarations, d.Tidy
  blocks : ∀ c ∈ Block.preorder.go b.children, c.Tidy

/-- A part whose identifiers have names and for which, if it is a block, a tidy
body was worked out. -/
structure TidyPart (p : Annotated Body) : Prop where
  named : ∀ t ∈ p.component.tokens, t.Named
  content : ∀ b ∈ p.content, b.Tidy

theorem Body.Tidy.empty : Body.empty.Tidy :=
  ⟨List.forall_mem_nil _, List.forall_mem_nil _⟩

theorem tidy_ofSkipped (text : List Char) : (Body.ofSkipped text).Tidy :=
  ⟨List.forall_mem_nil _, List.forall_mem_nil _⟩

theorem tidy_dropped (name : String) (keyword : Token)
    (before : List Component) (block : Component) :
    (dropped name keyword before block).Tidy := by
  rw [dropped]
  split
  · exact ⟨List.forall_mem_nil _, List.forall_mem_nil _⟩
  · exact ⟨List.forall_mem_nil _, List.forall_mem_nil _⟩

theorem Body.Tidy.ofBlock {kind : BlockKind} {b : Body} (hkind : kind.Tidy)
    (hb : b.Tidy) : (Body.ofBlock kind b).Tidy := by
  refine ⟨List.forall_mem_nil _, fun c hc => ?_⟩
  rcases mem_preorder_ofBlock.1 hc with rfl | hc
  · exact ⟨hkind, hb.declarations⟩
  · exact hb.blocks c hc

theorem Body.Tidy.concat {bs : List Body} (h : ∀ b ∈ bs, b.Tidy) :
    (Body.concat bs).Tidy := by
  refine ⟨fun d hd => ?_, fun c hc => ?_⟩
  · obtain ⟨b, hb, hd⟩ := mem_declarations_concat.1 hd
    exact (h b hb).declarations d hd
  · obtain ⟨b, hb, hc⟩ := mem_preorder_concat.1 hc
    exact (h b hb).blocks c hc

theorem TidyPart.curly {p : Annotated Body} (h : TidyPart p) {b : Body}
    (hb : p.curly? = some b) : b.Tidy :=
  h.content b (of_curly?_eq_some hb).2

/-- Only a stretch of a body adds a declaration. -/
theorem mem_declarations_ofItem {place : Place} {item : Item Body}
    {d : Declaration} (h : d ∈ (ofItem place item).declarations) :
    place = .body ∧ ∃ parts semicolon, item = .stretch parts semicolon ∧
      declaration? parts = some d := by
  match item, h with
  | .gap, h => cases h
  | .atRule _ _ none, h => cases h
  | .atRule keyword before (some (block, body)), h =>
      simp only [ofItem, dropped] at h
      split at h
      · cases h
      · split at h <;> cases h
  | .rule before (block, body), h =>
      simp only [ofItem] at h
      split at h <;> cases h
  | .stretch parts semicolon, h =>
      cases place with
      | body =>
          cases hd : declaration? parts with
          | none =>
              simp only [ofItem, hd] at h
              cases h
          | some e =>
              simp only [ofItem, hd] at h
              obtain rfl := List.mem_singleton.1 h
              exact ⟨rfl, parts, semicolon, rfl, hd⟩
      | sheet => cases h
      | group => cases h

theorem children_dropped (name : String) (keyword : Token)
    (before : List Component) (block : Component) :
    (dropped name keyword before block).children = [] := by
  rw [dropped]
  split <;> rfl

theorem children_stretch (place : Place) (parts : Parts Body)
    (semicolon : Bool) :
    (ofItem place (.stretch parts semicolon)).children = [] := by
  simp only [ofItem]
  split <;> rfl

/-- An item adds something tidy if its parts are. -/
theorem tidy_ofItem {parts : Parts Body} (hparts : ∀ p ∈ parts, TidyPart p)
    (place : Place) {item : Item Body} (h : item.Within parts) :
    (ofItem place item).Tidy := by
  match item, h with
  | .gap, _ => exact Body.Tidy.empty
  | .atRule _ _ none, _ => exact Body.Tidy.empty
  | .atRule keyword before (some (block, body)), h =>
      obtain ⟨hmem, hcurly⟩ := h.2 _ rfl
      simp only [ofItem]
      split
      · next hkept =>
          refine Body.Tidy.ofBlock ⟨by simpa [isKept] using hkept, ?_⟩
            ((hparts block hmem).curly hcurly)
          simpa using trimmed_trim _
      · exact tidy_dropped _ _ _ _
  | .rule before (block, body), h =>
      obtain ⟨hpiece, hcurly⟩ := h
      have hmem : block ∈ parts := hpiece.subset (by simp)
      simp only [ofItem]
      split
      · exact tidy_ofSkipped _
      · next hne =>
          exact Body.Tidy.ofBlock (tidy_selectors hne)
            ((hparts block hmem).curly hcurly)
  | .stretch whole semicolon, h =>
      refine ⟨fun d hd => ?_, fun c hc => ?_⟩
      · obtain ⟨-, parts, semicolon, hitem, hd⟩ := mem_declarations_ofItem hd
        cases hitem
        exact tidy_declaration? (fun p hp => (hparts p (h.subset hp)).named) hd
      · rw [children_stretch] at hc
        cases hc

theorem tidy_bodyOf {parts : Parts Body} (h : ∀ p ∈ parts, TidyPart p) :
    (bodyOf parts).Tidy := by
  refine Body.Tidy.concat fun b hb => ?_
  obtain ⟨item, hitem, rfl⟩ := List.mem_map.1 hb
  exact tidy_ofItem h .body (Item.within_of_mem hitem)

theorem tidyPart_annotate (c : Component) (h : ∀ t ∈ c.tokens, t.Named) :
    TidyPart (c.annotate bodyOf) := by
  induction c using Component.inductionOn with
  | token t => exact ⟨h, fun b hb => by cases hb⟩
  | block opener content closer ih =>
      refine ⟨h, fun b hb => ?_⟩
      cases hb
      refine tidy_bodyOf (forall_mem_annotate fun d hd => ?_)
      refine ih d hd fun t ht => h t ?_
      have hcontent : t ∈ tokensOf content := mem_tokensOf.2 ⟨d, hd, ht⟩
      simp [hcontent]

/-! ## Sheets -/

theorem withoutCharset_subset {α : Type} (items : List (Item α)) :
    withoutCharset items ⊆ items := by
  induction items with
  | nil => exact List.Subset.refl _
  | cons item items ih =>
      rw [withoutCharset]
      split
      · exact List.cons_subset_cons item ih
      · split
        · exact List.subset_cons_self item items
        · exact List.Subset.refl _

theorem tidy_bodyOfSheet (s : List Char) :
    (bodyOfSheet (components s)).Tidy := by
  refine Body.Tidy.concat fun b hb => ?_
  obtain ⟨item, hitem, rfl⟩ := List.mem_map.1 hb
  refine tidy_ofItem (forall_mem_annotate fun c hc => ?_) .sheet
    (Item.within_of_mem (withoutCharset_subset _ hitem))
  refine tidyPart_annotate c fun t ht => named_of_mem_tokenize (s := s) ?_
  rw [← tokensOf_components s]
  exact mem_tokensOf.2 ⟨c, hc, ht⟩

theorem isAtRule_map {α β : Type} (φ : α → β) (name : String)
    (item : Item α) : isAtRule name (item.map φ) = isAtRule name item := by
  cases item <;> rfl

theorem isGap_map {α β : Type} (φ : α → β) (item : Item α) :
    isGap (item.map φ) = isGap item := by
  cases item <;> rfl

theorem withoutCharset_map {α β : Type} (φ : α → β) (items : List (Item α)) :
    withoutCharset (items.map (Item.map φ)) =
      (withoutCharset items).map (Item.map φ) := by
  induction items with
  | nil => rfl
  | cons item items ih =>
      rw [List.map_cons, withoutCharset, withoutCharset, isGap_map,
        isAtRule_map, ih]
      split
      · rfl
      · split <;> rfl

theorem itemsOf_map {α β : Type} (φ : α → β) (parts : Parts α) :
    itemsOf (Parts.map φ parts) = (itemsOf parts).map (Item.map φ) := by
  rw [itemsOf, Item.all_map, withoutCharset_map, itemsOf]

theorem declarations_bodyOfSheet (cs : List Component) :
    (bodyOfSheet cs).declarations = [] := by
  refine List.eq_nil_iff_forall_not_mem.2 fun d hd => ?_
  obtain ⟨b, hb, hd⟩ := mem_declarations_concat.1 hd
  obtain ⟨item, -, rfl⟩ := List.mem_map.1 hb
  cases (mem_declarations_ofItem hd).1

section Parse

variable [Validator] {css : String}

theorem parse_eq_ok_iff {r : Block × List Record} :
    parse css = .ok r ↔
      Validator.accepts css = true ∧ r = tree (components css.toList) := by
  rw [parse]
  split
  · next haccepted => simp [haccepted, eq_comm]
  · next hrejected => simp [hrejected]

theorem tree_of_parse {r : Block × List Record} (h : parse css = .ok r) :
    r = tree (components css.toList) :=
  (parse_eq_ok_iff.1 h).2

/-- The only fault of a text is that it is no sheet. -/
theorem fault_of_parse {fault : Fault} (h : parse css = .error fault) :
    fault = .malformedSheet (Validator.reason css) := by
  rw [parse] at h
  split at h
  · cases h
  · cases h
    rfl

/-- The tree of every sheet is tidy. -/
theorem tidySheet_of_parse {t : Block} {records : List Record}
    (h : parse css = .ok (t, records)) : t.TidySheet := by
  cases tree_of_parse h
  exact ⟨rfl, declarations_bodyOfSheet _, (tidy_bodyOfSheet css.toList).blocks⟩

end Parse

end CssVendor.Sheet
