import CssVendor.Proofs.Declared
import CssVendor.Proofs.EarlyStop
import CssVendor.Proofs.ItemBounds

/-!
# Custom properties

The value of a custom property may be any text that the brackets in it hold
together, and what a value says is nobody's business but its own. For the
grammar such a declaration reaches to the next semicolon. The reader agrees if
no block in curly brackets stands at the top level of the value: then the
declaration is one item for it as well, whatever stands before it in the body,
and even if another custom property there is not read as the grammar reads it.

So each block is put together from what the pieces of its rule say one by one,
and every piece that declares such a property says just this declaration. Runs
append to blocks and change nothing that they find.
-/

namespace CssVendor

open Syntax Text

namespace Grammar

/-- The name and the value of a custom property, if an item declares one. -/
def customProperty? : Item Verdict → Option (List Char × Parts Verdict)
  | .stretch parts _ =>
      (nameAndValue? parts).filter fun (name, _) => isCustomName name
  | _ => none

theorem exists_of_customProperty? {item : Item Verdict} {name : List Char}
    {value : Parts Verdict} (h : customProperty? item = some (name, value)) :
    ∃ whole semicolon, item = .stretch whole semicolon ∧
      nameAndValue? whole = some (name, value) := by
  cases item with
  | stretch whole semicolon =>
      rw [customProperty?, Option.filter_eq_some_iff] at h
      exact ⟨whole, semicolon, rfl, h.1⟩
  | gap => cases h
  | atRule keyword before block => cases h
  | rule before block => cases h

/-- Parts among which is no block in curly brackets. -/
def IsBare (parts : Parts Verdict) : Prop :=
  ∀ p ∈ parts, p.curly?.isNone = true

instance (parts : Parts Verdict) : Decidable (IsBare parts) :=
  inferInstanceAs (Decidable (∀ p ∈ parts, _))

variable {whole : Parts Verdict} {semicolon : Bool}

theorem isNone_curly?_of_isBlank {p : Annotated Verdict}
    (h : p.isBlank = true) : p.curly?.isNone = true := by
  obtain ⟨component, content⟩ := p
  cases component with
  | token t => rfl
  | block opener inside closer =>
      have hcurly : (opener.kind == .openCurly) = false := by
        refine Bool.eq_false_iff.2 fun hopener => ?_
        have hblank : opener.kind.isBlank = true := h
        rw [eq_of_beq hopener] at hblank
        cases hblank
      rw [Annotated.curly?, Component.isCurly, hcurly]
      rfl

/-- In front of a value there is no block. -/
theorem IsBare.of_value {name : List Char} {value : Parts Verdict}
    (hname : nameAndValue? whole = some (name, value)) (h : IsBare value) :
    IsBare whole := by
  cases whole with
  | nil => cases hname
  | cons p rest =>
      rw [nameAndValue?] at hname
      split at hname
      · next n colon behind hident hrest =>
          split at hname
          · next hcolon =>
              obtain ⟨-, rfl⟩ := Prod.mk.inj (Option.some.inj hname)
              have hall := List.takeWhile_append_dropWhile
                (p := Annotated.isBlank) (l := rest)
              rw [hrest] at hall
              obtain ⟨text, hcomponent⟩ := ident?_eq_some hident
              refine List.forall_mem_cons.2 ⟨?_, ?_⟩
              · rw [Annotated.curly?, hcomponent]
                rfl
              · rw [← hall]
                refine List.forall_mem_append.2 ⟨fun q hq => ?_, ?_⟩
                · exact isNone_curly?_of_isBlank (List.mem_takeWhile_imp hq)
                · refine List.forall_mem_cons.2 ⟨?_, h⟩
                  rw [curly?_of_isToken hcolon]
                  rfl
          · cases hname
      · cases hname

/-- A piece without blocks is one item for the reader as it is for the
grammar. -/
theorem all_take_innerLength {c : Component} {cs : List Component}
    (h : (readInnerItem (annotate Verdict.of (c :: cs))).1 =
      .stretch whole semicolon) (hbare : IsBare whole) :
    Item.all .body (annotate Verdict.of
        ((c :: cs).take (innerLength (c :: cs)))) =
      [.stretch whole semicolon] ∧
    ∃ ends, (c :: cs).take (innerLength (c :: cs)) =
        componentsOf whole ++ ends ∧
      (ends = [] ∨ ∃ t, t.kind = .semicolon ∧ ends = [.token t]) := by
  have hflat : isFlatItem
      (readInnerItem (annotate Verdict.of (c :: cs))).1 = true := by
    rw [h]
    exact List.all_eq_true.2 hbare
  obtain ⟨hitem, hdrop⟩ := readInnerItem_of_flat hflat
  have htake := take_eq_of_drop_eq hdrop
  rw [h] at hitem
  constructor
  · rw [innerLength, ← annotate_take, htake, hitem]
    exact all_take_read .body (c.annotate Verdict.of)
      (annotate Verdict.of cs)
  · obtain ⟨ends, hends, hlast⟩ := exists_take_of_stretch hitem.symm
    refine ⟨componentsOf ends, ?_, ?_⟩
    · have hcomponents := congrArg componentsOf (htake.trans hends)
      rw [annotate_take, componentsOf_annotate] at hcomponents
      rw [innerLength, hcomponents, componentsOf, List.map_append]
      rfl
    · rcases hlast with rfl | ⟨q, hq, rfl⟩
      · exact Or.inl rfl
      · obtain ⟨component, content⟩ := q
        cases component with
        | block opener inside closer => cases hq
        | token t => exact Or.inr ⟨t, eq_of_beq hq, rfl⟩

end Grammar

namespace Sheet

open Grammar

/-! ## What a piece says -/

/-- Components declare one custom property and say nothing else. The value
stands in them whole; nothing but blanks and the importance is taken off. -/
structure DeclaresCustom (cs : List Component) (name : List Char)
    (value : List Component) : Prop where
  body : bodyOf (annotate bodyOf cs) =
    .ofDeclaration (declarationOf name value)
  whole : ∃ before ends, cs = before ++ (value ++ ends) ∧
    (ends = [] ∨ ∃ t, t.kind = .semicolon ∧ ends = [.token t])
  kept : ∃ lead tail, textOf value =
      lead ++ ((declarationOf name value).value.toList ++ tail) ∧
    (∀ c ∈ lead, isBlank c = true) ∧
    Tail isBlank (declarationOf name value).important tail

/-- What is one declaration for the grammar is one for the reader. -/
theorem bodyOf_of_stretch {cs : List Component} {whole : Parts Verdict}
    {semicolon : Bool} {d : Declaration}
    (h : Item.all .body (annotate Verdict.of cs) = [.stretch whole semicolon])
    (hd : declaration? whole = some d) :
    bodyOf (annotate bodyOf cs) = .ofDeclaration d := by
  have hmap := map_all_annotate bodyOf Verdict.of cs
  rw [h] at hmap
  obtain ⟨item, hitem, hstretch⟩ := List.map_eq_singleton_iff.1 hmap
  rw [bodyOf, hitem]
  cases item with
  | stretch parts atSemicolon =>
      have hparts : Parts.map (fun _ => ()) parts =
          Parts.map (fun _ => ()) whole := (Item.stretch.inj hstretch).1
      have hdeclaration : declaration? parts = some d := by
        rw [← declaration?_map (fun _ => ()), hparts, declaration?_map, hd]
      refine (Body.append_empty _).trans ?_
      exact ofItem_stretch hdeclaration _
  | gap => cases hstretch
  | atRule keyword before block => cases hstretch
  | rule before block => cases hstretch

theorem exists_of_declarationOf (name : List Char) (value : List Component) :
    ∃ lead tail, textOf value =
        lead ++ ((declarationOf name value).value.toList ++ tail) ∧
      (∀ c ∈ lead, isBlank c = true) ∧
      Tail isBlank (declarationOf name value).important tail := by
  rw [declarationOf, String.toList_ofList]
  exact exists_of_splitImportant rfl

/-- The first piece of a content, if it declares a custom property. -/
theorem declaresCustom_take {c : Component} {cs : List Component}
    {item : Item Verdict} {name : List Char} {value : Parts Verdict}
    (hitem : (readInnerItem (annotate Verdict.of (c :: cs))).1 = item)
    (hcustom : customProperty? item = some (name, value))
    (hbare : IsBare value) :
    DeclaresCustom ((c :: cs).take (innerLength (c :: cs))) name
      (componentsOf value) := by
  obtain ⟨whole, semicolon, rfl, hname⟩ := exists_of_customProperty? hcustom
  obtain ⟨hall, ends, hends, hlast⟩ :=
    all_take_innerLength hitem (.of_value hname hbare)
  obtain ⟨before, hbefore, hdeclaration⟩ := exists_of_nameAndValue? hname
  refine ⟨bodyOf_of_stretch hall hdeclaration,
    ⟨componentsOf before, ends, ?_, hlast⟩,
    exists_of_declarationOf name (componentsOf value)⟩
  rw [hends, hbefore, componentsOf, List.map_append, List.append_assoc]
  rfl

theorem declaresCustom_of_piece (content : List Component) :
    ∀ p ∈ innerPieces content, ∀ name value,
      customProperty? p.1 = some (name, value) → IsBare value →
        DeclaresCustom p.2 name (componentsOf value) :=
  forall_innerPieces (fun _ _ _ _ => declaresCustom_take rfl) content

/-! ## What a block is put together from -/

/-- A block is put together from what the pieces of its rule say, and each
custom property among these that has no block in curly brackets at the top
level of its value says its own declaration. -/
structure Rule.KeepsCustom (rule : Rule) (b : Block) : Prop where
  kind : b.kind = rule.kind
  items : (innerPieces rule.content).map Prod.fst =
    divide readInnerItem (annotate Verdict.of rule.content)
  content : (innerPieces rule.content).flatMap Prod.snd = rule.content
  declarations : b.declarations = (innerPieces rule.content).flatMap fun p =>
    (bodyOf (annotate bodyOf p.2)).declarations
  children : b.children = (innerPieces rule.content).flatMap fun p =>
    (bodyOf (annotate bodyOf p.2)).children
  custom : ∀ p ∈ innerPieces rule.content, ∀ name value,
    customProperty? p.1 = some (name, value) → IsBare value →
      DeclaresCustom p.2 name (componentsOf value)

theorem bodyOf_innerPieces (content : List Component) :
    bodyOf (annotate bodyOf content) = .concat ((innerPieces content).map
      fun p => bodyOf (annotate bodyOf p.2)) := by
  rw [bodyOf, all_innerPieces]
  induction innerPieces content with
  | nil => rfl
  | cons p ps ih =>
      rw [List.flatMap_cons, List.map_append, Body.concat_append, ih]
      rfl

theorem Rule.keepsCustom_block (rule : Rule) : rule.KeepsCustom rule.block where
  kind := rfl
  items := map_fst_innerPieces rule.content
  content := flatMap_innerPieces rule.content
  declarations := by
    rw [Rule.block, bodyOf_innerPieces, Body.block, Body.declarations_concat,
      List.flatMap_map]
  children := by
    rw [Rule.block, bodyOf_innerPieces, Body.block, Body.children_concat,
      List.flatMap_map]
  custom := declaresCustom_of_piece rule.content

/-- In every accepted sheet, a custom property in the body of a rule whose value
has no block in curly brackets at its top level is one declaration of the
block, with its value and its importance, and nothing else. A run leaves all
declarations as they were read. -/
theorem custom_properties_kept [Validator] {css : String} {t : Block}
    {records : List Record} (h : parse css = .ok (t, records)) :
    List.Forall₂ Rule.KeepsCustom (rules (components css.toList))
        t.preorder.tail ∧
      ∀ f : Filler, List.Forall₂ Block.Extends t.preorder
        (f.run t).tree.preorder := by
  refine ⟨?_, fun f => (f.pass_run t).extends⟩
  rw [preorder_tail_of_parse h, List.forall₂_map_right_iff, List.forall₂_same]
  exact fun rule _ => rule.keepsCustom_block

/-- A custom property behind another one that has a block in its value, and
with a block of its own inside brackets. -/
theorem custom_properties_kept_behind_block :
    let css := "a\x7b" ++ "--y:\x7bb:c\x7d d;" ++
      "--x: (1;\x7b2\x7d) ! important;" ++ "e\x7b\x7d" ++ "\x7d"
    ∃ t records, parse css = .ok (t, records) ∧
      (List.Forall₂ Rule.KeepsCustom (rules (components css.toList))
          t.preorder.tail ∧
        ∀ f : Filler, List.Forall₂ Block.Extends t.preorder
          (f.run t).tree.preorder) ∧
      (rules (components css.toList)).head?.map (fun rule =>
        (innerPieces rule.content).map fun p =>
          (String.ofList (textOf p.2), (customProperty? p.1).map
            fun (name, value) => (String.ofList name,
              decide (IsBare value)))) =
        some [("--y:\x7bb:c\x7d d;", some ("--y", false)),
          ("--x: (1;\x7b2\x7d) ! important;", some ("--x", true)),
          ("e\x7b\x7d", none)] ∧
      t.preorder.tail.map Block.declarations =
        [[⟨"--x", "(1;\x7b2\x7d)", true⟩], [⟨"b", "c", false⟩], []] := by
  intro css
  have haccepted : Grammar.isSheet (components css.toList) = true := by
    decide +kernel
  have hparse : parse css = .ok (tree (components css.toList)) :=
    if_pos haccepted
  exact ⟨_, _, hparse, custom_properties_kept hparse, by decide +kernel,
    by decide +kernel⟩

end Sheet

end CssVendor
