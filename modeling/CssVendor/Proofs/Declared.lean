import CssVendor.Proofs.AcceptedRules
import CssVendor.Proofs.ValueForm

/-!
# Where a declaration comes from

Every declaration of an accepted rule was cut out of components that the
grammar accepted as a declaration, and these components stand in the sheet in
front of a semicolon, a closing bracket or the end.

The body of the rule must be plain for this: flat, so that the grammar cuts it
as the reader does, and with nothing around a value that is white space to the
one and not to the other. No more is asked of the bodies around the rule than
that they are flat, and nothing of the rest of the sheet.
-/

namespace CssVendor.Syntax

open Grammar

/-! ## Pieces of a body -/

/-- Components stand in front of a semicolon, of a closing bracket or of the
end of a text. -/
def EndsPiece (s : List Char) (cs : List Component) : Prop :=
  ∃ rest, tokensOf cs ++ rest <:+ tokenize s ∧
    Matched rest.isEmpty none cs ∧
      ∀ t ∈ rest.head?, t.kind = .semicolon ∨ t.kind = .closeCurly

variable {s : List Char} {cs before behind : List Component}

/-- A piece of what stands in a block in curly brackets. -/
theorem Fills.endsPiece
    (h : Fills s (some .closeCurly) (before ++ (cs ++ behind)))
    (hbehind : ∀ c ∈ behind.head?, c.isToken .semicolon = true) :
    EndsPiece s cs := by
  obtain ⟨rest, hplace, hmatched, hrest⟩ := h
  have hmatched := hmatched.of_suffix
  refine ⟨tokensOf behind ++ rest, ?_, ?_⟩
  · refine List.IsSuffix.trans ⟨tokensOf before, ?_⟩ hplace
    simp [tokensOf_append]
  · cases behind with
    | nil =>
        rw [List.append_nil] at hmatched
        exact ⟨hmatched.top, fun t ht =>
          Or.inr (Option.some.inj (hrest t ht)).symm⟩
    | cons c behind =>
        have hsemicolon := hbehind c rfl
        cases c with
        | block opener content last => cases hsemicolon
        | token t =>
            refine ⟨(hmatched.of_prefix (by simp)).top, fun t' ht' => ?_⟩
            obtain rfl : t = t' := by simpa using ht'
            exact Or.inl (eq_of_beq hsemicolon)

theorem EndsPiece.of_append (h : EndsPiece s (before ++ cs)) :
    EndsPiece s cs := by
  obtain ⟨rest, hplace, hmatched, hrest⟩ := h
  refine ⟨rest, List.IsSuffix.trans ⟨tokensOf before, ?_⟩ hplace,
    hmatched.of_suffix, hrest⟩
  simp [tokensOf_append]

/-- A stretch of one reading of a body is one of any other. -/
theorem exists_stretch_of_mem {α β : Type} {f : Parts α → α} (g : Parts β → β)
    {parts : Parts α} {semicolon : Bool}
    (h : .stretch parts semicolon ∈ Item.all .body (annotate f cs)) :
    ∃ whole, .stretch whole semicolon ∈ Item.all .body (annotate g cs) ∧
      Parts.map (fun _ => ()) whole = Parts.map (fun _ => ()) parts := by
  have hmem := List.mem_map_of_mem (f := Item.map fun _ => ()) h
  rw [map_all_annotate f g] at hmem
  obtain ⟨item, hitem, hshape⟩ := List.mem_map.1 hmem
  cases item with
  | stretch whole semicolon' =>
      obtain ⟨hparts, rfl⟩ := Item.stretch.inj hshape
      exact ⟨whole, hitem, hparts⟩
  | gap => cases hshape
  | atRule keyword before block => cases hshape
  | rule before block => cases hshape

/-- Where a stretch of a body stands, and what it is made of. -/
theorem Fills.stretch {α : Type} {f : Parts α → α} {whole : Parts α}
    {semicolon : Bool} (h : Fills s (some .closeCurly) cs)
    (hmem : .stretch whole semicolon ∈ Item.all .body (annotate f cs)) :
    EndsPiece s (componentsOf whole) ∧
      ∀ c ∈ componentsOf whole, c.goesOn true = true := by
  obtain ⟨before, behind, hall, hcontinues, hbehind⟩ :=
    exists_of_stretch_mem hmem
  have hcs : cs = componentsOf before ++
      (componentsOf whole ++ componentsOf behind) := by
    have hcomponents := congrArg componentsOf hall
    rw [componentsOf_annotate] at hcomponents
    simpa [componentsOf] using hcomponents
  rw [hcs] at h
  refine ⟨h.endsPiece fun c hc => ?_, fun c hc => ?_⟩
  · rw [componentsOf, List.head?_map, Option.mem_def,
      Option.map_eq_some_iff] at hc
    obtain ⟨p, hp, rfl⟩ := hc
    exact hbehind p hp
  · obtain ⟨p, hp, rfl⟩ := List.mem_map.1 hc
    have hmem : p ∈ annotate f cs := by
      rw [hall]
      simp [hp]
    obtain ⟨c, -, rfl⟩ := exists_of_mem_annotate hmem
    rw [component_annotate, ← continues_annotate (f := f)]
    exact hcontinues _ hp

theorem blanksAreTokens_of_matched {ends : Bool} {closer : Option TokenKind}
    (h : Matched ends closer cs) : BlanksAreTokens cs := by
  intro c hc hblank
  obtain ⟨t, ht, -⟩ := (h.formed c hc).token_of_isBlank hblank
  exact ⟨t, ht⟩

end CssVendor.Syntax

namespace CssVendor.Sheet

open Syntax Grammar

/-! ## Plain bodies -/

/-- Whether an item of a body keeps its blanks, if it is a declaration. -/
def isKeptItem : Item Verdict → Bool
  | .stretch parts _ =>
      (nameAndValue? parts).all fun (_, value) =>
        Sheet.keepsBlanks (textOf (componentsOf value))
  | _ => true

/-- A flat body whose declarations keep their blanks. -/
structure PlainBody (content : List Component) : Prop where
  flat : FlatBody content
  kept : (Text.divide readInnerItem (annotate Verdict.of content)).all
    isKeptItem = true

instance (content : List Component) : Decidable (PlainBody content) :=
  decidable_of_iff (_ ∧ _)
    ⟨fun h => ⟨h.1, h.2⟩, fun h => ⟨h.flat, h.kept⟩⟩

/-! ## Declarations -/

/-- The declaration of a name and the components of a value. -/
def declarationOf (name : List Char) (value : List Component) : Declaration :=
  ⟨String.ofList name, String.ofList (splitImportant (textOf value)).1,
    (splitImportant (textOf value)).2⟩

variable {α β : Type}

theorem exists_of_nameAndValue? {parts value : Parts α} {name : List Char}
    (h : nameAndValue? parts = some (name, value)) :
    ∃ before, parts = before ++ value ∧
      declaration? parts = some (declarationOf name (componentsOf value)) := by
  cases parts with
  | nil => cases h
  | cons p rest =>
      rw [nameAndValue?] at h
      split at h
      · next n colon behind hname hrest =>
          split at h
          · next hcolon =>
              obtain ⟨rfl, rfl⟩ := Prod.mk.inj (Option.some.inj h)
              have hall := List.takeWhile_append_dropWhile
                (p := Annotated.isBlank) (l := rest)
              rw [hrest] at hall
              refine ⟨p :: (rest.takeWhile Annotated.isBlank ++ [colon]), ?_, ?_⟩
              · rw [List.cons_append, List.append_assoc,
                  List.singleton_append, hall]
              · obtain ⟨text, hcomponent⟩ := ident?_eq_some hname
                obtain ⟨component, content⟩ := p
                obtain rfl : component = _ := hcomponent
                rw [declaration?, hrest]
                simp only [hcolon, if_true]
                rfl
          · cases h
      · cases h

theorem declaration?_map (φ : α → β) (parts : Parts α) :
    declaration? (Parts.map φ parts) = declaration? parts := by
  have hdrop : ∀ rest : Parts α, (Parts.map φ rest).dropWhile Annotated.isBlank =
      Parts.map φ (rest.dropWhile Annotated.isBlank) := by
    intro rest
    rw [Parts.map, Parts.map, List.dropWhile_map]
    rfl
  cases parts with
  | nil => rfl
  | cons p rest =>
      obtain ⟨component, content⟩ := p
      cases component with
      | block opener inside closer => rfl
      | token t =>
          obtain ⟨kind, text⟩ := t
          cases kind with
          | ident name =>
              have hmap : Parts.map φ
                  (⟨.token ⟨.ident name, text⟩, content⟩ :: rest) =
                    ⟨.token ⟨.ident name, text⟩, content.map φ⟩ ::
                      Parts.map φ rest := rfl
              rw [hmap, declaration?, hdrop, declaration?]
              cases rest.dropWhile Annotated.isBlank with
              | nil => rfl
              | cons colon value =>
                  simp only [Parts.map, List.map_cons]
                  rw [← Parts.map, componentsOf_map]
                  rfl
          | _ => rfl

/-- A declaration stems from components of a text: they are what stands behind
its colon, and the grammar takes them for a value of its property. -/
structure Stems (s : List Char) (d : Declaration) (value : List Component) :
    Prop where
  split : splitImportant (textOf value) = (d.value.toList, d.important)
  fits : fitsValue d.name.toList (significant value) = true
  flat : ∀ c ∈ value, c.goesOn true = true
  kept : keepsBlanks (textOf value) = true
  place : EndsPiece s value

/-- A declaration stems from some components of a text. -/
def Stemmed (s : List Char) (d : Declaration) : Prop :=
  ∃ value, Stems s d value

theorem stemmed_of_stretch {s : List Char} {whole : Parts Verdict}
    (hplace : EndsPiece s (componentsOf whole))
    (hflat : ∀ c ∈ componentsOf whole, c.goesOn true = true)
    (hkept : (nameAndValue? whole).all (fun (_, value) =>
      keepsBlanks (textOf (componentsOf value))) = true)
    (h : isDeclaration whole = true) :
    ∀ d ∈ declaration? whole, Stemmed s d := by
  intro d hd
  rw [isDeclaration] at h
  split at h
  · next name value hname =>
      obtain ⟨before, hwhole, hdeclaration⟩ := exists_of_nameAndValue? hname
      rw [Option.mem_def, hdeclaration] at hd
      obtain rfl := Option.some.inj hd
      rw [hwhole, componentsOf, List.map_append] at hplace
      have hvalue : EndsPiece s (componentsOf value) := hplace.of_append
      have hblanks : BlanksAreTokens (componentsOf value) := by
        obtain ⟨rest, -, hmatched, -⟩ := hvalue
        exact blanksAreTokens_of_matched hmatched
      rw [Bool.and_eq_true, isValue_eq hblanks] at h
      rw [hname] at hkept
      refine ⟨componentsOf value, ?_, ?_, ?_, hkept, hvalue⟩
      · simp [declarationOf]
      · rw [declarationOf, String.toList_ofList]
        exact h.1
      · intro c hc
        refine hflat c ?_
        rw [hwhole, componentsOf, List.map_append]
        exact List.mem_append_right _ hc
  · cases h

/-- Every declaration of an accepted rule stems from components that the
grammar takes for a value, as long as its body is plain. -/
theorem stemmed_of_accepted {s : List Char} {rule : Rule}
    (hstands : rule.Stands s) (haccepted : rule.Accepted)
    (hplain : PlainBody rule.content) :
    ∀ d ∈ rule.block.declarations, Stemmed s d := by
  intro d hd
  obtain ⟨b, hb, hd⟩ := mem_declarations_concat.1 hd
  obtain ⟨item, hitem, rfl⟩ := List.mem_map.1 hb
  obtain ⟨-, parts, semicolon, rfl, hdeclared⟩ := mem_declarations_ofItem hd
  obtain ⟨whole, hwhole, hparts⟩ := exists_stretch_of_mem Verdict.of hitem
  have hdeclaration : isDeclaration whole = true := by
    rcases haccepted.content.items hplain.flat _ hwhole with hinner | houter
    · exact hinner
    · cases houter
  have hkept := hplain.kept
  rw [divide_readInnerItem hplain.flat] at hkept
  rw [← declaration?_map (fun _ => ()), ← hparts, declaration?_map] at hdeclared
  obtain ⟨hplace, hflat⟩ := hstands.content.stretch hwhole
  exact stemmed_of_stretch hplace hflat (List.all_eq_true.1 hkept _ hwhole)
    hdeclaration d hdeclared

end CssVendor.Sheet
