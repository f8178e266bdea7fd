import CssVendor.Proofs.Items
import CssVendor.Sheet.Reader

/-!
# What components say

`Says place cs b` says that components add a body to the one they stand in,
whatever comes behind them. Bodies are put together as the components are.
-/

namespace CssVendor.Sheet

open Syntax Text

/-! ## Bodies in a row -/

theorem Body.append_empty (b : Body) : b.append .empty = b := by
  simp [Body.append, Body.empty]

theorem Body.append_assoc (a b c : Body) :
    (a.append b).append c = a.append (b.append c) := by
  simp [Body.append]

theorem Body.concat_append (bs bs' : List Body) :
    Body.concat (bs ++ bs') = (Body.concat bs).append (Body.concat bs') := by
  induction bs with
  | nil => rfl
  | cons b bs ih =>
      rw [List.cons_append, Body.concat, Body.concat, ih, Body.append_assoc]

theorem Body.declarations_concat (bs : List Body) :
    (Body.concat bs).declarations = bs.flatMap Body.declarations := by
  induction bs with
  | nil => rfl
  | cons b bs ih => rw [List.flatMap_cons, ← ih]; rfl

theorem Body.children_concat (bs : List Body) :
    (Body.concat bs).children = bs.flatMap Body.children := by
  induction bs with
  | nil => rfl
  | cons b bs ih => rw [List.flatMap_cons, ← ih]; rfl

variable {place : Place} {cs cs' : List Component} {a b : Body}

/-- Components add a body to the one they stand in. None of them is a
`@charset` rule. -/
def Says (place : Place) (cs : List Component) (b : Body) : Prop :=
  ∃ items, Yields bodyOf place cs items ∧
    (∀ item ∈ items, isAtRule "charset" item = false) ∧
    Body.concat (items.map (ofItem place)) = b

namespace Says

theorem nil (place : Place) : Says place [] .empty :=
  ⟨[], Yields.nil bodyOf place, by simp, rfl⟩

theorem append (h : Says place cs a) (h' : Says place cs' b) :
    Says place (cs ++ cs') (a.append b) := by
  obtain ⟨items, hyields, hcharset, hbody⟩ := h
  obtain ⟨items', hyields', hcharset', hbody'⟩ := h'
  refine ⟨items ++ items', hyields.append hyields', ?_, ?_⟩
  · intro item hitem
    rcases List.mem_append.1 hitem with hitem | hitem
    · exact hcharset item hitem
    · exact hcharset' item hitem
  · rw [List.map_append, Body.concat_append, hbody, hbody']

theorem item {item : Item Body} (h : Yields bodyOf place cs [item])
    (hcharset : isAtRule "charset" item = false) :
    Says place cs (ofItem place item) := by
  refine ⟨[item], h, ?_, Body.append_empty _⟩
  intro other hother
  rw [List.mem_singleton.1 hother]
  exact hcharset

theorem gap {t : Token} (h : place.isGap t.kind = true) :
    Says place [.token t] .empty :=
  item (yields_gap h) rfl

theorem bodyOf_eq (h : Says .body cs b) : bodyOf (annotate bodyOf cs) = b := by
  obtain ⟨items, hyields, -, hbody⟩ := h
  rw [bodyOf, hyields.all_eq, hbody]

theorem withoutCharset_eq {items : List (Item Body)}
    (h : ∀ item ∈ items, isAtRule "charset" item = false) :
    withoutCharset items = items := by
  induction items with
  | nil => rfl
  | cons item items ih =>
      rw [withoutCharset, ih fun other hother => h other (by simp [hother]),
        h item (by simp)]
      split <;> rfl

theorem bodyOfSheet_eq (h : Says .sheet cs b) : bodyOfSheet cs = b := by
  obtain ⟨items, hyields, hcharset, hbody⟩ := h
  rw [bodyOfSheet, itemsOf, hyields.all_eq, withoutCharset_eq hcharset, hbody]

end Says

/-! ## Declarations -/

/-- The components of a name, a colon and a value. -/
def declarationParts (n : List Char) (value : List Component) :
    List Component :=
  .token ⟨.ident n, n⟩ :: .token ⟨.colon, [':']⟩ :: value

theorem declaration?_parts {n v : List Char} {important : Bool}
    {value : List Component}
    (h : splitImportant (textOf value) = (v, important)) :
    declaration? (annotate bodyOf (declarationParts n value)) =
      some ⟨String.ofList n, String.ofList v, important⟩ := by
  have hraw : splitImportant (textOf (componentsOf (annotate bodyOf value))) =
      (v, important) := by
    rw [componentsOf_annotate, h]
  have hparts : declaration? (annotate bodyOf (declarationParts n value)) =
      let r := splitImportant (textOf (componentsOf (annotate bodyOf value)))
      some ⟨String.ofList n, String.ofList r.1, r.2⟩ := rfl
  rw [hparts, hraw]

theorem goesOn_declarationParts {n : List Char} {value : List Component}
    (h : ∀ c ∈ value, c.goesOn true = true) :
    ∀ c ∈ declarationParts n value, c.goesOn true = true := by
  intro c hc
  rcases List.mem_cons.1 hc with rfl | hc
  · rfl
  · rcases List.mem_cons.1 hc with rfl | hc
    · rfl
    · exact h c hc

theorem ofItem_stretch {parts : Parts Body} {d : Declaration}
    (h : declaration? parts = some d) (semicolon : Bool) :
    ofItem .body (.stretch parts semicolon) = .ofDeclaration d := by
  simp only [ofItem, h]

/-- A declaration with the semicolon behind it. -/
theorem says_declaration {n : List Char} {value : List Component}
    {d : Declaration}
    (hd : declaration? (annotate bodyOf (declarationParts n value)) = some d)
    (h : ∀ c ∈ value, c.goesOn true = true) :
    Says .body (declarationParts n value ++ [.token ⟨.semicolon, [';']⟩])
      (.ofDeclaration d) := by
  rw [← ofItem_stretch hd true]
  exact Says.item (yields_stretch rfl rfl rfl (goesOn_declarationParts h)) rfl

/-- A declaration at the end of a body. -/
theorem bodyOf_append_declaration {n : List Char} {value : List Component}
    {d : Declaration}
    (hd : declaration? (annotate bodyOf (declarationParts n value)) = some d)
    (h : ∀ c ∈ value, c.goesOn true = true) (hcs : Says .body cs b) :
    bodyOf (annotate bodyOf (cs ++ declarationParts n value)) =
      b.append (.ofDeclaration d) := by
  obtain ⟨items, hyields, -, hbody⟩ := hcs
  have hall : Item.all .body (annotate bodyOf (declarationParts n value)) =
      [.stretch (annotate bodyOf (declarationParts n value)) false] :=
    all_stretch rfl (goesOn_declarationParts h)
  rw [bodyOf, hyields, List.map_append, Body.concat_append, hbody]
  refine congrArg b.append ?_
  rw [hall]
  refine (Body.append_empty _).trans ?_
  exact ofItem_stretch hd false

end CssVendor.Sheet
