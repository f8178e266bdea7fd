import CssVendor.Grammar.Value
import CssVendor.Proofs.BodyItems
import CssVendor.Proofs.ValueText

/-!
# What the grammar asks of a value

Whether parts are a value does not depend on the blanks among them, nor on what
has been worked out for blocks. `fitsValue` says what it comes down to, for
components without blanks: a value that fits the property and, possibly, an
exclamation mark and the word behind it.

So the question has the same answer for two lists of components that are alike
up to blanks, and for all that says the same value (`Renders.fits`). Tokens that
are alike may differ in their text, in white space behind an escape; this
matters only where a value is a calculation, which no token is that needs to be
one.
-/

namespace CssVendor.Grammar

open Syntax Text

variable {α : Type}

/-! ## Lists without some of their elements -/

theorem filter_takeWhile {keep p : α → Bool}
    (h : ∀ a, keep a = false → p a = true) (l : List α) :
    (l.takeWhile p).filter keep = (l.filter keep).takeWhile p := by
  induction l with
  | nil => rfl
  | cons a l ih =>
      rw [List.takeWhile_cons, List.filter_cons]
      cases hkeep : keep a with
      | false =>
          rw [h a hkeep, if_pos rfl, List.filter_cons_of_neg (by simp [hkeep]),
            ih]
          simp
      | true =>
          rw [if_pos rfl, List.takeWhile_cons]
          split
          · rw [List.filter_cons_of_pos hkeep, ih]
          · rfl

theorem filter_dropWhile {keep p : α → Bool}
    (h : ∀ a, keep a = false → p a = true) (l : List α) :
    (l.dropWhile p).filter keep = (l.filter keep).dropWhile p := by
  induction l with
  | nil => rfl
  | cons a l ih =>
      rw [List.dropWhile_cons, List.filter_cons]
      cases hkeep : keep a with
      | false => rw [h a hkeep, if_pos rfl, ih]; simp
      | true =>
          rw [if_pos rfl, List.dropWhile_cons]
          split
          · exact ih
          · rw [List.filter_cons_of_pos hkeep]

/-! ## One part among blanks -/

/-- Whether a part is no white space. -/
def isShown (p : Annotated α) : Bool := p.kind != .space

theorem skipSpace_eq (parts : Parts α) :
    skipSpace parts = parts.dropWhile fun p => !isShown p := by
  have hp : (fun p : Annotated α => p.kind == .space) =
      fun p => !isShown p := by
    funext p
    simp [isShown, bne]
  rw [skipSpace, hp]

theorem filter_skipSpace (parts : Parts α) :
    (skipSpace parts).filter isShown = parts.filter isShown := by
  rw [skipSpace_eq, filter_dropWhile (by simp)]
  refine List.dropWhile_eq_self_iff.2 fun hpos => ?_
  simpa using List.of_mem_filter (List.getElem_mem hpos)

theorem isEnd_eq (parts : Parts α) :
    isEnd parts = (parts.filter isShown).isEmpty := by
  rw [isEnd, ← filter_skipSpace, skipSpace_eq]
  cases hrest : parts.dropWhile fun p => !isShown p with
  | nil => rfl
  | cons p rest =>
      have hhead := List.head?_dropWhile_not (fun p => !isShown p) parts
      rw [hrest] at hhead
      have hshown : isShown p = true := by simpa using hhead
      rw [List.filter_cons_of_pos hshown]
      rfl

/-- What follows the first part that is no white space is white space. -/
theorem skipSpace_cases (parts : Parts α) :
    skipSpace parts = [] ∧ parts.filter isShown = [] ∨
      ∃ p rest, skipSpace parts = p :: rest ∧
        parts.filter isShown = p :: rest.filter isShown := by
  have hfilter := filter_skipSpace parts
  cases hrest : skipSpace parts with
  | nil =>
      rw [hrest] at hfilter
      exact Or.inl ⟨rfl, hfilter.symm⟩
  | cons p rest =>
      have hhead := List.head?_dropWhile_not (fun p => !isShown p) parts
      rw [← skipSpace_eq, hrest] at hhead
      have hshown : isShown p = true := by simpa using hhead
      rw [hrest, List.filter_cons_of_pos hshown] at hfilter
      exact Or.inr ⟨p, rest, rfl, hfilter.symm⟩

theorem isOne_eq (accepts : Annotated α → Bool) (parts : Parts α) :
    isOne accepts parts = match parts.filter isShown with
      | [p] => accepts p
      | _ => false := by
  rw [isOne]
  rcases skipSpace_cases parts with ⟨hrest, hfilter⟩ | ⟨p, rest, hrest, hfilter⟩
  · rw [hrest, hfilter]
  · rw [hrest, hfilter]
    simp only [isEnd_eq]
    cases rest.filter isShown with
    | nil => simp
    | cons q rest => simp

/-! ## Components without blanks -/

theorem isKeyword_eq (keywords : List String) (p : Annotated α) :
    isKeyword keywords p = isWord keywords p.component := by
  rw [isKeyword, ident?]
  split
  · next name hname =>
      split at hname
      · next n text hcomponent =>
          obtain rfl := Option.some.inj hname
          rw [hcomponent]
          rfl
      · cases hname
  · next hname =>
      split at hname
      · cases hname
      · next hother =>
          unfold isWord
          split
          · next name text hcomponent => exact absurd hcomponent (hother _ _)
          · rfl

/-- Whether components are one word that every property understands. -/
def isWide : List Component → Bool
  | [c] => isWord wideKeywords c
  | _ => false

/-- Whether components without blanks fit a property. -/
def fitsProperty (property : List Char) (cs : List Component) : Bool :=
  if isCustomName property then isAnyValue cs
  else if Text.isOneOf property allProperties then isWide cs
  else isAnyValue cs || isTypedValue property cs

/-- Whether a value goes on with a component. -/
def goesOnValue (c : Component) : Bool :=
  !c.isToken (.delim '!') && !c.isToken .semicolon

/-- Whether components without blanks are a value of a property, with or
without `!important`. -/
def fitsValue (property : List Char) (cs : List Component) : Bool :=
  fitsProperty property (cs.takeWhile goesOnValue) &&
    isMark (cs.dropWhile goesOnValue)

/-! ## Values -/

/-- Blanks are tokens. -/
def BlanksAreTokens (cs : List Component) : Prop :=
  ∀ c ∈ cs, c.isBlank = true → ∃ t, c = .token t

theorem isShown_iff {p : Annotated α} (h : p.kind ≠ .comment) :
    isShown p = !p.component.isBlank := by
  show (p.kind != .space) = !p.kind.isBlank
  cases hkind : p.kind with
  | comment => exact absurd hkind h
  | _ => rfl

theorem significant_of_filter {parts : Parts α}
    (h : ∀ p ∈ parts, p.kind ≠ .comment) :
    componentsOf (parts.filter isShown) = significant (componentsOf parts) := by
  rw [significant, componentsOf, componentsOf, List.filter_map]
  exact congrArg _ (List.filter_congr fun p hp => isShown_iff (h p hp))

theorem significant_significant (cs : List Component) :
    significant (significant cs) = significant cs := by
  rw [significant, significant, List.filter_filter]
  simp

theorem significant_withoutComments (parts : Parts α) :
    significant (componentsOf (withoutComments parts)) =
      significant (componentsOf parts) := by
  rw [significant, significant, componentsOf, componentsOf, List.filter_map,
    List.filter_map, withoutComments, List.filter_filter]
  refine congrArg _ (List.filter_congr fun p _ => ?_)
  show (!p.kind.isBlank && p.kind != .comment) = !p.kind.isBlank
  cases p.kind <;> rfl

theorem isAnyComponent_of_isBlank {t : Token} (h : t.kind.isBlank = true)
    (depth : Nat) : isAnyComponent depth (.token t) = true := by
  unfold TokenKind.isBlank at h
  rw [isAnyComponent]
  split at h
  · next hkind => rw [hkind]; rfl
  · next hkind => rw [hkind]; rfl
  · cases h

theorem isAnyValue_significant {cs : List Component}
    (h : BlanksAreTokens cs) : isAnyValue cs = isAnyValue (significant cs) := by
  rw [Bool.eq_iff_iff, isAnyValue, isAnyValue, List.all_eq_true,
    List.all_eq_true]
  refine ⟨fun hall c hc => hall c (List.mem_filter.1 hc).1,
    fun hall c hc => ?_⟩
  cases hblank : c.isBlank with
  | true =>
      obtain ⟨t, rfl⟩ := h c hc hblank
      exact isAnyComponent_of_isBlank hblank 0
  | false => exact hall c (List.mem_filter.2 ⟨hc, by simp [hblank]⟩)

theorem isValueFor_eq {property : List Char} {value : Parts α}
    (hcomments : ∀ p ∈ value, p.kind ≠ .comment)
    (hblanks : BlanksAreTokens (componentsOf value)) :
    isValueFor property value =
      fitsProperty property (significant (componentsOf value)) := by
  have hone : isOne (isKeyword wideKeywords) value =
      isWide (significant (componentsOf value)) := by
    rw [isOne_eq, ← significant_of_filter hcomments]
    match value.filter isShown with
    | [] => rfl
    | [p] => exact isKeyword_eq wideKeywords p
    | p :: q :: rest => rfl
  have htyped : isTypedValue property (componentsOf value) =
      isTypedValue property (significant (componentsOf value)) := by
    rw [isTypedValue, isTypedValue, significant_significant]
  rw [isValueFor, isAnyValue_significant hblanks, hone, htyped, fitsProperty]

theorem isImportance_eq (parts : Parts α)
    (hcomments : ∀ p ∈ parts, p.kind ≠ .comment)
    (hhead : ∀ p ∈ parts.head?, isShown p = true) :
    isImportance parts = isMark (significant (componentsOf parts)) := by
  rw [← significant_of_filter hcomments]
  cases parts with
  | nil => rfl
  | cons mark rest =>
      rw [List.filter_cons_of_pos (hhead mark rfl), isImportance, afterKeyword?]
      rcases skipSpace_cases rest with ⟨hrest, hfilter⟩ |
        ⟨word, behind, hrest, hfilter⟩
      · rw [hrest, hfilter]
        simp [componentsOf, isMark]
      · rw [hrest, hfilter]
        simp only [isKeyword_eq]
        cases hword : isWord ["important"] word.component with
        | false =>
            cases behind.filter isShown <;>
              simp [componentsOf, isMark, hword]
        | true =>
            simp only [if_true, isEnd_eq]
            cases behind.filter isShown with
            | nil =>
                simp [componentsOf, isMark, hword, isDelim,
                  Annotated.isToken]
            | cons p behind => simp [componentsOf, isMark]

/-- A value goes on with blanks. -/
theorem goesOnValue_of_isBlank {c : Component} (h : c.isBlank = true) :
    goesOnValue c = true := by
  cases c with
  | block opener content closer => rfl
  | token t =>
      have ht : t.kind.isBlank = true := h
      simp only [goesOnValue, Component.isToken]
      cases hkind : t.kind <;> rw [hkind] at ht <;> first | rfl | cases ht

theorem significant_takeWhile (parts : Parts α) :
    significant (componentsOf ((withoutComments parts).takeWhile
        fun p => goesOnValue p.component)) =
      (significant (componentsOf parts)).takeWhile goesOnValue := by
  rw [← significant_withoutComments parts, significant, significant,
    ← filter_takeWhile fun c hc => goesOnValue_of_isBlank (by simpa using hc),
    componentsOf, componentsOf, List.takeWhile_map]
  rfl

theorem significant_dropWhile (parts : Parts α) :
    significant (componentsOf ((withoutComments parts).dropWhile
        fun p => goesOnValue p.component)) =
      (significant (componentsOf parts)).dropWhile goesOnValue := by
  rw [← significant_withoutComments parts, significant, significant,
    ← filter_dropWhile fun c hc => goesOnValue_of_isBlank (by simpa using hc),
    componentsOf, componentsOf, List.dropWhile_map]
  rfl

/-- Whether parts are a value is a matter of their components, without the
blanks among them. -/
theorem isValue_eq {property : List Char} {parts : Parts α}
    (hblanks : BlanksAreTokens (componentsOf parts)) :
    isValue property parts =
      fitsValue property (significant (componentsOf parts)) := by
  have hcomments : ∀ p ∈ withoutComments parts, p.kind ≠ .comment := by
    intro p hp
    simpa using (List.mem_filter.1 hp).2
  have hstop : (fun p : Annotated α => !isDelim '!' p && !p.isToken .semicolon) =
      fun p => goesOnValue p.component := rfl
  have hvalue : ∀ p ∈ (withoutComments parts).takeWhile
      (fun p => goesOnValue p.component), p ∈ withoutComments parts :=
    fun p hp => (List.takeWhile_prefix _).subset hp
  have hrest : ∀ p ∈ (withoutComments parts).dropWhile
      (fun p => goesOnValue p.component), p ∈ withoutComments parts :=
    fun p hp => (List.dropWhile_suffix _).subset hp
  simp only [isValue, hstop, drop_length_takeWhile]
  rw [isValueFor_eq (fun p hp => hcomments p (hvalue p hp)),
    significant_takeWhile, isImportance_eq _
      (fun p hp => hcomments p (hrest p hp)), significant_dropWhile, fitsValue]
  · intro p hp
    have hhead := List.head?_dropWhile_not
      (fun p : Annotated α => goesOnValue p.component) (withoutComments parts)
    rw [hp] at hhead
    have hstops : goesOnValue p.component = false := by simpa using hhead
    refine bne_iff_ne.2 fun hkind => ?_
    have hblank : p.kind.isBlank = true := by
      rw [hkind]
      rfl
    rw [goesOnValue_of_isBlank hblank] at hstops
    cases hstops
  · intro c hc
    obtain ⟨p, hp, rfl⟩ := List.mem_map.1 hc
    exact hblanks _ (List.mem_map_of_mem (List.mem_filter.1 (hvalue p hp)).1)

/-! ## Components that are alike -/

section Alike

variable {cs cs' : List Component} {c c' : Component}

theorem forall₂_takeWhile {R : Component → Component → Prop}
    {p : Component → Bool} (hp : ∀ c c', R c c' → p c' = p c)
    (h : List.Forall₂ R cs cs') :
    List.Forall₂ R (cs.takeWhile p) (cs'.takeWhile p) := by
  induction h with
  | nil => exact .nil
  | @cons c c' cs cs' hc _ ih =>
      rw [List.takeWhile_cons, List.takeWhile_cons, hp c c' hc]
      split
      · exact .cons hc ih
      · exact .nil

theorem forall₂_dropWhile {R : Component → Component → Prop}
    {p : Component → Bool} (hp : ∀ c c', R c c' → p c' = p c)
    (h : List.Forall₂ R cs cs') :
    List.Forall₂ R (cs.dropWhile p) (cs'.dropWhile p) := by
  induction h with
  | nil => exact .nil
  | @cons c c' cs cs' hc htail ih =>
      rw [List.dropWhile_cons, List.dropWhile_cons, hp c c' hc]
      split
      · exact ih
      · exact .cons hc htail

theorem isAnyComponent_of_like (h : c.Like c') (depth : Nat) :
    isAnyComponent depth c' = isAnyComponent depth c := by
  rcases h with rfl | ⟨t, t', rfl, rfl, hkind⟩
  · rfl
  · rw [isAnyComponent, isAnyComponent, hkind]

theorem isAnyValue_of_like (h : List.Forall₂ Component.Like cs cs') :
    isAnyValue cs' = isAnyValue cs := by
  induction h with
  | nil => rfl
  | cons hc _ ih =>
      rw [isAnyValue, isAnyValue, List.all_cons, List.all_cons,
        isAnyComponent_of_like hc]
      exact congrArg _ ih

theorem isWord_of_like (h : c.Like c') (keywords : List String) :
    isWord keywords c' = isWord keywords c := by
  rcases h with rfl | ⟨⟨kind, text⟩, ⟨kind', text'⟩, rfl, rfl, hkind⟩
  · rfl
  · obtain rfl : kind' = kind := hkind
    cases kind' <;> rfl

theorem isMark_of_like (h : List.Forall₂ Component.Like cs cs') :
    isMark cs' = isMark cs := by
  match cs, cs', h with
  | [], [], _ => rfl
  | [_], [_], _ => rfl
  | [mark, word], [mark', word'], .cons hmark (.cons hword .nil) =>
      rw [isMark, isMark, isToken_of_like hmark, isWord_of_like hword]
  | _ :: _ :: _ :: _, _ :: _ :: _ :: _, _ => rfl

theorem isWide_of_like (h : List.Forall₂ Component.Like cs cs') :
    isWide cs' = isWide cs := by
  match cs, cs', h with
  | [], [], _ => rfl
  | [c], [c'], .cons hc .nil => exact isWord_of_like hc wideKeywords
  | _ :: _ :: _, _ :: _ :: _, _ => rfl

/-- A token that is no error is any value, so that it need not be a
calculation. -/
theorem fitsProperty_of_like {property : List Char}
    (h : List.Forall₂ Component.Like cs cs')
    (hclean : ∀ c ∈ cs', c.isClean = true)
    (hshown : ∀ c ∈ cs, c.isBlank = false)
    (hfits : fitsProperty property cs = true) :
    fitsProperty property cs' = true := by
  rw [fitsProperty] at hfits ⊢
  rw [isAnyValue_of_like h]
  by_cases hcustom : isCustomName property = true
  · rw [if_pos hcustom] at hfits ⊢
    exact hfits
  rw [if_neg hcustom] at hfits ⊢
  by_cases hall : Text.isOneOf property allProperties = true
  · rw [if_pos hall] at hfits ⊢
    rw [isWide_of_like h]
    exact hfits
  rw [if_neg hall, Bool.or_eq_true] at hfits ⊢
  rcases hfits with hany | htyped
  · exact Or.inl hany
  have hsignificant : significant cs = cs :=
    List.filter_eq_self.2 fun c hc => by simp [hshown c hc]
  rw [isTypedValue, hsignificant] at htyped
  match cs, cs', h with
  | [c], [c'], .cons (Or.inl heq) .nil =>
      subst heq
      refine Or.inr ?_
      rw [isTypedValue, hsignificant]
      exact htyped
  | [c], [c'], .cons (Or.inr ⟨t, t', hc, hc', hkind⟩) .nil =>
      have ht' := hclean c' (by simp)
      rw [hc', Component.isClean, hkind] at ht'
      refine Or.inl ?_
      rw [isAnyValue, hc, List.all_cons, isAnyComponent, ht']
      rfl
  | [], _, _ => cases htyped
  | _ :: _ :: _, _, _ => cases htyped

theorem goesOnValue_of_like (h : c.Like c') :
    goesOnValue c' = goesOnValue c := by
  rw [goesOnValue, goesOnValue, isToken_of_like h, isToken_of_like h]

theorem fitsValue_of_like {property : List Char}
    (h : List.Forall₂ Component.Like cs cs')
    (hclean : ∀ c ∈ cs', c.isClean = true)
    (hshown : ∀ c ∈ cs, c.isBlank = false)
    (hfits : fitsValue property cs = true) :
    fitsValue property cs' = true := by
  have hstops : ∀ c c' : Component, c.Like c' →
      goesOnValue c' = goesOnValue c := fun _ _ => goesOnValue_of_like
  rw [fitsValue, Bool.and_eq_true] at hfits ⊢
  refine ⟨fitsProperty_of_like (forall₂_takeWhile hstops h) ?_ ?_ hfits.1, ?_⟩
  · exact fun c hc => hclean c ((List.takeWhile_prefix _).subset hc)
  · exact fun c hc => hshown c ((List.takeWhile_prefix _).subset hc)
  · rw [isMark_of_like (forall₂_dropWhile hstops h)]
    exact hfits.2

theorem isClean_of_like (h : c.Like c') : c'.isClean = c.isClean := by
  rcases h with rfl | ⟨t, t', rfl, rfl, hkind⟩
  · rfl
  · rw [Component.isClean, Component.isClean, hkind]

/-- A mark is two components long, and its first one ends a value. -/
theorem exists_of_isMark {marks : List Component} (h : isMark marks = true)
    (hne : marks ≠ []) :
    ∃ mark word, marks = [mark, word] ∧ goesOnValue mark = false := by
  rcases marks with _ | ⟨mark, _ | ⟨word, _ | ⟨c, cs⟩⟩⟩
  · exact absurd rfl hne
  · cases h
  · rw [isMark, Bool.and_eq_true] at h
    refine ⟨mark, word, rfl, ?_⟩
    rw [goesOnValue, h.1]
    rfl
  · cases h

theorem fitsValue_append {property : List Char} {marks : List Component}
    (hmark : isMark marks = true) (hne : marks ≠ []) :
    fitsValue property (cs ++ marks) =
      (cs.all goesOnValue && fitsProperty property cs) := by
  obtain ⟨mark, word, rfl, hstop⟩ := exists_of_isMark hmark hne
  by_cases hall : ∀ c ∈ cs, goesOnValue c = true
  · rw [fitsValue, List.takeWhile_append_of_pos hall,
      List.dropWhile_append_of_pos hall,
      List.takeWhile_cons_of_neg (by simp [hstop]),
      List.dropWhile_cons_of_neg (by simp [hstop]), List.append_nil,
      hmark, List.all_eq_true.2 hall]
    exact Bool.and_comm _ _
  · -- What stops the value is not the mark at its end.
    have hall : cs.all goesOnValue = false :=
      Bool.eq_false_iff.2 fun h => hall (List.all_eq_true.1 h)
    have hrest : cs.dropWhile goesOnValue ≠ [] := by
      rw [Ne, List.dropWhile_eq_nil_iff, ← List.all_eq_true, hall]
      exact Bool.false_ne_true
    obtain ⟨c, rest, hrest⟩ := List.exists_cons_of_ne_nil hrest
    have hlong : isMark (c :: rest ++ [mark, word]) = false := by
      rcases rest with _ | ⟨d, _ | ⟨e, rest⟩⟩ <;> rfl
    rw [fitsValue, List.dropWhile_append, hrest, if_neg (by simp), hlong, hall]
    exact Bool.and_false _

/-- A value that is like one that fits does so too, with a mark behind both or
behind none of them. -/
theorem fitsValue_append_of_like {property : List Char}
    {marks marks' : List Component}
    (h : List.Forall₂ Component.Like cs cs')
    (hclean : ∀ c ∈ cs', c.isClean = true)
    (hshown : ∀ c ∈ cs, c.isBlank = false) (hmark : isMark marks = true)
    (hmark' : isMark marks' = true) (hboth : marks'.isEmpty = marks.isEmpty)
    (hfits : fitsValue property (cs ++ marks) = true) :
    fitsValue property (cs' ++ marks') = true := by
  by_cases hne : marks = []
  · subst hne
    obtain rfl := List.isEmpty_iff.1 hboth
    rw [List.append_nil] at hfits ⊢
    exact fitsValue_of_like h hclean hshown hfits
  · have hne' : marks' ≠ [] := by
      rintro rfl
      exact hne (List.isEmpty_iff.1 hboth.symm)
    rw [fitsValue_append hmark hne, Bool.and_eq_true, List.all_eq_true] at hfits
    rw [fitsValue_append hmark' hne', Bool.and_eq_true, List.all_eq_true]
    exact ⟨(forall_iff_of_like (fun _ _ => goesOnValue_of_like) h).2 hfits.1,
      fitsProperty_of_like h hclean hshown hfits.2⟩

end Alike

end CssVendor.Grammar

namespace CssVendor.Sheet

open Syntax Grammar

/-- All that says the same value fits the same properties. -/
theorem Renders.fits {s property : List Char} {important : Bool}
    {value value' : List Component} (h : Renders s important value)
    (h' : Renders s important value') (hs : Closed s)
    (hfits : fitsValue property (significant value) = true) :
    fitsValue property (significant value') = true := by
  obtain ⟨middle, marks, hvalue, hlike, hmark, himportant⟩ := h.shown
  obtain ⟨middle', marks', hvalue', hlike', hmark', himportant'⟩ := h'.shown
  have hclean : ∀ c ∈ significant (components s), c.isClean = true :=
    fun c hc => allClean_iff.1 hs.clean c (List.mem_filter.1 hc).1
  rw [hvalue] at hfits
  rw [hvalue']
  have hshown : ∀ c ∈ middle, c.isBlank = false := by
    intro c hc
    have hmem : c ∈ significant value := by
      rw [hvalue]
      exact List.mem_append_left _ hc
    exact isBlank_of_mem_significant c hmem
  have hmiddle := fitsValue_append_of_like (forall₂_like_symm hlike) hclean
    hshown hmark hmark' (himportant'.trans himportant.symm) hfits
  have hclean' := (forall_iff_of_like (fun _ _ => isClean_of_like) hlike').2
    hclean
  exact fitsValue_append_of_like hlike' hclean'
    isBlank_of_mem_significant hmark' hmark' rfl hmiddle

end CssVendor.Sheet
