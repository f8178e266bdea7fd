import CssVendor.Proofs.Excerpt
import CssVendor.Proofs.Importance
import CssVendor.Proofs.ItemParts
import CssVendor.Sheet.Reader
import Mathlib.Data.List.DropRight

/-!
# What is kept of a selector

The selectors of a style rule are the segments of its prelude between the
commas, and each is kept as a text. Where a segment ends in a token, up to
blanks, this text has the tokens of the segment, so that nothing of the
selector is lost. Where it ends in a function or in another block, only the
opening token of that block is kept, and the text has a bracket open at its
end.

`Keeps` says both. The first part rests on `tokenize_between`: a segment is cut
out in front of a comma or a curly bracket, or of the blanks before one.
-/

namespace CssVendor

variable {α : Type}

/-! ## Lists without their ends -/

/-- The list without the elements at either end of which `p` holds. -/
def stripEnds (p : α → Bool) (l : List α) : List α :=
  (l.dropWhile p).rdropWhile p

variable {p : α → Bool} {l : List α}

theorem exists_append_stripEnds (p : α → Bool) (l : List α) :
    ∃ lead trail, l = lead ++ (stripEnds p l ++ trail) ∧
      (∀ a ∈ lead, p a = true) ∧ ∀ a ∈ trail, p a = true := by
  refine ⟨l.takeWhile p, (l.dropWhile p).rtakeWhile p, ?_,
    fun a ha => List.mem_takeWhile_imp ha, fun a ha => ?_⟩
  · rw [stripEnds, List.rdropWhile_append_rtakeWhile,
      List.takeWhile_append_dropWhile]
  · exact List.mem_rtakeWhile_imp ha

theorem not_of_mem_getLast?_stripEnds {a : α}
    (h : a ∈ (stripEnds p l).getLast?) : p a = false := by
  obtain ⟨hne, rfl⟩ := List.mem_getLast?_eq_getLast h
  exact Bool.eq_false_iff.2 (List.rdropWhile_last_not p (l.dropWhile p) hne)

theorem stripEnds_of_all (h : ∀ a ∈ l, p a = true) : stripEnds p l = [] := by
  rw [stripEnds, List.dropWhile_eq_nil_iff.2 h]
  exact List.rdropWhile_nil p

theorem all_of_stripEnds_eq_nil (h : stripEnds p l = []) :
    ∀ a ∈ l, p a = true := by
  obtain ⟨lead, trail, hl, hlead, htrail⟩ := exists_append_stripEnds p l
  rw [h, List.nil_append] at hl
  intro a ha
  rw [hl] at ha
  exact (List.mem_append.1 ha).elim (hlead a) (htrail a)

theorem stripEnds_append {lead trail : List α} (hlead : ∀ a ∈ lead, p a = true)
    (htrail : ∀ a ∈ trail, p a = true) :
    stripEnds p (lead ++ (l ++ trail)) = stripEnds p l := by
  have hend : ∀ m : List α, (m ++ trail).rdropWhile p = m.rdropWhile p := by
    intro m
    rw [List.rdropWhile, List.reverse_append, List.dropWhile_append_of_pos
      fun a ha => htrail a (List.mem_reverse.1 ha)]
    rfl
  rw [stripEnds, List.dropWhile_append_of_pos hlead, List.dropWhile_append,
    stripEnds]
  split
  · next hnil =>
      rw [List.isEmpty_iff.1 hnil, List.dropWhile_eq_nil_iff.2 htrail]
  · exact hend _

/-! ## Segments -/

namespace Sheet

open Syntax Text

variable {parts : Parts α} {before trail : List Component}

theorem componentsOf_dropTrailingBlanks (parts : Parts α) :
    componentsOf (dropTrailingBlanks parts) =
      (componentsOf parts).rdropWhile Component.isBlank := by
  rw [List.rdropWhile, componentsOf, componentsOf, dropTrailingBlanks,
    List.map_reverse, ← List.map_reverse (l := parts), List.dropWhile_map]
  rfl

/-- The text of a segment reaches to the end of what is no blank in it; of a
block there, only the opening token belongs to it. -/
theorem selectorText_concat {last : Component}
    (h : componentsOf parts = before ++ last :: trail)
    (hlast : last.isBlank = false) (htrail : ∀ c ∈ trail, c.isBlank = true) :
    selectorText parts = trim (textOf before ++ last.openingText) := by
  have hkept : (componentsOf parts).rdropWhile Component.isBlank =
      before ++ [last] := by
    rw [h, List.rdropWhile, List.reverse_append, List.reverse_cons,
      List.append_assoc, List.dropWhile_append_of_pos
        fun c hc => htrail c (List.mem_reverse.1 hc),
      List.singleton_append, List.dropWhile_cons_of_neg (by simp [hlast]),
      List.reverse_cons, List.reverse_reverse]
  rw [selectorText, componentsOf_dropTrailingBlanks, hkept, List.reverse_concat]
  simp only [List.reverse_reverse]

theorem selectorText_of_blanks
    (h : ∀ c ∈ componentsOf parts, c.isBlank = true) :
    selectorText parts = [] := by
  rw [selectorText, componentsOf_dropTrailingBlanks,
    List.rdropWhile_eq_nil_iff.2 h]
  rfl

theorem splitCommas_ne_nil (parts : Parts α) : splitCommas parts ≠ [] := by
  cases parts with
  | nil => simp [splitCommas]
  | cons p parts =>
      rw [splitCommas]
      split
      · simp
      · split <;> simp

/-- Parts are split where their components are. -/
theorem map_componentsOf_splitCommas (parts : Parts α) :
    (splitCommas parts).map componentsOf =
      (componentsOf parts).splitOnP (Component.isToken .comma) := by
  induction parts with
  | nil => rfl
  | cons p parts ih =>
      show _ = (p.component :: componentsOf parts).splitOnP _
      rw [List.splitOnP_cons_eq_if_modifyHead, ← ih, splitCommas,
        Annotated.isToken]
      split
      · rfl
      · split
        · next segment segments h => rw [h]; rfl
        · next h => exact absurd h (splitCommas_ne_nil parts)

/-- The first segment reaches up to a comma or to the end. -/
theorem splitCommas_head {segment : Parts α} {segments : List (Parts α)}
    (h : splitCommas parts = segment :: segments) :
    segment = parts ∨
      ∃ p, p.isToken .comma = true ∧ segment ++ [p] <+: parts := by
  induction parts generalizing segment segments with
  | nil =>
      cases h
      exact Or.inl rfl
  | cons p parts ih =>
      rw [splitCommas] at h
      split at h
      · next hcomma =>
          obtain ⟨rfl, -⟩ := List.cons.inj h
          exact Or.inr ⟨p, hcomma, ⟨parts, rfl⟩⟩
      · split at h
        · next segment' segments' hrest =>
            obtain ⟨rfl, -⟩ := List.cons.inj h
            rcases ih hrest with rfl | ⟨q, hq, hpiece⟩
            · exact Or.inl rfl
            · exact Or.inr ⟨q, hq, List.cons_prefix_cons.2 ⟨rfl, hpiece⟩⟩
        · next hnil => exact absurd hnil (splitCommas_ne_nil parts)

theorem mem_splitCommas_tail {p : Annotated α} {segment first : Parts α}
    {segments : List (Parts α)}
    (h : splitCommas (p :: parts) = first :: segments)
    (hmem : segment ∈ segments) : segment ∈ splitCommas parts := by
  rw [splitCommas] at h
  split at h
  · rw [(List.cons.inj h).2]
    exact hmem
  · split at h
    · next segment' segments' hrest =>
        rw [hrest, (List.cons.inj h).2]
        exact List.mem_cons_of_mem _ hmem
    · next hnil => exact absurd hnil (splitCommas_ne_nil parts)

/-- Behind a segment is a comma or the end. -/
theorem mem_splitCommas {segment : Parts α} (h : segment ∈ splitCommas parts) :
    segment <:+ parts ∨
      ∃ p, p.isToken .comma = true ∧ segment ++ [p] <:+: parts := by
  induction parts with
  | nil =>
      rw [List.mem_singleton.1 h]
      exact Or.inl (List.suffix_refl _)
  | cons p parts ih =>
      cases hall : splitCommas (p :: parts) with
      | nil => exact absurd hall (splitCommas_ne_nil _)
      | cons first segments =>
          rw [hall] at h
          rcases List.mem_cons.1 h with rfl | hmem
          · rcases splitCommas_head hall with rfl | ⟨q, hq, hpiece⟩
            · exact Or.inl (List.suffix_refl _)
            · exact Or.inr ⟨q, hq, hpiece.isInfix⟩
          · have hbehind := List.suffix_cons p parts
            rcases ih (mem_splitCommas_tail hall hmem) with
              hpiece | ⟨q, hq, hpiece⟩
            · exact Or.inl (hpiece.trans hbehind)
            · exact Or.inr ⟨q, hq, hpiece.trans hbehind.isInfix⟩

/-! ## Where components stand -/

theorem exists_token_of_isToken {kind : TokenKind} {c : Component}
    (h : c.isToken kind = true) : ∃ t, c = .token t ∧ t.kind = kind := by
  cases c with
  | token t => exact ⟨t, rfl, eq_of_beq h⟩
  | block opener content closer => cases h

theorem tokensOf_isInfix {cs ds : List Component} (h : cs <:+: ds) :
    tokensOf cs <:+: tokensOf ds := by
  obtain ⟨before, behind, rfl⟩ := h
  exact ⟨tokensOf before, tokensOf behind, by simp [tokensOf_append]⟩

/-- Components stand in a text, in front of a token that separates selectors or
ends them. -/
structure Placed (s : List Char) (cs : List Component) : Prop where
  formed : ∀ c ∈ cs, c.Formed
  place : ∃ t : Token, t.kind.isStop = true ∧
    tokensOf cs ++ [t] <:+: tokenize s

namespace Placed

variable {s : List Char} {cs lead core : List Component}

theorem mem (h : Placed s cs) {t : Token} (ht : t ∈ tokensOf cs) :
    t ∈ tokenize s := by
  obtain ⟨-, t', -, hplace⟩ := h
  exact hplace.subset (List.mem_append_left _ ht)

theorem back (h : Placed s (lead ++ cs)) : Placed s cs := by
  obtain ⟨hformed, t, ht, hplace⟩ := h
  refine ⟨fun c hc => hformed c (List.mem_append_right _ hc), t, ht,
    List.IsInfix.trans ?_ hplace⟩
  exact ⟨tokensOf lead, [], by simp [tokensOf_append]⟩

theorem front (h : Placed s (cs ++ trail))
    (htrail : ∀ c ∈ trail, c.isBlank = true) : Placed s cs := by
  cases trail with
  | nil => rwa [List.append_nil] at h
  | cons c trail =>
      obtain ⟨hformed, t, -, hplace⟩ := h
      obtain ⟨t', rfl, hblank⟩ :=
        (hformed c (by simp)).token_of_isBlank (htrail c (by simp))
      refine ⟨fun d hd => hformed d (List.mem_append_left _ hd), t',
        isStop_of_isBlank hblank, List.IsInfix.trans ?_ hplace⟩
      exact ⟨[], tokensOf trail ++ [t], by simp [tokensOf_append]⟩

/-- A segment of a prelude stands in front of a comma, or where the prelude
does. -/
theorem segment (h : Placed s (componentsOf parts)) {segment : Parts α}
    (hsegment : segment ∈ splitCommas parts) :
    Placed s (componentsOf segment) := by
  rcases mem_splitCommas hsegment with hpiece | ⟨p, hp, hpiece⟩
  · obtain ⟨before, rfl⟩ := hpiece
    rw [componentsOf, List.map_append] at h
    exact h.back
  · obtain ⟨hformed, t, -, hplace⟩ := h
    obtain ⟨t', hcomponent, ht'⟩ := exists_token_of_isToken hp
    have hcomponents : componentsOf (segment ++ [p]) <:+: componentsOf parts :=
      hpiece.map _
    have hconcat : componentsOf (segment ++ [p]) =
        componentsOf segment ++ [.token t'] := by
      simp [componentsOf, hcomponent]
    rw [hconcat] at hcomponents
    refine ⟨fun c hc => hformed c (hcomponents.subset ?_), t',
      by rw [ht']; rfl, ?_⟩
    · exact List.mem_append_left _ hc
    · have htokens := tokensOf_isInfix hcomponents
      rw [tokensOf_append] at htokens
      exact htokens.trans ((List.prefix_append _ [t]).isInfix.trans hplace)

theorem tokenize_textOf {t : Token} (h : Placed s (cs ++ [.token t]))
    (ht : t.IsWhole) :
    tokenize (textOf (cs ++ [.token t])) = tokensOf (cs ++ [.token t]) := by
  obtain ⟨-, t', ht', hplace⟩ := h
  rw [textOf_eq]
  refine tokenize_between hplace ht' fun last hlast => ?_
  have hlast : last = t := by
    simpa [tokensOf_append, eq_comm] using hlast
  rw [hlast]
  exact ht

end Placed

/-! ## White space before a selector -/

/-- The components without the white space they begin with. -/
def skipSpace (cs : List Component) : List Component :=
  cs.dropWhile (Component.isToken .space)

theorem skipSpace_suffix (cs : List Component) : skipSpace cs <:+ cs :=
  List.dropWhile_suffix _

variable {s : List Char} {lead core : List Component}

theorem isBlank_of_mem_textOf {cs : List Component}
    (hmem : ∀ t ∈ tokensOf cs, t ∈ tokenize s)
    (hcs : ∀ c ∈ cs, c.isToken .space = true) :
    ∀ d ∈ textOf cs, Text.isBlank d = true := by
  intro d hd
  rw [textOf_eq] at hd
  obtain ⟨t, ht, hd⟩ := List.mem_flatMap.1 hd
  obtain ⟨c, hc, htc⟩ := mem_tokensOf.1 ht
  obtain ⟨t', rfl, hkind⟩ := exists_token_of_isToken (hcs c hc)
  obtain rfl := List.mem_singleton.1 htc
  exact isBlank_of_isSpace ((kind_eq_space_iff (hmem t ht)).1 hkind d hd)

theorem kind_eq_comment {t : Token} (h : t.kind.isBlank = true)
    (hspace : (Component.token t).isToken .space = false) :
    t.kind = .comment := by
  unfold TokenKind.isBlank at h
  split at h
  · next hkind =>
      rw [Component.isToken, hkind] at hspace
      cases hspace
  · next hkind => exact hkind
  · cases h

/-- Blanks begin with a comment, once the white space is taken off. -/
theorem head_textOf_skipSpace (h : Placed s (lead ++ core))
    (hlead : ∀ c ∈ lead, c.isBlank = true) :
    ∀ d ∈ (textOf (skipSpace lead)).head?, Text.isBlank d = false := by
  intro d hd
  cases hrest : skipSpace lead with
  | nil =>
      rw [hrest] at hd
      cases hd
  | cons c rest =>
      have hspace := List.head?_dropWhile_not (Component.isToken .space) lead
      rw [show lead.dropWhile _ = _ from hrest] at hspace
      have hmem : c ∈ lead :=
        (skipSpace_suffix lead).subset (hrest ▸ List.mem_cons_self ..)
      obtain ⟨t, rfl, ht⟩ := (h.formed c (List.mem_append_left _ hmem))
        |>.token_of_isBlank (hlead c hmem)
      have htoken : t ∈ tokensOf (lead ++ core) :=
        mem_tokensOf.2 ⟨_, List.mem_append_left _ hmem, by simp⟩
      obtain ⟨d', b, htext, hslash⟩ := suits_of_mem_tokenize (h.mem htoken)
      rw [kind_eq_comment ht hspace] at hslash
      rw [hrest, textOf_cons, Component.text_token, htext] at hd
      rw [← Option.some.inj hd, show d' = '/' from hslash]
      decide

/-- What is trimmed off a text with blanks before it is white space up to the
first comment. -/
theorem trim_textOf (h : Placed s (lead ++ core))
    (hlead : ∀ c ∈ lead, c.isBlank = true) (hcore : Trimmed (textOf core))
    (hne : textOf core ≠ []) :
    trim (textOf (lead ++ core)) = textOf (skipSpace lead ++ core) := by
  have hspaces : ∀ d ∈ textOf (lead.takeWhile (Component.isToken .space)),
      Text.isBlank d = true := by
    refine isBlank_of_mem_textOf (s := s) (fun t ht => ?_)
      fun c hc => List.mem_takeWhile_imp hc
    obtain ⟨c, hc, ht⟩ := mem_tokensOf.1 ht
    have hmem := List.mem_append_left core ((List.takeWhile_prefix _).subset hc)
    exact h.mem (mem_tokensOf.2 ⟨c, hmem, ht⟩)
  have htrimmed : Trimmed (textOf (skipSpace lead ++ core)) := by
    rw [textOf_append]
    refine Trimmed.of_ends (fun d hd => ?_) fun d hd => ?_
    · rw [List.head?_append, Option.mem_def, Option.or_eq_some_iff] at hd
      rcases hd with hd | ⟨-, hd⟩
      · exact head_textOf_skipSpace h hlead d hd
      · exact hcore.head d hd
    · rw [List.getLast?_append_of_ne_nil _ hne] at hd
      exact hcore.last d hd
  have hsplit : textOf (lead ++ core) =
      textOf (lead.takeWhile (Component.isToken .space)) ++
        (textOf (skipSpace lead ++ core) ++ []) := by
    rw [List.append_nil, ← textOf_append, ← List.append_assoc, skipSpace,
      List.takeWhile_append_dropWhile]
  rw [hsplit]
  exact trim_append htrimmed hspaces (List.forall_mem_nil _)

/-- The text of a segment that ends in a token has the tokens of the segment,
without the white space before them and the blanks behind. -/
theorem tokenize_selectorText {t : Token} {init : List Component}
    (h : Placed s (componentsOf parts))
    (hparts : componentsOf parts = lead ++ (init ++ [.token t] ++ trail))
    (hlead : ∀ c ∈ lead, c.isBlank = true)
    (htrail : ∀ c ∈ trail, c.isBlank = true) (ht : t.IsWhole)
    (htrimmed : Trimmed (textOf (init ++ [.token t]))) :
    tokenize (selectorText parts) =
      tokensOf (skipSpace lead ++ (init ++ [.token t])) := by
  rw [hparts, ← List.append_assoc] at h
  have hcore : Placed s (lead ++ (init ++ [.token t])) := h.front htrail
  have hmem : t ∈ tokenize s := hcore.mem (by simp [tokensOf_append])
  have hne : textOf (init ++ [.token t]) ≠ [] := by
    rw [textOf_append]
    simp [text_ne_nil_of_mem hmem]
  have hshown : (Component.token t).isBlank = false := ht.shown
  have htext : selectorText parts =
      textOf (skipSpace lead ++ init ++ [.token t]) := by
    have hconcat : componentsOf parts =
        (lead ++ init) ++ .token t :: trail := by
      rw [hparts]
      simp
    rw [selectorText_concat hconcat hshown htrail, List.append_assoc,
      ← trim_textOf hcore hlead htrimmed hne]
    simp [textOf_append, Component.openingText]
  have hkept : Placed s (skipSpace lead ++ init ++ [.token t]) := by
    obtain ⟨spaces, hspaces⟩ := skipSpace_suffix lead
    have hall : lead ++ (init ++ [.token t]) =
        spaces ++ (skipSpace lead ++ init ++ [.token t]) := by
      rw [List.append_assoc, ← List.append_assoc spaces, hspaces]
    rw [hall] at hcore
    exact hcore.back
  rw [htext, hkept.tokenize_textOf ht, List.append_assoc]

/-! ## What is kept -/

/-- Whether a component is the same at the end of a text as before a separator:
a token that is no string broken off by a line end and no backslash. -/
def endsAlone : Component → Bool
  | .token t => t.kind != .badString && t.text != ['\\']
  | .block _ _ _ => false

/-- A segment that can be read alone. It ends in a token, apart from blanks, and
what it has at its ends is white space to CSS if it is to Unicode. -/
structure StandsAlone (segment : List Component) : Prop where
  ending : ∀ c ∈ (stripEnds Component.isBlank segment).getLast?,
    endsAlone c = true
  trimmed : Trimmed (textOf (stripEnds Component.isBlank segment))

instance (segment : List Component) : Decidable (StandsAlone segment) :=
  decidable_of_iff (_ ∧ _)
    ⟨fun h => ⟨h.1, h.2⟩, fun h => ⟨h.ending, h.trimmed⟩⟩

example : StandsAlone (components " b[x] > c /* */ ".toList) := by
  decide +kernel

example : ¬ StandsAlone (components "b:not(.c)".toList) := by decide +kernel

/-- A text has the tokens of a segment, up to the blanks at either end. -/
def HasTokensOf (segment : List Component) (text : List Char) : Prop :=
  stripEnds (fun t => t.kind.isBlank) (tokenize text) =
    stripEnds (fun t => t.kind.isBlank) (tokensOf segment)

instance (segment : List Component) (text : List Char) :
    Decidable (HasTokensOf segment text) :=
  inferInstanceAs (Decidable (_ = _))

/-- What is kept of a segment: nothing of a blank one; the tokens of one that
can be read alone; and of one that ends in a block what is before the content
of that block. -/
structure Keeps (segment : List Component) (selector : List Char) : Prop where
  blank : (∀ c ∈ segment, c.isBlank = true) → selector = []
  whole : StandsAlone segment → HasTokensOf segment selector
  cut : ∀ before opener content closer trail,
    segment = before ++ .block opener content closer :: trail →
      (∀ c ∈ trail, c.isBlank = true) →
        selector = trim (textOf before ++ opener.text)

theorem isBlank_of_mem_tokensOf {cs : List Component}
    (hformed : ∀ c ∈ cs, c.Formed) (hblank : ∀ c ∈ cs, c.isBlank = true) :
    ∀ t ∈ tokensOf cs, t.kind.isBlank = true := by
  intro t ht
  obtain ⟨c, hc, ht⟩ := mem_tokensOf.1 ht
  obtain ⟨t', rfl, ht'⟩ := (hformed c hc).token_of_isBlank (hblank c hc)
  rw [List.mem_singleton.1 ht]
  exact ht'

theorem stripEnds_tokensOf (core : List Component)
    (hlead : ∀ c ∈ lead, c.Formed ∧ c.isBlank = true)
    (htrail : ∀ c ∈ trail, c.Formed ∧ c.isBlank = true) :
    stripEnds (fun t => t.kind.isBlank) (tokensOf (lead ++ (core ++ trail))) =
      stripEnds (fun t => t.kind.isBlank) (tokensOf core) := by
  rw [tokensOf_append, tokensOf_append]
  exact stripEnds_append
    (isBlank_of_mem_tokensOf (fun c hc => (hlead c hc).1)
      fun c hc => (hlead c hc).2)
    (isBlank_of_mem_tokensOf (fun c hc => (htrail c hc).1)
      fun c hc => (htrail c hc).2)

/-- The text of a segment that is not blank is not empty. -/
theorem HasTokensOf.ne_nil {segment : List Component} {text : List Char}
    (h : HasTokensOf segment text) {c : Component} (hc : c ∈ segment)
    (hshown : c.isBlank = false) : text ≠ [] := by
  rintro rfl
  have hblank := all_of_stripEnds_eq_nil h.symm
  cases c with
  | token t =>
      have ht := hblank t (mem_tokensOf.2 ⟨_, hc, List.mem_singleton_self t⟩)
      exact Bool.false_ne_true (hshown.symm.trans ht)
  | block opener content closer =>
      have ht := hblank opener (mem_tokensOf.2 ⟨_, hc, List.mem_cons_self ..⟩)
      exact Bool.false_ne_true (hshown.symm.trans ht)

theorem Placed.isWhole {t : Token} (h : Placed s cs)
    (hmem : .token t ∈ cs) (hshown : t.kind.isBlank = false)
    (hends : endsAlone (.token t) = true) : t.IsWhole := by
  have hplain : t.kind.closer? = none := by
    cases h.formed (.token t) hmem with
    | token h => exact h
  simp only [endsAlone, Bool.and_eq_true, bne_iff_ne] at hends
  exact ⟨hshown, hplain, hends.1, hends.2⟩

theorem Placed.hasTokensOf (h : Placed s (componentsOf parts))
    (halone : StandsAlone (componentsOf parts)) :
    HasTokensOf (componentsOf parts) (selectorText parts) := by
  obtain ⟨hending, htrimmed⟩ := halone
  obtain ⟨lead, trail, hparts, hlead, htrail⟩ :=
    exists_append_stripEnds Component.isBlank (componentsOf parts)
  have hshown : ∀ c ∈ (stripEnds Component.isBlank
      (componentsOf parts)).getLast?, c.isBlank = false :=
    fun c hc => not_of_mem_getLast?_stripEnds hc
  generalize stripEnds Component.isBlank (componentsOf parts) = core
    at hending htrimmed hparts hshown
  have hformed := h.formed
  -- What is no blank ends in a token, or there is nothing but blanks.
  rcases List.eq_nil_or_concat core with rfl | ⟨init, last, rfl⟩
  · have hall : ∀ c ∈ componentsOf parts, c.isBlank = true := by
      intro c hc
      rw [hparts, List.nil_append] at hc
      exact (List.mem_append.1 hc).elim (hlead c) (htrail c)
    rw [HasTokensOf, selectorText_of_blanks hall,
      stripEnds_of_all (isBlank_of_mem_tokensOf hformed hall)]
    rfl
  · rw [List.concat_eq_append] at hending htrimmed hparts hshown
    have hends := hending last (by simp)
    cases last with
    | block opener content closer => cases hends
    | token t =>
        have hblank : (Component.token t).isBlank = false :=
          hshown _ (by simp)
        have ht : t.IsWhole := h.isWhole (by simp [hparts]) hblank hends
        have hlead' : ∀ c ∈ lead, c.Formed ∧ c.isBlank = true :=
          fun c hc => ⟨hformed c (by simp [hparts, hc]), hlead c hc⟩
        have htrail' : ∀ c ∈ trail, c.Formed ∧ c.isBlank = true :=
          fun c hc => ⟨hformed c (by simp [hparts, hc]), htrail c hc⟩
        have hskipped := stripEnds_tokensOf (init ++ [.token t])
          (fun c hc => hlead' c ((skipSpace_suffix lead).subset hc))
          (List.forall_mem_nil _)
        rw [List.append_nil] at hskipped
        rw [HasTokensOf,
          tokenize_selectorText h hparts hlead htrail ht htrimmed,
          hskipped, hparts, stripEnds_tokensOf _ hlead' htrail']

/-- Every segment of a prelude is kept as its text. -/
theorem Placed.keeps (h : Placed s (componentsOf parts)) :
    Keeps (componentsOf parts) (selectorText parts) where
  blank := selectorText_of_blanks
  whole := h.hasTokensOf
  cut := by
    intro before opener content closer trail hparts htrail
    have hblock := h.formed (.block opener content closer) (by simp [hparts])
    refine selectorText_concat hparts ?_ htrail
    refine Bool.eq_false_iff.2 fun hblank => ?_
    obtain ⟨t, ht, -⟩ := hblock.token_of_isBlank hblank
    cases ht

end Sheet

end CssVendor
