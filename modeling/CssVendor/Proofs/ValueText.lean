import CssVendor.Grammar.AnyValue
import CssVendor.Proofs.Items
import CssVendor.Proofs.Reads

/-!
# The text of a value

Around a closed text there may be white space, and behind it the mark of an
important declaration. What all this reads as is known, up to blanks, from the
closed text and from whether there is a mark (`reads_value`). The text that a
value is cut out of is of this form, and so is the text that is printed for it.
-/

namespace CssVendor.Syntax

open Text

/-! ## Components that are alike -/

section Alike

variable {cs cs' : List Component} {c c' : Component}

theorem kind_of_like (h : c.Like c') : c'.kind = c.kind := by
  rcases h with rfl | ⟨t, t', rfl, rfl, hkind⟩
  · rfl
  · exact hkind

theorem goesOn_of_like (h : c.Like c') (semicolonEnds : Bool) :
    c'.goesOn semicolonEnds = c.goesOn semicolonEnds := by
  rcases h with rfl | ⟨t, t', rfl, rfl, hkind⟩
  · rfl
  · simp only [Component.goesOn, Component.isCurly, Component.isToken, hkind]

theorem isToken_of_like (h : c.Like c') (kind : TokenKind) :
    c'.isToken kind = c.isToken kind := by
  rcases h with rfl | ⟨t, t', rfl, rfl, hkind⟩
  · rfl
  · simp only [Component.isToken, hkind]

theorem like_symm (h : c.Like c') : c'.Like c := by
  rcases h with rfl | ⟨t, t', rfl, rfl, hkind⟩
  · exact Or.inl rfl
  · exact Or.inr ⟨t', t, rfl, rfl, hkind.symm⟩

theorem forall₂_like_symm (h : List.Forall₂ Component.Like cs cs') :
    List.Forall₂ Component.Like cs' cs :=
  (h.imp fun _ _ => like_symm).flip

/-- What is the same for components that are alike holds of all of the one if it
holds of all of the other. -/
theorem forall_iff_of_like {p : Component → Bool}
    (hp : ∀ c c' : Component, c.Like c' → p c' = p c)
    (h : List.Forall₂ Component.Like cs cs') :
    (∀ c ∈ cs', p c = true) ↔ ∀ c ∈ cs, p c = true := by
  induction h with
  | nil => rfl
  | cons hc _ ih =>
      rw [List.forall_mem_cons, List.forall_mem_cons, hp _ _ hc, ih]

end Alike

/-! ## The word -/

theorem isAlpha_of_toLower {c : Char} (h : c.toLower.isAlpha = true) :
    c.isAlpha = true := by
  unfold Char.toLower at h
  split at h
  · next hupper =>
      have hupper : c.isUpper = true := decide_eq_true hupper
      show (c.isUpper || c.isLower) = true
      rw [hupper, Bool.true_or]
  · exact h

/-- The word is made of letters, whatever their case. -/
theorem isAlpha_of_isKeyword {word : List Char}
    (h : isKeyword word "important" = true) : ∀ c ∈ word, c.isAlpha = true := by
  intro c hc
  have hlower : lower word = "important".toList := eq_of_beq h
  have hletters : ∀ d ∈ "important".toList, d.isAlpha = true := by decide
  refine isAlpha_of_toLower (hletters _ ?_)
  rw [← hlower]
  exact List.mem_map_of_mem hc

theorem ne_nil_of_isKeyword {word : List Char}
    (h : isKeyword word "important" = true) : word ≠ [] := by
  rintro rfl
  cases h

/-- The word is a name. -/
theorem isPlainName_of_isKeyword {word : List Char}
    (h : isKeyword word "important" = true) : isPlainName word = true := by
  have halpha := isAlpha_of_isKeyword h
  have hstart : ∀ c ∈ word, isNameStart c = true := by
    intro c hc
    simp [isNameStart, halpha c hc]
  rw [isPlainName, Bool.and_eq_true, List.all_eq_true]
  refine ⟨?_, fun c hc => ?_⟩
  · cases word with
    | nil => cases h
    | cons c word =>
        have hc := halpha c (by simp)
        rw [startsIdent_cons, if_neg, if_neg, hstart c (by simp)]
        · rintro rfl
          exact absurd hc (by decide)
        · rintro rfl
          exact absurd hc (by decide)
  · have hnul : c ≠ '\x00' := by
      rintro rfl
      exact absurd (halpha _ hc) (by decide)
    simp [isNameChar, hstart c hc, hnul]

/-- The mark ends a token, since no dash follows it. -/
theorem startsBreak_important {gap word : List Char}
    (hgap : ∀ c ∈ gap, isSpace c = true)
    (hword : isKeyword word "important" = true) (x : List Char) :
    StartsBreak ('!' :: (gap ++ (word ++ x))) := by
  refine ⟨'!', _, rfl, by decide, fun _ => ?_, rfl⟩
  have hne : gap ++ word ≠ [] := by simp [ne_nil_of_isKeyword hword]
  rw [← List.append_assoc, headIs_append hne]
  refine headIs_of_forall fun c hc => Bool.eq_false_iff.2 fun hdash => ?_
  rw [eq_of_beq hdash] at hc
  rcases List.mem_append.1 hc with hc | hc
  · exact absurd (hgap _ hc) (by decide)
  · exact absurd (isAlpha_of_isKeyword hword _ hc) (by decide)

end CssVendor.Syntax

namespace CssVendor.Grammar

open Syntax

/-- Whether a component is an identifier that reads as one of some keywords. -/
def isWord (keywords : List String) : Component → Bool
  | .token ⟨.ident name, _⟩ => Text.isOneOf name keywords
  | _ => false

/-- Whether components without blanks are `!important`, if there are any. -/
def isMark : List Component → Bool
  | [] => true
  | [mark, word] => mark.isToken (.delim '!') && isWord ["important"] word
  | _ => false

theorem forall₂_like_significant {cs cs' : List Component}
    (h : List.Forall₂ Component.Like cs cs') :
    List.Forall₂ Component.Like (significant cs) (significant cs') := by
  refine List.rel_filter (fun c c' hc => ?_) h
  show (!c.kind.isBlank) = true ↔ (!c'.kind.isBlank) = true
  rw [kind_of_like hc]

theorem isBlank_of_mem_significant {cs : List Component} :
    ∀ c ∈ significant cs, c.isBlank = false := by
  intro c hc
  simpa using (List.mem_filter.1 hc).2

end CssVendor.Grammar

namespace CssVendor.Sheet

open Syntax Text Grammar

/-! ## Components among blanks -/

theorem significant_append (cs ds : List Component) :
    significant (cs ++ ds) = significant cs ++ significant ds :=
  List.filter_append cs ds

theorem significant_of_space {blanks : List Component}
    (h : ∀ c ∈ blanks, c.IsSpace) : significant blanks = [] := by
  refine List.filter_eq_nil_iff.2 fun c hc => ?_
  obtain ⟨w, rfl, -⟩ := h c hc
  exact Bool.false_ne_true

theorem goesOn_of_space {blanks : List Component}
    (h : ∀ c ∈ blanks, c.IsSpace) : ∀ c ∈ blanks, c.goesOn true = true := by
  intro c hc
  obtain ⟨w, rfl, -⟩ := h c hc
  rfl

/-! ## A text with what may stand around it -/

/-- Components say a value, up to blanks, with the mark behind it if it is
important. -/
structure Renders (s : List Char) (important : Bool) (value : List Component) :
    Prop where
  shown : ∃ middle marks, significant value = middle ++ marks ∧
    List.Forall₂ Component.Like (significant (components s)) middle ∧
    isMark marks = true ∧ marks.isEmpty = !important
  flat : (∀ c ∈ value, c.goesOn true = true) ↔
    ∀ c ∈ components s, c.goesOn true = true

section Reading

variable {s x : List Char}

theorem reads_mark {gap word behind : List Char}
    (hgap : ∀ c ∈ gap, isSpace c = true)
    (hword : isKeyword word "important" = true)
    (hbehind : ∀ c ∈ behind, isSpace c = true) (hx : StartsBreak x)
    (hblank : headIs isSpace x = false) :
    ∃ cs, Reads ('!' :: (gap ++ (word ++ behind))) cs x ∧
      (∀ c ∈ cs, c.goesOn true = true) ∧
      isMark (significant cs) = true ∧ (significant cs).isEmpty = false := by
  have hplain := isPlainName_of_isKeyword hword
  obtain ⟨blanks', hreads', hspace', -⟩ := reads_space hbehind hblank
  have hname := Reads.name hplain (startsBreak_append_blanks hbehind hx hblank)
  have hnext : headIs isSpace (word ++ behind ++ x) = false := by
    rw [List.append_assoc, headIs_append (ne_nil_of_isKeyword hword)]
    refine headIs_of_forall fun c hc => Bool.eq_false_iff.2 fun hspace => ?_
    have hblank := isBlank_of_isKeyword hword c hc
    rw [isBlank_of_isSpace hspace] at hblank
    cases hblank
  obtain ⟨blanks, hreads, hspace, -⟩ := reads_space hgap hnext
  have hmark : Reads ['!'] [.token ⟨.delim '!', ['!']⟩]
      (gap ++ (word ++ behind) ++ x) := Reads.mark (by decide) rfl _
  have hall := hmark.append (hreads.append (hname.append hreads'))
  have hsignificant : significant ([.token ⟨.delim '!', ['!']⟩] ++ (blanks ++
      ([.token ⟨.ident word, word⟩] ++ blanks'))) =
        [.token ⟨.delim '!', ['!']⟩, .token ⟨.ident word, word⟩] := by
    rw [significant_append, significant_append, significant_append,
      significant_of_space hspace, significant_of_space hspace']
    rfl
  refine ⟨_, hall, fun c hc => ?_, ?_, ?_⟩
  · rcases List.mem_append.1 hc with hc | hc
    · rw [List.mem_singleton.1 hc]
      rfl
    rcases List.mem_append.1 hc with hc | hc
    · exact goesOn_of_space hspace c hc
    rcases List.mem_append.1 hc with hc | hc
    · rw [List.mem_singleton.1 hc]
      rfl
    · exact goesOn_of_space hspace' c hc
  · rw [hsignificant]
    simp [isMark, Component.isToken, isWord, isOneOf, hword]
  · rw [hsignificant]
    rfl

theorem renders_padded {blanks middle blanks' marks : List Component}
    (hlike : List.Forall₂ Component.Like (components s) middle)
    (hspace : ∀ c ∈ blanks ++ blanks', c.IsSpace)
    (hgoesOn : ∀ c ∈ marks, c.goesOn true = true)
    (hmark : isMark (significant marks) = true) :
    Renders s (!(significant marks).isEmpty)
      (blanks ++ (middle ++ blanks') ++ marks) := by
  obtain ⟨hblanks, hblanks'⟩ := List.forall_mem_append.1 hspace
  refine ⟨⟨significant middle, significant marks, ?_,
    forall₂_like_significant hlike, hmark, by simp⟩, ?_⟩
  · simp only [significant_append, significant_of_space hblanks,
      significant_of_space hblanks']
    simp
  · have hiff := forall_iff_of_like (fun _ _ hc => goesOn_of_like hc true) hlike
    rw [← hiff]
    simp only [List.forall_mem_append]
    refine ⟨fun h => h.1.2.1, fun h => ?_⟩
    exact ⟨⟨goesOn_of_space hblanks, h, goesOn_of_space hblanks'⟩, hgoesOn⟩

/-- A closed text with white space around it, and possibly the mark behind
it, says the same as the text alone. -/
theorem reads_value {lead tail : List Char} {important : Bool} (h : Closed s)
    (htrim : Trimmed s) (hlead : ∀ c ∈ lead, isSpace c = true)
    (htail : Tail isSpace important tail) (hx : StartsBreak x)
    (hblank : headIs isSpace x = false) :
    ∃ value, Reads (lead ++ (s ++ tail)) value x ∧
      Renders s important value := by
  cases htail with
  | plain htrail =>
      obtain ⟨blanks, middle, blanks', hreads, hlike, hspace, -⟩ :=
        reads_padded h htrim hlead htrail hx hblank
      have hrenders := renders_padded hlike hspace (List.forall_mem_nil _) rfl
      rw [List.append_nil] at hrenders
      exact ⟨_, hreads, hrenders⟩
  | @important trail gap word behind htrail hgap hword hbehind =>
      obtain ⟨marks, hmarks, hgoesOn, hmark, hne⟩ :=
        reads_mark hgap hword hbehind hx hblank
      have hbang : StartsBreak ('!' :: (gap ++ (word ++ behind)) ++ x) := by
        have hbreak := startsBreak_important hgap hword (behind ++ x)
        simpa using hbreak
      obtain ⟨blanks, middle, blanks', hreads, hlike, hspace, -⟩ :=
        reads_padded h htrim hlead htrail hbang rfl
      have hrenders := renders_padded hlike hspace hgoesOn hmark
      rw [hne] at hrenders
      have hall := hreads.append hmarks
      refine ⟨_, ?_, hrenders⟩
      simpa using hall

end Reading

end CssVendor.Sheet
