import CssVendor.Proofs.Brackets
import CssVendor.Proofs.Importance
import CssVendor.Proofs.SingleToken
import Mathlib.Data.List.Forall2

/-!
# What a text reads as where it stands

`Reads s cs x` says that the text `s`, with `x` behind it, makes up the
components `cs` and leaves the tokens of `x` as they are. The judgment looks at
the text that really follows, so that it can be put together piece by piece
without ever splitting a token.
-/

namespace CssVendor.Syntax

/-- The text `s` makes up components, with `x` behind it. -/
def Reads (s : List Char) (cs : List Component) (x : List Char) : Prop :=
  ∃ ts, Nests ts cs ∧ tokenize (s ++ x) = ts ++ tokenize x

namespace Reads

variable {s s' x : List Char} {cs cs' : List Component}

theorem nil (x : List Char) : Reads [] [] x := ⟨[], Nests.nil, rfl⟩

theorem append (h : Reads s cs (s' ++ x)) (h' : Reads s' cs' x) :
    Reads (s ++ s') (cs ++ cs') x := by
  obtain ⟨ts, hnests, htokens⟩ := h
  obtain ⟨ts', hnests', htokens'⟩ := h'
  refine ⟨ts ++ ts', hnests.append hnests', ?_⟩
  rw [List.append_assoc, htokens, htokens', List.append_assoc]

/-- The components have the text they were read from. -/
theorem text (h : Reads s cs x) : textOf cs = s := by
  obtain ⟨ts, hnests, htokens⟩ := h
  have htext := congrArg (List.flatMap Token.text) htokens
  rw [List.flatMap_append, flatMap_text_tokenize, flatMap_text_tokenize] at htext
  rw [← hnests.nest, textOf_nest]
  exact (List.append_cancel_right htext).symm

theorem components_eq (h : Reads s cs []) : components s = cs := by
  obtain ⟨ts, hnests, htokens⟩ := h
  rw [List.append_nil] at htokens
  rw [components, htokens]
  exact (congrArg nest (List.append_nil ts)).trans hnests.nest

/-- A character that is a token of its own. -/
theorem mark {c : Char} (hc : c ∈ marks)
    (hplain : ((punctuation? c).getD (.delim c)).isPlain = true)
    (x : List Char) :
    Reads [c] [.token ⟨(punctuation? c).getD (.delim c), [c]⟩] x :=
  ⟨[_], Nests.token hplain, tokenize_mark hc x⟩

theorem blanks {w : List Char} (hw : w ≠ [])
    (hspace : ∀ c ∈ w, isSpace c = true) (hx : headIs isSpace x = false) :
    Reads w [.token ⟨.space, w⟩] x :=
  ⟨[_], Nests.token rfl, tokenize_blanks hw hspace hx⟩

theorem name {n : List Char} (hn : isPlainName n = true)
    (hx : StartsBreak x) : Reads n [.token ⟨.ident n, n⟩] x :=
  ⟨[_], Nests.token rfl, tokenize_name hn hx⟩

theorem atKeyword {n : List Char} (hn : isPlainName n = true)
    (hx : headIs extendsName x = false) :
    Reads ('@' :: n) [.token ⟨.atKeyword n, '@' :: n⟩] x :=
  ⟨[_], Nests.token rfl, tokenize_atKeyword hn hx⟩

/-- A text in curly brackets. -/
theorem curly (h : Reads s cs ('\x7d' :: x)) :
    Reads ('\x7b' :: (s ++ ['\x7d']))
      [.block ⟨.openCurly, ['\x7b']⟩ cs (some ⟨.closeCurly, ['\x7d']⟩)] x := by
  obtain ⟨ts, hnests, htokens⟩ := h
  have hblock : Nests (⟨.openCurly, ['\x7b']⟩ ::
      (ts ++ [⟨.closeCurly, ['\x7d']⟩])) _ := Nests.block rfl rfl hnests
  refine ⟨_, hblock, ?_⟩
  rw [List.cons_append, List.append_assoc, tokenize_mark (by decide),
    List.singleton_append, htokens, tokenize_mark (by decide)]
  simp [punctuation?]

/-- What a text reads as in front of a semicolon, it reads as at the end. -/
theorem at_end (h : Reads s cs [';']) : Reads s cs [] := by
  obtain ⟨ts, hnests, htokens⟩ := h
  refine ⟨ts, hnests, ?_⟩
  rw [List.append_nil, tokenize_of_append_semicolon htokens]
  exact (List.append_nil ts).symm

theorem closed (h : Closed s) (hx : StartsBreak x)
    (hblank : headIs isSpace x = false) : Reads s (components s) x :=
  ⟨tokenize s, h.nests, tokenize_append h.finished hx hblank⟩

end Reads

/-! ## Texts with blanks around them -/

/-- Two components are the same, or tokens of the same kind. -/
def Component.Like (c c' : Component) : Prop :=
  c' = c ∨ ∃ t t', c = .token t ∧ c' = .token t' ∧ t'.kind = t.kind

/-- A component is white space. -/
def Component.IsSpace (c : Component) : Prop :=
  ∃ w, c = .token ⟨.space, w⟩ ∧ ∀ d ∈ w, isSpace d = true

open Text

variable {s x : List Char}

theorem headIs_of_forall {p : Char → Bool} (h : ∀ c ∈ s, p c = false) :
    headIs p s = false := by
  cases s with
  | nil => rfl
  | cons c s => exact h c (by simp)

/-- White space ends a token, if no name goes on behind it. -/
theorem startsBreak_blanks {w : List Char} (hw : w ≠ [])
    (hspace : ∀ c ∈ w, isSpace c = true) (hx : headIs isSpace x = false)
    (hextends : headIs extendsName x = false) : StartsBreak (w ++ x) := by
  have hplain : ∀ c ∈ breaks, extendsName c = false := by decide
  have hend : headIs extendsName
      ((w ++ x).drop (escapeEndLength (w ++ x))) = false := by
    rw [escapeEndLength_append hw (.of_not_space hx),
      drop_append (escapeEndLength_le w), headIs_append_of_head hextends]
    refine headIs_of_forall fun c hc => hplain c (mem_breaks_of_isSpace ?_)
    exact hspace c (List.mem_of_mem_drop hc)
  cases w with
  | nil => exact absurd rfl hw
  | cons c w =>
      have hc := hspace c (by simp)
      refine ⟨c, w ++ x, rfl, mem_breaks_of_isSpace hc, ?_, hend⟩
      rintro rfl
      cases hc

theorem startsBreak_append_blanks {w : List Char}
    (hw : ∀ c ∈ w, isSpace c = true) (hx : StartsBreak x)
    (hblank : headIs isSpace x = false) : StartsBreak (w ++ x) := by
  by_cases hnil : w = []
  · rw [hnil]
    exact hx
  · exact startsBreak_blanks hnil hw hblank (headIs_break hx (by decide))

/-- White space is one component, if there is any. -/
theorem reads_space {w : List Char} (hw : ∀ c ∈ w, isSpace c = true)
    (hx : headIs isSpace x = false) :
    ∃ blanks, Reads w blanks x ∧ (∀ c ∈ blanks, c.IsSpace) ∧
      (w = [] → blanks = []) := by
  by_cases hnil : w = []
  · subst hnil
    exact ⟨[], Reads.nil x, by simp, fun _ => rfl⟩
  · refine ⟨_, Reads.blanks hnil hw hx, fun c hc => ?_,
      fun h => absurd h hnil⟩
    exact ⟨w, List.mem_singleton.1 hc, hw⟩

theorem forall₂_like_refl (cs : List Component) :
    List.Forall₂ Component.Like cs cs :=
  List.forall₂_same.2 fun _ _ => Or.inl rfl

/-- White space behind a closed text stands by itself, apart from what makes
the last token longer. -/
theorem reads_append_blank (h : Closed s) (htrim : Trimmed s) (hs : s ≠ [])
    {w : List Char} (hw : ∀ c ∈ w, isSpace c = true) (hx : StartsBreak x)
    (hblank : headIs isSpace x = false) :
    ∃ middle blanks, Reads (s ++ w) (middle ++ blanks) x ∧
      List.Forall₂ Component.Like (components s) middle ∧
      ∀ c ∈ blanks, c.IsSpace := by
  by_cases hnil : w = []
  · subst hnil
    refine ⟨components s, [], ?_, forall₂_like_refl _, by simp⟩
    rw [List.append_nil, List.append_nil]
    exact Reads.closed h hx hblank
  have hbreak := startsBreak_append_blanks hw hx hblank
  have hapart : Apart s (w ++ x) := fun _ => htrim.last_not_space
  rcases tokenize_append_blank h.finished hs hbreak hapart with
    hsplit | ⟨ts, t, hts, hnamed, hsplit⟩
  · obtain ⟨blanks, hblanks, hspace, -⟩ := reads_space hw hblank
    have hclosed : Reads s (components s) (w ++ x) :=
      ⟨tokenize s, h.nests, hsplit⟩
    exact ⟨components s, blanks, hclosed.append hblanks,
      forall₂_like_refl _, hspace⟩
  · have hnests := h.nests
    rw [hts] at hnests
    obtain ⟨before, hcomponents, hbefore⟩ :=
      hnests.of_append_token (isPlain_of_isNamed hnamed)
    have hend : escapeEndLength (w ++ x) = escapeEndLength w :=
      escapeEndLength_append hnil (.of_not_space hblank)
    have htake : escapeEnd (w ++ x) = escapeEnd w := by
      rw [escapeEnd, hend, List.take_append_of_le_length (escapeEndLength_le w)]
      rfl
    have hrest : ∀ c ∈ w.drop (escapeEndLength w), isSpace c = true :=
      fun c hc => hw c (List.mem_of_mem_drop hc)
    rw [hend, htake, drop_append (escapeEndLength_le w)] at hsplit
    obtain ⟨blanks, hblanks, hspace, -⟩ := reads_space hrest hblank
    have hlonger : Reads (s ++ escapeEnd w)
        (before ++ [.token ⟨t.kind, t.text ++ escapeEnd w⟩])
        (w.drop (escapeEndLength w) ++ x) := by
      have hplain := isPlain_of_isNamed hnamed
      refine ⟨ts ++ [⟨t.kind, t.text ++ escapeEnd w⟩],
        hbefore.append (Nests.token (t := ⟨t.kind, t.text ++ escapeEnd w⟩)
          hplain), ?_⟩
      rw [List.append_assoc, ← List.append_assoc (escapeEnd w),
        escapeEnd_append_drop, hsplit]
      simp
    refine ⟨before ++ [.token ⟨t.kind, t.text ++ escapeEnd w⟩], blanks, ?_,
      ?_, hspace⟩
    · have hall := hlonger.append hblanks
      rw [List.append_assoc, escapeEnd_append_drop] at hall
      exact hall
    · rw [hcomponents]
      refine List.rel_append (forall₂_like_refl before) ?_
      exact .cons (Or.inr ⟨t, _, rfl, rfl, rfl⟩) .nil

/-- A closed text with white space around it reads as what it reads as alone,
and blanks. -/
theorem reads_padded {lead trail : List Char} (h : Closed s)
    (htrim : Trimmed s) (hlead : ∀ c ∈ lead, isSpace c = true)
    (htrail : ∀ c ∈ trail, isSpace c = true) (hx : StartsBreak x)
    (hblank : headIs isSpace x = false) :
    ∃ blanks middle blanks',
      Reads (lead ++ (s ++ trail)) (blanks ++ (middle ++ blanks')) x ∧
      List.Forall₂ Component.Like (components s) middle ∧
      (∀ c ∈ blanks ++ blanks', c.IsSpace) ∧
      (lead = [] → s ≠ [] → blanks = []) := by
  by_cases hs : s = []
  · subst hs
    -- The blanks before and behind are one token then.
    have hall : ∀ c ∈ lead ++ trail, isSpace c = true := fun c hc =>
      (List.mem_append.1 hc).elim (hlead c) (htrail c)
    obtain ⟨blanks, hblanks, hspace, -⟩ := reads_space hall hblank
    refine ⟨blanks, [], [], ?_, .nil, ?_, fun _ hs => absurd rfl hs⟩
    · rw [List.append_nil, List.append_nil]
      exact hblanks
    · rw [List.append_nil]
      exact hspace
  · obtain ⟨middle, blanks', hreads, hlike, hblanks'⟩ :=
      reads_append_blank h htrim hs htrail hx hblank
    have hnext : headIs isSpace (s ++ trail ++ x) = false := by
      rw [List.append_assoc, headIs_append hs]
      exact htrim.head_not_space
    obtain ⟨blanks, hblanks, hspace, hnil⟩ := reads_space hlead hnext
    refine ⟨blanks, middle, blanks', hblanks.append hreads, hlike, ?_,
      fun hlead _ => hnil hlead⟩
    intro c hc
    exact (List.mem_append.1 hc).elim (hspace c) (hblanks' c)

end CssVendor.Syntax
