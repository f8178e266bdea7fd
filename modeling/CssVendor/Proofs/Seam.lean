import CssVendor.Proofs.TokenEnd

/-!
# Texts next to each other

The tokens of two texts, one behind the other, are those of the first and then
those of the second, if nothing is open at the end of the first and the second
begins with a character that ends a token.

Where the second begins with white space, the last token of the first may take
in as much of it as ends an escape. Such a token becomes longer by that and is
otherwise the same.
-/

namespace CssVendor.Syntax

variable {s x : List Char}

/-- The token that a semicolon makes. -/
def semicolonToken : Token := ⟨.semicolon, [';']⟩

/-- Nothing is open at the end of a text: no string, no comment, no address and
no backslash. Each of them would take in a semicolon, which otherwise is a
token of its own. -/
def Finished (s : List Char) : Prop :=
  tokenize (s ++ [';']) = tokenize s ++ [semicolonToken]

instance (s : List Char) : Decidable (Finished s) :=
  inferInstanceAs (Decidable (_ = _))

/-! ## Tokens are not empty -/

theorem nameLength_pos {c : Char} (h : startsIdent (c :: s) = true) :
    0 < nameLength (c :: s) := by
  rw [nameLength, nameLengthFrom]
  split
  · exact Nat.succ_pos _
  · next hname =>
      rw [startsIdent_cons] at h
      split at h
      · next hhyphen =>
          subst hhyphen
          exact absurd rfl hname
      · split at h
        · next hbackslash =>
            rw [hbackslash, h]
            exact Nat.succ_pos _
        · rw [isNameChar, h] at hname
          exact absurd rfl hname

theorem le_readNumber (s : List Char) (n : Nat) : n ≤ (readNumber s n).2 := by
  simp only [readNumber]
  split
  · exact Nat.le_succ n
  · split
    · exact Nat.le_add_right n _
    · exact Nat.le_refl n

theorem readPlain_pos (c : Char) (s : List Char) : 0 < (readPlain c s).2 := by
  obtain ⟨r, hr, hread⟩ := exists_begins c s
  have halone := hread [] (Or.inl rfl)
  rw [List.append_nil] at halone
  rw [halone]
  cases hr with
  | space hspace => exact Nat.succ_pos _
  | quote hquote => exact Nat.succ_pos _
  | number hpos => exact Nat.lt_of_lt_of_le hpos (le_readNumber _ _)
  | name hname =>
      simp only [List.append_nil]
      exact Nat.lt_of_lt_of_le (nameLength_pos hname) (le_behindName _ _ _)
  | hash hhash =>
      simp only [readHash]
      split <;> exact Nat.succ_pos _
  | atSign hat =>
      simp only [readAtKeyword]
      split <;> exact Nat.succ_pos _
  | sign kind hpos hn => exact hpos

theorem readKind_pos (hs : s ≠ []) : 0 < (readKind s).2 := by
  cases s with
  | nil => exact absurd rfl hs
  | cons c s =>
      rw [readKind_cons]
      split
      · exact Nat.succ_pos _
      · split
        · exact Nat.succ_pos _
        · split
          · exact Nat.succ_pos _
          · exact readPlain_pos c s

/-- The first token, and then the tokens of what it leaves. -/
theorem tokenize_eq (hs : s ≠ []) :
    tokenize s =
      ⟨(readKind s).1, s.take (readKind s).2⟩ ::
        tokenize (s.drop (readKind s).2) := by
  have hpos := readKind_pos hs
  cases s with
  | nil => exact absurd rfl hs
  | cons c s =>
      have hdrop : (c :: s).drop (readKind (c :: s)).2 =
          s.drop ((readKind (c :: s)).2 - 1) := by
        obtain ⟨n, hn⟩ := Nat.exists_eq_succ_of_ne_zero
          (Nat.pos_iff_ne_zero.1 hpos)
        rw [hn]
        rfl
      rw [hdrop, tokenize, Text.divide_cons]
      rfl

/-- Nothing of a text is lost. -/
theorem flatMap_text_tokenize (s : List Char) :
    (tokenize s).flatMap Token.text = s := by
  by_cases hs : s = []
  · rw [hs]
    rfl
  · have hpos := readKind_pos hs
    have hlength := List.length_pos_iff.2 hs
    rw [tokenize_eq hs, List.flatMap_cons,
      flatMap_text_tokenize (s.drop (readKind s).2)]
    exact List.take_append_drop _ s
termination_by s.length
decreasing_by
  rw [List.length_drop]
  omega

/-! ## Finished texts -/

theorem readKind_append_semicolon (hs : s ≠ [])
    (h : (readKind (s ++ [';'])).2 ≤ s.length) :
    readKind (s ++ [';']) = readKind s := by
  refine (extends_readKind hs startsBreak_semicolon (.of_not_space rfl)
    h).resolve_right ?_
  rintro ⟨hblank, -⟩
  cases hblank

/-- The first token of a finished text does not take in a semicolon behind it,
and what it leaves is finished. -/
theorem Finished.head (h : Finished s) (hs : s ≠ []) :
    (readKind (s ++ [';'])).2 ≤ s.length ∧ (readKind s).2 ≤ s.length ∧
      Finished (s.drop (readKind s).2) := by
  have hne : s ++ [';'] ≠ [] := by simp
  rw [Finished, tokenize_eq hne, tokenize_eq hs, List.cons_append] at h
  obtain ⟨htoken, hrest⟩ := List.cons.inj h
  have htext := congrArg (List.length ∘ Token.text) htoken
  simp only [Function.comp, List.length_take, List.length_append,
    List.length_singleton] at htext
  have hle : (readKind (s ++ [';'])).2 ≤ s.length := by omega
  have heq := readKind_append_semicolon hs hle
  rw [heq] at hrest hle
  rw [drop_append hle] at hrest
  exact ⟨by rw [heq]; exact hle, hle, hrest⟩

/-- A semicolon that is a token behind a text can be left out. -/
theorem tokenize_of_append_semicolon {s : List Char} {ts : List Token}
    (h : tokenize (s ++ [';']) = ts ++ [semicolonToken]) :
    tokenize s = ts := by
  by_cases hs : s = []
  · subst hs
    have hone : [] ++ [semicolonToken] = ts ++ [semicolonToken] := h
    exact List.append_cancel_right hone
  · have hne : s ++ [';'] ≠ [] := by simp
    have hpos := readKind_pos hs
    have hlength := List.length_pos_iff.2 hs
    have htext := congrArg (List.flatMap Token.text) h
    rw [flatMap_text_tokenize, List.flatMap_append, List.flatMap_singleton]
      at htext
    have hts : ts ≠ [] := by
      rintro rfl
      have hnil : s ++ [';'] = [] ++ [';'] := htext
      exact hs (List.append_cancel_right hnil)
    obtain ⟨t, ts, rfl⟩ := List.exists_cons_of_ne_nil hts
    rw [tokenize_eq hne, List.cons_append] at h
    obtain ⟨htoken, hrest⟩ := List.cons.inj h
    -- The semicolon is the last token, and so not a part of the first.
    have hle : (readKind (s ++ [';'])).2 ≤ s.length := by
      refine Nat.le_of_lt_succ (Nat.lt_of_not_le fun hge => ?_)
      rw [List.drop_eq_nil_of_le (by simpa using hge)] at hrest
      exact absurd hrest (by simp [tokenize])
    have heq := readKind_append_semicolon hs hle
    rw [heq] at htoken hle hrest
    rw [List.take_append_of_le_length hle] at htoken
    rw [drop_append hle] at hrest
    rw [tokenize_eq hs, htoken, tokenize_of_append_semicolon hrest]
termination_by s.length
decreasing_by
  rw [List.length_drop]
  omega

/-- A text behind a finished one begins new tokens, if no token is read longer
or as another one because of it. -/
theorem tokenize_append_of_readKind {s x : List Char} (h : Finished s)
    (hread : ∀ b, b ≠ [] → tokenize b <:+ tokenize s →
      (readKind (b ++ [';'])).2 ≤ b.length → readKind (b ++ x) = readKind b) :
    tokenize (s ++ x) = tokenize s ++ tokenize x := by
  by_cases hs : s = []
  · rw [hs]
    rfl
  · have hpos := readKind_pos hs
    have hlength := List.length_pos_iff.2 hs
    obtain ⟨hend, hle, hrest⟩ := h.head hs
    have heq := hread s hs (List.suffix_refl _) hend
    have htail : tokenize (s.drop (readKind s).2) <:+ tokenize s := by
      rw [tokenize_eq hs]
      exact List.suffix_cons ..
    rw [tokenize_eq (s := s ++ x) (by simp [hs]), tokenize_eq hs, heq,
      drop_append hle, List.take_append_of_le_length hle,
      tokenize_append_of_readKind hrest
        fun b hb hsuffix => hread b hb (hsuffix.trans htail)]
    rfl
termination_by s.length
decreasing_by
  rw [List.length_drop]
  omega

/-- A mark behind a finished text begins new tokens. -/
theorem tokenize_append (h : Finished s) (hx : StartsBreak x)
    (hblank : headIs isSpace x = false) :
    tokenize (s ++ x) = tokenize s ++ tokenize x := by
  refine tokenize_append_of_readKind h fun b hb _ hend => ?_
  refine (extends_readKind hb hx (.of_not_space hblank) hend).resolve_right ?_
  rw [hblank]
  rintro ⟨⟨⟩, -⟩

/-- White space behind a finished text that does not end in it begins new
tokens, or the last token takes in as much of it as ends an escape. -/
theorem tokenize_append_blank {s x : List Char} (h : Finished s) (hs : s ≠ [])
    (hx : StartsBreak x) (hsx : Apart s x) :
    tokenize (s ++ x) = tokenize s ++ tokenize x ∨
      ∃ ts t, tokenize s = ts ++ [t] ∧ t.kind.isNamed = true ∧
        tokenize (s ++ x) = ts ++ ⟨t.kind, t.text ++ escapeEnd x⟩ ::
          tokenize (x.drop (escapeEndLength x)) := by
  have hpos := readKind_pos hs
  have hlength := List.length_pos_iff.2 hs
  obtain ⟨hend, hle, hrest⟩ := h.head hs
  have hne : s ++ x ≠ [] := by simp [hs]
  rcases extends_readKind hs hx hsx hend with heq | ⟨-, hall, hnamed, heq⟩
  · -- White space may be taken in only if this token is the last.
    by_cases hdone : s.drop (readKind s).2 = []
    · refine Or.inl ?_
      rw [tokenize_eq hne, tokenize_eq hs, heq, drop_append hle,
        List.take_append_of_le_length hle, hdone]
      rfl
    · rw [tokenize_eq hne, tokenize_eq hs, heq, drop_append hle,
        List.take_append_of_le_length hle]
      rcases tokenize_append_blank hrest hdone hx (hsx.drop _) with
        hsplit | ⟨ts, t, hts, hnamed, hsplit⟩
      · exact Or.inl (by rw [hsplit]; rfl)
      · exact Or.inr ⟨_ :: ts, t, by rw [hts]; rfl, hnamed, by
          rw [hsplit]; rfl⟩
  · refine Or.inr ⟨[], ⟨(readKind s).1, s⟩, ?_, hnamed, ?_⟩
    · rw [tokenize_eq hs, hall, List.take_length, List.drop_length]
      rfl
    · rw [tokenize_eq hne, heq, hall, List.take_length_add_append,
        List.drop_length_add_append]
      rfl
termination_by s.length
decreasing_by
  rw [List.length_drop]
  omega

end CssVendor.Syntax
