import CssVendor.Proofs.Seam

/-!
# Tokens that are known beforehand

Punctuation is a token of its own wherever it stands. Blanks are one token as
far as they reach, and so is a name written without escapes, alone or behind
its sign, if what follows ends it.
-/

namespace CssVendor.Syntax

variable {s x : List Char}

theorem tokenize_cons {c : Char} {kind : TokenKind}
    (h : readKind (c :: s) = (kind, 1)) :
    tokenize (c :: s) = ⟨kind, [c]⟩ :: tokenize s := by
  rw [tokenize_eq (by simp), h]
  rfl

/-- A text in which no number begins. -/
theorem numberLength_eq_zero
    (h : headIs (fun c => c.isDigit || c == '.') (s.drop (signLength s)) =
      false) : numberLength s = 0 := by
  have hdigits : digitsLength (s.drop (signLength s)) = 0 := by
    cases ht : s.drop (signLength s) with
    | nil => rfl
    | cons c t =>
        rw [ht, headIs, Bool.or_eq_false_iff] at h
        rw [digitsLength, List.takeWhile_cons, if_neg (by simp [h.1])]
        rfl
  have hfraction : fractionLength (s.drop (signLength s)) = 0 := by
    cases ht : s.drop (signLength s) with
    | nil => rfl
    | cons c t =>
        rw [ht, headIs, Bool.or_eq_false_iff] at h
        rw [fractionLength]
        intro t' heq
        rw [(List.cons.inj heq).1] at h
        cases h.2
  simp [numberLength, hdigits, hfraction]

/-! ## Punctuation -/

/-- The characters that make a token each. -/
def marks : List Char :=
  [':', ';', ',', '(', ')', '[', ']', '\x7b', '\x7d', '!']

theorem readKind_mark {c : Char} (hc : c ∈ marks) (s : List Char) :
    readKind (c :: s) =
      ((punctuation? c).getD (.delim c), 1) := by
  have hplain : ∀ c ∈ marks, c ≠ '/' ∧ c ≠ '<' ∧ c ≠ '-' ∧ c ≠ '\\' ∧
      isSpace c = false ∧ (c == '"' || c == '\'') = false ∧
      isNameStart c = false ∧ (c == '#') = false ∧ (c == '@') = false ∧
      isMatcher c = false ∧ c.isDigit = false ∧ (c == '.') = false ∧
      (c == '+' || c == '-') = false := by
    decide
  obtain ⟨hslash, hless, hhyphen, hbackslash, hspace, hquote, hname, hhash,
    hat, hmatcher, hdigit, hpoint, hsign⟩ := hplain c hc
  have hsign : signLength (c :: s) = 0 := by
    rw [signLength, headIs, hsign]
    rfl
  have hnumber : numberLength (c :: s) = 0 := by
    refine numberLength_eq_zero ?_
    rw [hsign, List.drop_zero, headIs, hdigit, hpoint]
    rfl
  have hident : startsIdent (c :: s) = false := by
    rw [startsIdent_cons, if_neg hhyphen, if_neg hbackslash, hname]
  simp only [readKind_cons, hslash, hless, hhyphen, false_and, if_false,
    readPlain, hspace, hquote, hnumber, hident, hhash, hat, hmatcher]
  cases hkind : punctuation? c <;> rfl

theorem tokenize_mark {c : Char} (hc : c ∈ marks) (s : List Char) :
    tokenize (c :: s) =
      ⟨(punctuation? c).getD (.delim c), [c]⟩ :: tokenize s :=
  tokenize_cons (readKind_mark hc s)

/-! ## Blanks -/

theorem takeWhile_append_of_all {p : Char → Bool} {w : List Char}
    (hw : ∀ c ∈ w, p c = true) (hs : headIs p s = false) :
    (w ++ s).takeWhile p = w := by
  rw [List.takeWhile_append_of_pos hw]
  cases s with
  | nil => rw [List.takeWhile_nil, List.append_nil]
  | cons c s =>
      have hc : p c = false := hs
      rw [List.takeWhile_cons, hc]
      exact List.append_nil w

theorem readKind_blank {c : Char} (hc : isSpace c = true) (s : List Char) :
    readKind (c :: s) = (.space, (s.takeWhile isSpace).length + 1) := by
  have hne : c ≠ '/' ∧ c ≠ '<' ∧ c ≠ '-' := by
    refine ⟨?_, ?_, ?_⟩
    · rintro rfl
      cases hc
    · rintro rfl
      cases hc
    · rintro rfl
      cases hc
  simp only [readKind_cons, hne.1, hne.2.1, hne.2.2, false_and, if_false,
    readPlain, hc, if_true]

theorem tokenize_blanks {w : List Char} (hw : w ≠ [])
    (hspace : ∀ c ∈ w, isSpace c = true) (hs : headIs isSpace s = false) :
    tokenize (w ++ s) = ⟨.space, w⟩ :: tokenize s := by
  cases w with
  | nil => exact absurd rfl hw
  | cons c w =>
      have hkind : readKind (c :: (w ++ s)) = (.space, w.length + 1) := by
        rw [readKind_blank (hspace c (by simp)),
          takeWhile_append_of_all (fun d hd => hspace d (by simp [hd])) hs]
      rw [List.cons_append, tokenize_eq (by simp), hkind]
      simp

/-! ## Names -/

/-- Whether a text is a name written without escapes and without the NUL
character. -/
def isPlainName (n : List Char) : Bool :=
  startsIdent n && n.all fun c => isNameChar c && c != '\x00'

theorem isNameChar_of_isPlainName {n : List Char} (h : isPlainName n = true) :
    ∀ c ∈ n, isNameChar c = true ∧ c ≠ '\x00' := by
  intro c hc
  rw [isPlainName, Bool.and_eq_true, List.all_eq_true] at h
  have hchar := h.2 c hc
  rw [Bool.and_eq_true] at hchar
  exact ⟨hchar.1, by simpa using hchar.2⟩

/-- What no character of a name is. -/
theorem ne_of_isNameChar {c d : Char} (hc : isNameChar c = true)
    (hd : isNameChar d = false) : c ≠ d := by
  rintro rfl
  rw [hc] at hd
  cases hd

theorem nameLength_plain {n : List Char} (h : ∀ c ∈ n, isNameChar c = true)
    (hx : headIs extendsName x = false) :
    nameLength (n ++ x) = n.length := by
  rw [nameLength]
  induction n with
  | nil => exact nameLengthFrom_zero hx
  | cons c n ih =>
      rw [List.cons_append, nameLengthFrom, if_pos (h c (by simp)),
        ih fun d hd => h d (by simp [hd])]
      rfl

theorem unescape_plain {n : List Char}
    (h : ∀ c ∈ n, isNameChar c = true ∧ c ≠ '\x00') : unescape n = n := by
  rw [unescape]
  induction n with
  | nil => rfl
  | cons c n ih =>
      obtain ⟨hc, hnul⟩ := h c (by simp)
      have hbackslash := ne_of_isNameChar (d := '\\') hc (by decide)
      rw [unescapeFrom, if_neg (by simpa using hbackslash), plainValue,
        if_neg (by simpa using hnul), ih fun d hd => h d (by simp [hd])]

theorem not_isDigit_of_isNameStart {c : Char} (h : isNameStart c = true) :
    (c.isDigit || c == '.') = false := by
  have hpoint : c ≠ '.' := by
    rintro rfl
    exact absurd h (by decide)
  refine Bool.or_eq_false_iff.2 ⟨?_, by simpa using hpoint⟩
  have hnul : '\x00'.val.toNat = 0 := rfl
  have hline : '_'.val.toNat = 95 := rfl
  have halpha : c.isAlpha = (decide (c.val ≥ 'A'.val ∧ c.val ≤ 'Z'.val) ||
      (c.val ≥ 'a'.val && c.val ≤ 'z'.val)) := rfl
  simp only [isNameStart, halpha, Bool.or_eq_true, Bool.and_eq_true,
    decide_eq_true_eq, beq_iff_eq, Char.ext_iff, ← UInt32.toNat_inj,
    UInt32.le_iff_toNat_le, Char.toNat, hnul, hline, ge_iff_le] at h
  simp only [Char.isDigit, Bool.and_eq_false_iff, decide_eq_false_iff_not,
    UInt32.le_iff_toNat_le, ge_iff_le]
  simp at h ⊢
  omega

/-- No number begins where a name does. -/
theorem numberLength_of_startsIdent (h : startsIdent s = true) :
    numberLength s = 0 := by
  cases s with
  | nil => rfl
  | cons c s =>
      refine numberLength_eq_zero ?_
      rw [startsIdent_cons] at h
      split at h
      · next hhyphen =>
          subst hhyphen
          show headIs _ s = false
          cases s with
          | nil => rfl
          | cons d s =>
              rw [headIs, Bool.or_eq_true, Bool.or_eq_true] at h
              rcases h with (hd | hd) | hd
              · rw [headIs, eq_of_beq hd]
                rfl
              · exact not_isDigit_of_isNameStart hd
              · rw [headIs, eq_of_beq hd]
                rfl
      · split at h
        · next hbackslash =>
            subst hbackslash
            rfl
        · next hhyphen hbackslash =>
            have hplus := ne_of_isNameChar (c := c) (d := '+')
              (by rw [isNameChar, h]; rfl) (by decide)
            have hsign : signLength (c :: s) = 0 := by
              simp [signLength, headIs, hplus, hhyphen]
            rw [hsign, List.drop_zero]
            exact not_isDigit_of_isNameStart h

theorem startsIdent_of_isPlainName {n : List Char} (h : isPlainName n = true) :
    startsIdent n = true := by
  rw [isPlainName, Bool.and_eq_true] at h
  exact h.1

theorem startsIdent_append_of_isPlainName {n : List Char}
    (hn : isPlainName n = true) : startsIdent (n ++ x) = true := by
  have hident := startsIdent_of_isPlainName hn
  have hchars := isNameChar_of_isPlainName hn
  cases n with
  | nil => cases hident
  | cons c n =>
      have hbackslash := ne_of_isNameChar (d := '\\') (hchars c (by simp)).1
        (by decide)
      rw [startsIdent_cons] at hident
      rw [List.cons_append, startsIdent_cons]
      split
      · next hhyphen =>
          rw [if_pos hhyphen] at hident
          rw [headIs_append]
          · exact hident
          · rintro rfl
            cases hident
      · next hhyphen =>
          rw [if_neg hhyphen, if_neg hbackslash] at hident
          exact hident

/-- No name begins with the closing of a comment in a page, even if the sign
that ends it stands right behind. -/
theorem not_isPrefix_closing {c : Char} {n : List Char}
    (hn : isPlainName (c :: n) = true) (hx : headIs (· == '>') x = false) :
    ¬ (c = '-' ∧ ['-', '>'] <+: n ++ x) := by
  rintro ⟨rfl, hclosing⟩
  have hgreater : '>' ∉ n := fun h => by
    have hchar := (isNameChar_of_isPlainName hn '>' (by simp [h])).1
    exact absurd hchar (by decide)
  cases n with
  | nil => cases hn
  | cons d n =>
      obtain ⟨-, hrest⟩ := List.cons_prefix_cons.1 hclosing
      cases n with
      | nil =>
          obtain ⟨t, rfl⟩ := hrest
          cases hx
      | cons e n =>
          have he := (List.cons_prefix_cons.1 hrest).1
          exact hgreater (by simp [← he])

/-- A name is a token as far as it reaches. -/
theorem readKind_name {n : List Char} (hn : isPlainName n = true)
    (hextends : headIs extendsName x = false)
    (hgreater : headIs (· == '>') x = false) :
    readKind (n ++ x) = (.ident n, n.length) := by
  have hchars := isNameChar_of_isPlainName hn
  have hlength := nameLength_plain (fun c hc => (hchars c hc).1) hextends
  have hstarts : startsIdent (n ++ x) = true :=
    startsIdent_append_of_isPlainName hn
  have hnumber := numberLength_of_startsIdent hstarts
  cases n with
  | nil => cases hn
  | cons c n =>
      have hc := (hchars c (by simp)).1
      have hplain : ∀ d ∈ ['/', '<', ' ', '\t', '\n', '\r', '\x0c', '"', '\''],
          c ≠ d := by
        intro d hd
        refine ne_of_isNameChar hc ?_
        revert d
        decide
      have hspace : isSpace c = false := by
        simp [isSpace, isNewline, hplain]
      have hquote : (c == '"' || c == '\'') = false := by
        simp [hplain]
      rw [List.cons_append] at hstarts hnumber
      rw [List.cons_append, readKind_cons, if_neg (by simp [hplain]),
        if_neg (by simp [hplain]), if_neg (not_isPrefix_closing hn hgreater)]
      simp only [readPlain, hspace, hquote, hnumber, hstarts]
      rw [← List.cons_append, readIdentLike_eq, hlength, List.take_left,
        List.drop_left, unescape_plain hchars]
      exact behindName_ident (headIs_paren hextends)

theorem tokenize_append_name {n : List Char} (hn : isPlainName n = true)
    (hextends : headIs extendsName x = false)
    (hgreater : headIs (· == '>') x = false) :
    tokenize (n ++ x) = ⟨.ident n, n⟩ :: tokenize x := by
  have hne : n ≠ [] := by
    rintro rfl
    cases hn
  rw [tokenize_eq (by simp [hne]), readKind_name hn hextends hgreater]
  simp

theorem tokenize_name {n : List Char} (hn : isPlainName n = true)
    (hx : StartsBreak x) :
    tokenize (n ++ x) = ⟨.ident n, n⟩ :: tokenize x :=
  tokenize_append_name hn (headIs_break hx (by decide))
    (headIs_break hx (by decide))

theorem tokenize_name_alone {n : List Char} (hn : isPlainName n = true) :
    tokenize n = [⟨.ident n, n⟩] := by
  have h := tokenize_append_name (x := []) hn rfl rfl
  rwa [List.append_nil] at h

theorem tokenize_atKeyword {n : List Char} (hn : isPlainName n = true)
    (hx : headIs extendsName x = false) :
    tokenize ('@' :: (n ++ x)) = ⟨.atKeyword n, '@' :: n⟩ :: tokenize x := by
  have hchars := isNameChar_of_isPlainName hn
  have hlength := nameLength_plain (fun c hc => (hchars c hc).1) hx
  have hnumber : numberLength ('@' :: (n ++ x)) = 0 := numberLength_eq_zero rfl
  have hident : startsIdent ('@' :: (n ++ x)) = false := by
    rw [startsIdent_cons]
    rfl
  have hkind : readKind ('@' :: (n ++ x)) = (.atKeyword n, n.length + 1) := by
    rw [readKind_cons, if_neg (by simp), if_neg (by simp), if_neg (by simp),
      readPlain, hnumber, hident]
    show readAtKeyword (n ++ x) = _
    rw [readAtKeyword, if_pos (startsIdent_append_of_isPlainName hn), hlength]
    simp only [List.take_left, unescape_plain hchars]
  rw [tokenize_eq (by simp), hkind]
  simp

end CssVendor.Syntax
