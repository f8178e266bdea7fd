import CssVendor.Proofs.TokenHead

/-!
# Texts cut out between two tokens

A text is cut out of a longer one at the beginning of a token and behind the
end of another. Read alone, it is made of the tokens that it was made of in its
place, as long as what followed could not have gone on with a name or a number
(`StartsStop`). This is the counterpart of `tokenize_append`, for which nothing
must be open at the end of the text; here that nothing was open is known from
where the token ended.

There are three exceptions, and all of them show in the last token that is not
blank. A backslash before a line end is a sign of its own, but at the end of a
text it begins an escape. A string that a line end broke off is a good one if
the text ends there. And `url(` with blanks behind it is a function if a quote
comes next, but at the end of a text it is an address.
-/

namespace CssVendor.Syntax

variable {s x : List Char}

/-! ## Names and escapes -/

theorem newlineLength_cut (h : newlineLength (s ++ x) ≤ s.length) :
    newlineLength (s ++ x) = newlineLength s := by
  cases s with
  | nil => exact Nat.le_zero.1 h
  | cons c s =>
      rw [List.cons_append, newlineLength_cons] at h ⊢
      rw [newlineLength_cons]
      by_cases hs : s = []
      · subst hs
        have hpair : ¬(c = '\r' ∧ headIs (· == '\n') ([] ++ x) = true) := by
          intro hpair
          rw [if_pos hpair] at h
          exact Nat.not_succ_le_self 1 h
        have halone : ¬(c = '\r' ∧ headIs (· == '\n') [] = true) := by
          rintro ⟨-, ⟨⟩⟩
        rw [if_neg hpair, if_neg halone]
      · rw [headIs_append hs]

theorem escapeEndLength_cut (h : escapeEndLength (s ++ x) ≤ s.length) :
    escapeEndLength (s ++ x) = escapeEndLength s := by
  by_cases hs : s = []
  · subst hs
    exact Nat.le_zero.1 h
  · rw [escapeEndLength, headIs_append hs, headIs_append hs] at h ⊢
    rw [escapeEndLength]
    split
    · next hnewline =>
        rw [if_pos hnewline] at h
        exact newlineLength_cut h
    · rfl

theorem escapeLength_cut (hx : StartsStop x)
    (h : escapeLength (s ++ x) ≤ s.length) :
    escapeLength (s ++ x) = escapeLength s := by
  have hle := escapeDigits_length_le s
  simp only [escapeLength, escapeDigits_append hx, drop_append hle] at h ⊢
  split
  · next hdigits =>
      rw [if_pos hdigits, List.length_append] at h
      rw [List.length_append]
      omega
  · next hdigits =>
      rw [if_neg hdigits] at h
      rw [escapeEndLength_cut]
      rw [List.length_drop]
      omega

theorem le_nameLengthFrom {pending : Nat} (h : pending ≤ s.length) :
    pending ≤ nameLengthFrom pending s := by
  have hfrom := nameLengthFrom_length (s.take pending) (s.drop pending)
  rw [List.take_append_drop, List.length_take_of_le h] at hfrom
  omega

/-- At the last character, only for a backslash does it matter what
follows. -/
theorem nameLengthFrom_cut_last {c : Char} (hname : ¬isNameChar c = true)
    (h : nameLengthFrom 0 (c :: x) ≤ 1) :
    nameLengthFrom 0 (c :: x) = nameLengthFrom 0 [c] ∨
      [c].drop (nameLengthFrom 0 (c :: x)) = ['\\'] := by
  rw [nameLengthFrom, if_neg hname] at h ⊢
  rw [nameLengthFrom, if_neg hname]
  by_cases hc : c = '\\'
  · subst hc
    split at h
    · next hescape =>
        have hzero := Nat.le_zero.1 (Nat.le_of_succ_le_succ h)
        refine Or.inl ?_
        rw [if_pos hescape, hzero]
        rfl
    · next hescape =>
        rw [if_neg hescape]
        exact Or.inr rfl
  · have hbeq : (c == '\\') = false := by simpa using hc
    simp only [hbeq, Bool.false_and]
    exact Or.inl rfl

/-- What is left of a text behind a name is a backslash, or the name ends where
it does without what follows. -/
theorem nameLengthFrom_cut {pending : Nat} (hx : StartsStop x)
    (h : nameLengthFrom pending (s ++ x) ≤ s.length) :
    nameLengthFrom pending (s ++ x) = nameLengthFrom pending s ∨
      s.drop (nameLengthFrom pending (s ++ x)) = ['\\'] := by
  induction s generalizing pending with
  | nil =>
      refine Or.inl ?_
      rw [Nat.le_zero.1 h]
      cases pending <;> rfl
  | cons c s ih =>
      rw [List.cons_append, List.length_cons] at h
      rw [List.cons_append]
      have hrest : ∀ {n : Nat}, nameLengthFrom n (s ++ x) + 1 ≤ s.length + 1 →
          nameLengthFrom n (s ++ x) + 1 = nameLengthFrom n s + 1 ∨
            (c :: s).drop (nameLengthFrom n (s ++ x) + 1) = ['\\'] := by
        intro n h
        rcases ih (Nat.le_of_succ_le_succ h) with heq | hdrop
        · exact Or.inl (by rw [heq])
        · exact Or.inr hdrop
      cases pending with
      | succ pending => exact hrest h
      | zero =>
          by_cases hname : isNameChar c = true
          · rw [nameLengthFrom, if_pos hname] at h ⊢
            rw [nameLengthFrom, if_pos hname]
            exact hrest h
          by_cases hs : s = []
          · subst hs
            exact nameLengthFrom_cut_last hname h
          · rw [nameLengthFrom, if_neg hname, startsEscape_append hs] at h ⊢
            rw [nameLengthFrom, if_neg hname]
            split
            · next hescape =>
                rw [if_pos hescape] at h
                have hlength : escapeLength (s ++ x) ≤ s.length :=
                  Nat.le_trans (le_nameLengthFrom (escapeLength_le _))
                    (Nat.le_of_succ_le_succ h)
                rw [← escapeLength_cut hx hlength]
                exact hrest h
            · exact Or.inl rfl

/-! ## Strings, comments and addresses -/

theorem stringEscapeLength_cut (hx : StartsStop x)
    (h : stringEscapeLength (s ++ x) ≤ s.length) :
    stringEscapeLength (s ++ x) = stringEscapeLength s := by
  by_cases hs : s = []
  · subst hs
    exact Nat.le_zero.1 h
  · rw [stringEscapeLength, headIs_append hs] at h ⊢
    rw [stringEscapeLength]
    split
    · next hnewline =>
        rw [if_pos hnewline] at h
        exact newlineLength_cut h
    · next hnewline =>
        rw [if_neg hnewline] at h
        exact escapeLength_cut hx h

theorem le_stringLengthFrom {quote : Char} {pending : Nat}
    (h : pending ≤ s.length) :
    pending ≤ (stringLengthFrom quote pending s).1 := by
  have hfrom := stringLengthFrom_length quote (s.take pending) (s.drop pending)
  rw [List.take_append_drop, List.length_take_of_le h] at hfrom
  omega

/-- A string reaches up to the end of a text and is a bad one, or it ends where
it does without what follows. -/
theorem stringLengthFrom_cut {quote : Char} {pending : Nat} (hx : StartsStop x)
    (h : (stringLengthFrom quote pending (s ++ x)).1 ≤ s.length) :
    stringLengthFrom quote pending (s ++ x) =
        stringLengthFrom quote pending s ∨
      stringLengthFrom quote pending (s ++ x) = (s.length, false) := by
  induction s generalizing pending with
  | nil =>
      have hzero := Nat.le_zero.1 h
      obtain ⟨c, b, rfl, -⟩ := hx
      rw [List.nil_append] at hzero ⊢
      cases pending with
      | succ pending => cases hzero
      | zero =>
          rw [stringLengthFrom_cons] at hzero ⊢
          split at hzero
          · cases hzero
          · next hquote =>
              split at hzero
              · next hnewline =>
                  rw [if_neg hquote, if_pos hnewline]
                  exact Or.inr rfl
              · cases hzero
  | cons c s ih =>
      rw [List.cons_append, List.length_cons] at h ⊢
      have hrest : ∀ {n : Nat},
          (stringLengthFrom quote n (s ++ x)).1 + 1 ≤ s.length + 1 →
            ((stringLengthFrom quote n (s ++ x)).1 + 1,
                (stringLengthFrom quote n (s ++ x)).2) =
              ((stringLengthFrom quote n s).1 + 1,
                (stringLengthFrom quote n s).2) ∨
            ((stringLengthFrom quote n (s ++ x)).1 + 1,
                (stringLengthFrom quote n (s ++ x)).2) =
              (s.length + 1, false) := by
        intro n h
        rcases ih (Nat.le_of_succ_le_succ h) with heq | hbad
        · exact Or.inl (by rw [heq])
        · exact Or.inr (by rw [hbad])
      cases pending with
      | succ pending => exact hrest h
      | zero =>
          rw [stringLengthFrom_cons] at h ⊢
          rw [stringLengthFrom_cons]
          split
          · exact Or.inl rfl
          · next hquote =>
              rw [if_neg hquote] at h
              split
              · exact Or.inl rfl
              · next hnewline =>
                  rw [if_neg hnewline] at h
                  simp only [] at h ⊢
                  split
                  · next hbackslash =>
                      rw [if_pos hbackslash] at h
                      have hlength : stringEscapeLength (s ++ x) ≤ s.length :=
                        Nat.le_trans
                          (le_stringLengthFrom (stringEscapeLength_le _))
                          (Nat.le_of_succ_le_succ h)
                      rw [← stringEscapeLength_cut hx hlength]
                      exact hrest h
                  · next hbackslash =>
                      rw [if_neg hbackslash] at h
                      exact hrest h

theorem commentLength_cut (h : commentLength (s ++ x) ≤ s.length) :
    commentLength (s ++ x) = commentLength s := by
  induction s with
  | nil => exact Nat.le_zero.1 h
  | cons c s ih =>
      rw [List.cons_append, commentLength_cons] at h ⊢
      rw [commentLength_cons]
      by_cases hs : s = []
      · subst hs
        have hpair : ¬(c = '*' ∧ headIs (· == '/') ([] ++ x) = true) := by
          intro hpair
          rw [if_pos hpair] at h
          exact Nat.not_succ_le_self 1 h
        have halone : ¬(c = '*' ∧ headIs (· == '/') [] = true) := by
          rintro ⟨-, ⟨⟩⟩
        rw [if_neg hpair] at h
        rw [if_neg hpair, if_neg halone, ih (Nat.le_of_succ_le_succ h)]
      · rw [headIs_append hs] at h ⊢
        split
        · rfl
        · next hpair =>
            rw [if_neg hpair] at h
            rw [ih (Nat.le_of_succ_le_succ h)]

theorem le_urlLengthFrom {state : UrlState} {pending : Nat}
    (h : pending ≤ s.length) : pending ≤ (urlLengthFrom state pending s).1 := by
  have hfrom := urlLengthFrom_length state (s.take pending) (s.drop pending)
  rw [List.take_append_drop, List.length_take_of_le h] at hfrom
  omega

theorem urlStep_cut {state : UrlState} {c : Char} (hs : s ≠ [])
    (hx : StartsStop x) (h : (urlStep state c (s ++ x)).2 ≤ s.length) :
    urlStep state c (s ++ x) = urlStep state c s := by
  cases state with
  | wrong =>
      simp only [urlStep]
      rw [headIs_append hs]
  | behind => rfl
  | before | inside =>
      simp only [urlStep, startsEscape_append hs] at h ⊢
      split
      · rfl
      · next hspace =>
          split
          · next hbackslash =>
              split
              · next hescape =>
                  rw [if_neg hspace, if_pos hbackslash, if_pos hescape] at h
                  rw [escapeLength_cut hx h]
              · rfl
          · rfl

/-- An address ends at its closing sign, so what follows did not matter. -/
theorem urlLengthFrom_cut {state : UrlState} {pending : Nat}
    (hx : StartsStop x)
    (h : (urlLengthFrom state pending (s ++ x)).1 ≤ s.length) :
    urlLengthFrom state pending (s ++ x) = urlLengthFrom state pending s := by
  induction s generalizing state pending with
  | nil =>
      obtain ⟨c, b, rfl, -⟩ := hx
      exact absurd h (Nat.not_le.2 (urlLengthFrom_pos _ _ c b))
  | cons c s ih =>
      rw [List.cons_append, List.length_cons] at h
      rw [List.cons_append]
      cases pending with
      | succ pending =>
          rw [urlLengthFrom_succ] at h ⊢
          rw [urlLengthFrom_succ, ih (Nat.le_of_succ_le_succ h)]
      | zero =>
          rw [urlLengthFrom_cons] at h ⊢
          rw [urlLengthFrom_cons]
          split
          · rfl
          · next hclose =>
              rw [if_neg hclose] at h
              simp only [] at h ⊢
              have hrest := Nat.le_of_succ_le_succ h
              by_cases hs : s = []
              · subst hs
                obtain ⟨d, b, rfl, -⟩ := hx
                exact absurd hrest (Nat.not_le.2 (urlLengthFrom_pos _ _ d b))
              · have hstep : (urlStep state c (s ++ x)).2 ≤ s.length :=
                  Nat.le_trans (le_urlLengthFrom (urlStep_le (by simp [hs])))
                    hrest
                rw [urlStep_cut hs hx hstep] at hrest ⊢
                rw [ih hrest]

/-! ## Tokens -/

/-- How what is read from a text with something behind it relates to what is
read from the text `s` alone: it is the same, or one of the exceptions. -/
inductive Cut (s : List Char) : TokenKind × Nat → TokenKind × Nat → Prop
  | same (r : TokenKind × Nat) : Cut s r r
  /-- The text ends in a backslash that is a sign of its own. -/
  | backslash {r r' : TokenKind × Nat}
      (h : s = ['\\'] ∨ s.drop r.2 = ['\\']) : Cut s r r'
  /-- Only blanks are left behind the opening of a function. -/
  | function {name : List Char} {n : Nat} {r' : TokenKind × Nat}
      (h : ∀ c ∈ s.drop n, isSpace c = true) : Cut s (.function name, n) r'
  /-- The text ends in a string that is broken off. -/
  | badString {r' : TokenKind × Nat} : Cut s (.badString, s.length) r'

theorem startsIdent_cut (hx : StartsStop x) :
    startsIdent (s ++ x) = startsIdent s ∨
      s = ['\\'] ∧ startsIdent (s ++ x) = false := by
  cases s with
  | nil =>
      obtain ⟨c, b, rfl, hc⟩ := hx
      have hne : ∀ c ∈ stops, c ≠ '-' ∧ c ≠ '\\' ∧ isNameStart c = false := by
        decide
      obtain ⟨hhyphen, hbackslash, hstart⟩ := hne c hc
      rw [List.nil_append, startsIdent_cons, if_neg hhyphen,
        if_neg hbackslash, hstart]
      exact Or.inl rfl
  | cons c s =>
      rw [List.cons_append, startsIdent_cons, startsIdent_cons,
        headIs_append_stop hx (by decide)]
      by_cases hbackslash : c = '\\'
      · subst hbackslash
        by_cases hs : s = []
        · subst hs
          cases hescape : startsEscape ([] ++ x) with
          | true => exact Or.inl rfl
          | false => exact Or.inr ⟨rfl, rfl⟩
        · rw [startsEscape_append hs]
          exact Or.inl rfl
      · rw [if_neg hbackslash, if_neg hbackslash]
        exact Or.inl rfl

/-- A token that ends in a name, behind the first `n` characters of the text. -/
theorem cut_name {k : List Char → TokenKind} {t : List Char} {n : Nat}
    (hdrop : s.drop n = t) (hx : StartsStop x)
    (h : nameLength (t ++ x) ≤ t.length) :
    Cut s (k (unescape ((t ++ x).take (nameLength (t ++ x)))),
        n + nameLength (t ++ x))
      (k (unescape (t.take (nameLength t))), n + nameLength t) := by
  rcases nameLengthFrom_cut hx h with heq | hbackslash
  · have heq : nameLength (t ++ x) = nameLength t := heq
    rw [List.take_append_of_le_length h, heq]
    exact .same _
  · refine .backslash (Or.inr ?_)
    rw [← List.drop_drop, hdrop]
    exact hbackslash

theorem cut_readNumber {n : Nat} (hn : n ≤ s.length) (hx : StartsStop x)
    (h : (readNumber (s ++ x) n).2 ≤ s.length) :
    Cut s (readNumber (s ++ x) n) (readNumber s n) := by
  have hlength := List.length_drop (l := s) (i := n)
  simp only [readNumber, drop_append hn,
    headIs_append_stop hx (p := (· == '%')) (by decide)] at h ⊢
  split
  · exact .same _
  · next hpercent =>
      rw [if_neg hpercent] at h
      rcases startsIdent_cut (s := s.drop n) hx with hident | ⟨hdrop, hident⟩
      · rw [hident] at h ⊢
        split
        · next hname =>
            rw [if_pos hname] at h
            simp only [] at h
            exact cut_name rfl hx (by omega)
        · exact .same _
      · rw [hident]
        exact .backslash (Or.inr hdrop)

theorem cut_readHash (hx : StartsStop x)
    (h : (readHash (s ++ x)).2 ≤ s.length + 1) :
    Cut ('#' :: s) (readHash (s ++ x)) (readHash s) := by
  simp only [readHash, headIs_append_stop hx
    (p := fun c => c.isDigit || c == '-') (by decide)] at h ⊢
  rcases startsIdent_cut (s := s) hx with hident | ⟨rfl, hident⟩
  · rw [hident] at h ⊢
    split
    · next hname =>
        rw [if_pos hname] at h
        rw [Nat.add_comm _ 1, Nat.add_comm _ 1]
        exact cut_name (k := fun name => .hash name _) rfl hx
          (Nat.le_of_succ_le_succ h)
    · exact .same _
  · rw [hident]
    exact .backslash (Or.inr rfl)

theorem cut_readAtKeyword (hx : StartsStop x)
    (h : (readAtKeyword (s ++ x)).2 ≤ s.length + 1) :
    Cut ('@' :: s) (readAtKeyword (s ++ x)) (readAtKeyword s) := by
  simp only [readAtKeyword] at h ⊢
  rcases startsIdent_cut (s := s) hx with hident | ⟨rfl, hident⟩
  · rw [hident] at h ⊢
    split
    · next hname =>
        rw [if_pos hname] at h
        rw [Nat.add_comm _ 1, Nat.add_comm _ 1]
        exact cut_name rfl hx (Nat.le_of_succ_le_succ h)
    · exact .same _
  · rw [hident]
    exact .backslash (Or.inr rfl)

theorem startsQuoted_of_blanks (hs : ∀ c ∈ s, isSpace c = true) :
    startsQuoted s = false := by
  have hnil : s.dropWhile isSpace = [] := List.dropWhile_eq_nil_iff.2 hs
  rw [startsQuoted, hnil]
  rfl

theorem cut_behindName {name t : List Char} {n : Nat} (hdrop : s.drop n = t)
    (hx : StartsStop x) (h : (behindName name n (t ++ x)).2 ≤ n + t.length) :
    Cut s (behindName name n (t ++ x)) (behindName name n t) := by
  by_cases ht : headIs (· == '(') t = true
  · cases t with
    | nil => cases ht
    | cons c rest =>
        obtain rfl := eq_of_beq ht
        simp only [List.cons_append, behindName, List.length_cons] at h ⊢
        cases hurl : Text.isKeyword name "url" with
        | false =>
            simp only [Bool.false_and]
            exact .same _
        | true =>
            simp only [hurl, Bool.true_and] at h ⊢
            have haddress : startsQuoted (rest ++ x) = false →
                urlLengthFrom .before 0 (rest ++ x) =
                  urlLengthFrom .before 0 rest := by
              intro hquoted
              simp only [hquoted, Bool.not_false, if_true] at h
              exact urlLengthFrom_cut hx (by omega)
            by_cases hblank : ∃ c ∈ rest, isSpace c = false
            · rw [startsQuoted_append hblank] at haddress ⊢
              cases hquoted : startsQuoted rest with
              | true => exact .same _
              | false =>
                  rw [haddress hquoted]
                  exact .same _
            · simp only [not_exists, not_and, Bool.not_eq_false] at hblank
              rw [startsQuoted_of_blanks hblank]
              cases hquoted : startsQuoted (rest ++ x) with
              | true =>
                  refine .function fun c hc => ?_
                  rw [← List.drop_drop, hdrop] at hc
                  exact hblank c hc
              | false =>
                  rw [haddress hquoted]
                  exact .same _
  · have ht : headIs (· == '(') t = false := by simpa using ht
    rw [behindName_ident ht, behindName_ident]
    · exact .same _
    · rw [headIs_append_stop hx (by decide)]
      exact ht

theorem cut_readIdentLike (hx : StartsStop x)
    (h : (readIdentLike (s ++ x)).2 ≤ s.length) :
    Cut s (readIdentLike (s ++ x)) (readIdentLike s) := by
  rw [readIdentLike_eq] at h
  have hname : nameLength (s ++ x) ≤ s.length :=
    Nat.le_trans (le_behindName _ _ _) h
  rw [drop_append hname, List.take_append_of_le_length hname] at h
  rw [readIdentLike_eq, readIdentLike_eq, drop_append hname,
    List.take_append_of_le_length hname]
  rcases nameLengthFrom_cut hx hname with heq | hdrop
  · have heq : nameLength (s ++ x) = nameLength s := heq
    rw [heq] at h hname ⊢
    refine cut_behindName rfl hx ?_
    rw [List.length_drop]
    omega
  · have hdrop : s.drop (nameLength (s ++ x)) = ['\\'] := hdrop
    rw [hdrop]
    exact .backslash (Or.inr hdrop)

theorem cut_readString {quote : Char} (hx : StartsStop x)
    (h : (readString quote (s ++ x)).2 ≤ s.length + 1) :
    Cut (quote :: s) (readString quote (s ++ x)) (readString quote s) := by
  rcases stringLengthFrom_cut hx (Nat.le_of_succ_le_succ h) with heq | hbad
  · rw [readString, readString, heq]
    exact .same _
  · rw [readString, hbad]
    exact .badString

theorem takeWhile_isSpace_cut
    (h : ((s ++ x).takeWhile isSpace).length ≤ s.length) :
    (s ++ x).takeWhile isSpace = s.takeWhile isSpace := by
  rw [List.takeWhile_append] at h ⊢
  split
  · next hall =>
      rw [if_pos hall, List.length_append] at h
      have hnil : x.takeWhile isSpace = [] :=
        List.length_eq_zero_iff.1 (by omega)
      rw [hnil, List.append_nil]
      exact (List.takeWhile_prefix isSpace).eq_of_length hall |>.symm
  · rfl

theorem cut_readPlain {c : Char} (hx : StartsStop x)
    (h : (readPlain c (s ++ x)).2 ≤ s.length + 1) :
    Cut (c :: s) (readPlain c (s ++ x)) (readPlain c s) := by
  have hnumber : numberLength (c :: (s ++ x)) = numberLength (c :: s) :=
    numberLength_append (s := c :: s) hx
  simp only [readPlain, hnumber,
    headIs_append_stop hx (p := (· == '=')) (by decide)] at h ⊢
  split
  · next hspace =>
      rw [if_pos hspace] at h
      rw [takeWhile_isSpace_cut (Nat.le_of_succ_le_succ h)]
      exact .same _
  next hspace =>
  rw [if_neg hspace] at h
  split
  · next hquote =>
      rw [if_pos hquote] at h
      exact cut_readString hx h
  next hquote =>
  rw [if_neg hquote] at h
  split
  · next hpos =>
      rw [if_pos hpos] at h
      exact cut_readNumber (s := c :: s) (numberLength_le _) hx h
  next hpos =>
  rw [if_neg hpos] at h
  rcases startsIdent_cut (s := c :: s) hx with hident | ⟨hall, -⟩
  · rw [List.cons_append] at hident
    rw [hident] at h ⊢
    split
    · next hname =>
        rw [if_pos hname] at h
        exact cut_readIdentLike (s := c :: s) hx h
    next hname =>
    rw [if_neg hname] at h
    split
    · next hhash =>
        rw [if_pos hhash] at h
        obtain rfl := eq_of_beq hhash
        exact cut_readHash hx h
    next hhash =>
    rw [if_neg hhash] at h
    split
    · next hat =>
        rw [if_pos hat] at h
        obtain rfl := eq_of_beq hat
        exact cut_readAtKeyword hx h
    · exact .same _
  · exact .backslash (Or.inl hall)

theorem prefix_cut {w : List Char} (hw : w.length ≤ s.length) :
    w <+: s ++ x ↔ w <+: s :=
  ⟨fun h => List.prefix_of_prefix_length_le h (List.prefix_append s x) hw,
    fun h => h.trans (List.prefix_append s x)⟩

/-- What the token at the head of a text is and how long it is, in its place
and alone. -/
theorem cut_readKind (hx : StartsStop x)
    (h : (readKind (s ++ x)).2 ≤ s.length) :
    Cut s (readKind (s ++ x)) (readKind s) := by
  cases s with
  | nil =>
      obtain ⟨c, b, rfl, -⟩ := hx
      exact absurd h (Nat.not_le.2 (readKind_pos (List.cons_ne_nil c b)))
  | cons c s =>
      have hlonger : ∀ {d : Char} {w : List Char},
          ¬(c = d ∧ w <+: s ++ x) → ¬(c = d ∧ w <+: s) := fun hno h =>
        hno ⟨h.1, h.2.trans (List.prefix_append s x)⟩
      rw [List.cons_append, readKind_cons, List.length_cons] at h
      rw [List.cons_append, readKind_cons, readKind_cons]
      by_cases hcomment : c = '/' ∧ ['*'] <+: s ++ x
      · rw [if_pos hcomment] at h ⊢
        have hopening : ['*'].length ≤ s.length :=
          Nat.le_of_succ_le_succ (Nat.le_trans (Nat.le_add_left 2 _) h)
        rw [prefix_cut hopening] at hcomment
        rw [if_pos hcomment]
        obtain ⟨rfl, t, rfl⟩ := hcomment
        have hclosed : commentLength (t ++ x) ≤ t.length :=
          Nat.le_of_add_le_add_right h
        show Cut _ (_, commentLength (t ++ x) + 2) (_, commentLength t + 2)
        rw [commentLength_cut hclosed]
        exact .same _
      rw [if_neg hcomment] at h ⊢
      rw [if_neg (hlonger hcomment)]
      by_cases hcdo : c = '<' ∧ ['!', '-', '-'] <+: s ++ x
      · rw [if_pos hcdo] at h ⊢
        have hopening : ['!', '-', '-'].length ≤ s.length :=
          Nat.le_of_succ_le_succ h
        rw [prefix_cut hopening] at hcdo
        rw [if_pos hcdo]
        exact .same _
      rw [if_neg hcdo] at h ⊢
      rw [if_neg (hlonger hcdo)]
      by_cases hcdc : c = '-' ∧ ['-', '>'] <+: s ++ x
      · rw [if_pos hcdc] at h ⊢
        have hclosing : ['-', '>'].length ≤ s.length := Nat.le_of_succ_le_succ h
        rw [prefix_cut hclosing] at hcdc
        rw [if_pos hcdc]
        exact .same _
      rw [if_neg hcdc] at h ⊢
      rw [if_neg (hlonger hcdc)]
      exact cut_readPlain hx h

/-! ## Texts -/

theorem text_suffix_of_getLast {ts : List Token} {t : Token}
    (h : t ∈ ts.getLast?) : t.text <:+ ts.flatMap Token.text := by
  obtain ⟨before, rfl⟩ := List.getLast?_eq_some_iff.1 h
  rw [List.flatMap_append, List.flatMap_singleton]
  exact List.suffix_append _ _

/-- Nothing is cut off behind a token: it is no blank, no opening of a block,
no string that is broken off and no backslash. -/
structure Token.IsWhole (t : Token) : Prop where
  shown : t.kind.isBlank = false
  plain : t.kind.closer? = none
  good : t.kind ≠ .badString
  sign : t.text ≠ ['\\']

theorem flatMap_text_ne_backslash {ts : List Token}
    (hne : ∀ t ∈ ts, t.text ≠ []) (hlast : ∀ t ∈ ts.getLast?, t.IsWhole) :
    ts.flatMap Token.text ≠ ['\\'] := by
  intro h
  cases hts : ts.getLast? with
  | none =>
      rw [List.getLast?_eq_none_iff.1 hts] at h
      cases h
  | some t =>
      have hsuffix := text_suffix_of_getLast hts
      rw [h, List.suffix_cons_iff, List.suffix_nil] at hsuffix
      rcases hsuffix with hsign | hnil
      · exact (hlast t hts).sign hsign
      · exact hne t (List.mem_of_getLast? hts) hnil

/-- The first of the tokens that a text and what follows it make up, if it is
one of those that the text is written in. -/
theorem exists_of_tokenize_append {t : Token} {ts rest : List Token}
    (hx : x ≠ []) (hs : s ≠ []) (h : tokenize (s ++ x) = t :: ts ++ rest)
    (htext : (t :: ts).flatMap Token.text = s) :
    ∃ n, readKind (s ++ x) = (t.kind, n) ∧ n ≤ s.length ∧
      t.text = s.take n ∧ tokenize (s.drop n ++ x) = ts ++ rest ∧
        ts.flatMap Token.text = s.drop n := by
  rw [tokenize_eq (by simp [hs])] at h
  obtain ⟨htoken, hdrop⟩ := List.cons.inj h
  have hn : (readKind (s ++ x)).2 ≤ s.length := by
    have hlength := congrArg List.length htext
    have hpos := List.length_pos_iff.2 hx
    rw [List.flatMap_cons, ← htoken, List.length_append, List.length_take,
      List.length_append] at hlength
    omega
  rw [List.take_append_of_le_length hn] at htoken
  rw [drop_append hn] at hdrop
  refine ⟨_, Prod.ext (congrArg Token.kind htoken) rfl, hn,
    (congrArg Token.text htoken).symm, hdrop, ?_⟩
  rw [List.flatMap_cons, ← htoken] at htext
  exact List.append_cancel_left (htext.trans (List.take_append_drop _ s).symm)

/-- A token that opens a block, with blanks behind it or nothing, does not end
in a whole token. -/
theorem not_isWhole_of_opener {t : Token} {ts : List Token}
    (ht : t.kind.closer? ≠ none) (hts : ∀ t' ∈ ts, t'.kind.isBlank = true) :
    ¬ ∀ t' ∈ (t :: ts).getLast?, t'.IsWhole := by
  intro hlast
  cases hend : ts.getLast? with
  | none =>
      rw [List.getLast?_eq_none_iff.1 hend] at hlast
      exact ht (hlast t rfl).plain
  | some t' =>
      have hshown := (hlast t' (by rw [List.getLast?_cons, hend]; rfl)).shown
      rw [hts t' (List.mem_of_getLast? hend)] at hshown
      cases hshown

/-- A text that ends where a token does, read alone. -/
theorem tokenize_cut {s x : List Char} {ts rest : List Token}
    (hx : StartsStop x) (h : tokenize (s ++ x) = ts ++ rest)
    (htext : ts.flatMap Token.text = s)
    (hlast : ∀ t ∈ ts.getLast?, t.IsWhole) : tokenize s = ts := by
  induction ts generalizing s with
  | nil =>
      subst htext
      rfl
  | cons t ts ih =>
      have hmem : ∀ t' ∈ t :: ts, t' ∈ tokenize (s ++ x) := by
        intro t' ht'
        rw [h]
        exact List.mem_append_left rest ht'
      obtain ⟨ht, hts⟩ := List.forall_mem_cons.1 fun t' ht' =>
        text_ne_nil_of_mem (hmem t' ht')
      have hs : s ≠ [] := by
        rintro rfl
        exact ht (List.append_eq_nil_iff.1 htext).1
      have hne : x ≠ [] := by
        obtain ⟨c, b, rfl, -⟩ := hx
        exact List.cons_ne_nil c b
      obtain ⟨n, hread, hn, htoken, hdrop, hrest⟩ :=
        exists_of_tokenize_append hne hs h htext
      have htail : ∀ t' ∈ ts.getLast?, t'.IsWhole := by
        intro t' ht'
        refine hlast t' ?_
        rw [List.getLast?_cons, ht']
        rfl
      have hcut := cut_readKind hx (s := s) (by rw [hread]; exact hn)
      obtain ⟨kind, text⟩ := t
      rw [hread] at hcut
      generalize hr' : readKind s = r' at hcut
      cases hcut with
      | same =>
          rw [tokenize_eq hs, hr', ih hdrop hrest htail, ← htoken]
      | backslash hall =>
          rcases hall with hall | hall
          · exact absurd (htext.trans hall) (flatMap_text_ne_backslash
              (List.forall_mem_cons.2 ⟨ht, hts⟩) hlast)
          · exact absurd (hrest.trans hall)
              (flatMap_text_ne_backslash hts htail)
      | function hspace =>
          -- What is left of the text behind the function is blank.
          refine absurd hlast (not_isWhole_of_opener nofun ?_)
          intro t' ht'
          rw [(kind_eq_space_iff (hmem t' (by simp [ht']))).2 fun c hc =>
            hspace c (hrest ▸ List.mem_flatMap.2 ⟨t', ht', hc⟩)]
          rfl
      | badString =>
          rw [List.drop_length, List.flatMap_eq_nil_iff] at hrest
          have hnil : ts = [] := List.eq_nil_iff_forall_not_mem.2 fun t' ht' =>
            hts t' ht' (hrest t' ht')
          subst hnil
          exact absurd rfl (hlast _ rfl).good

/-- The tokens that are left behind the first ones are those of a text. -/
theorem tokenize_flatMap {s : List Char} {ts rest : List Token}
    (h : tokenize s = ts ++ rest) :
    tokenize (rest.flatMap Token.text) = rest := by
  induction ts generalizing s with
  | nil =>
      rw [List.nil_append] at h
      rw [← h, flatMap_text_tokenize]
  | cons t ts ih =>
      have hs : s ≠ [] := by
        rintro rfl
        cases h
      rw [tokenize_eq hs] at h
      exact ih (List.cons.inj h).2

/-! ## Between separators -/

/-- Whether a token of this kind separates selectors, or ends them. -/
def TokenKind.isStop : TokenKind → Bool
  | .space | .comment | .comma | .openCurly => true
  | _ => false

theorem isStop_of_isBlank {kind : TokenKind} (h : kind.isBlank = true) :
    kind.isStop = true := by
  unfold TokenKind.isBlank at h
  split at h
  · rfl
  · rfl
  · cases h

theorem mem_stops_of_suits {kind : TokenKind} {c : Char}
    (h : kind.isStop = true) (hc : kind.Suits c) : c ∈ stops := by
  unfold TokenKind.isStop at h
  split at h
  · have hspace : isSpace c = true := hc
    simp only [isSpace, isNewline, Bool.or_eq_true, beq_iff_eq] at hspace
    rcases hspace with (rfl | rfl) | (rfl | rfl) | rfl <;> decide
  · rw [show c = '/' from hc]
    decide
  · rw [show c = ',' from hc]
    decide
  · rw [show c = '\x7b' from hc]
    decide
  · cases h

/-- A piece of a text in front of a separator, read alone. -/
theorem tokenize_between {ts : List Token} {t : Token}
    (h : ts ++ [t] <:+: tokenize s) (ht : t.kind.isStop = true)
    (hlast : ∀ t ∈ ts.getLast?, t.IsWhole) :
    tokenize (ts.flatMap Token.text) = ts := by
  have hmem : t ∈ tokenize s := h.subset (by simp)
  obtain ⟨before, behind, hall⟩ := h
  rw [List.append_assoc, List.append_assoc] at hall
  have hrest := tokenize_flatMap hall.symm
  rw [List.flatMap_append] at hrest
  refine tokenize_cut ?_ hrest rfl hlast
  obtain ⟨c, b, htext, hc⟩ := suits_of_mem_tokenize hmem
  rw [List.singleton_append, List.flatMap_cons, htext]
  exact ⟨c, _, rfl, mem_stops_of_suits ht hc⟩

end CssVendor.Syntax
