import CssVendor.Proofs.OpenEnd

/-!
# Where a token ends

The token at the head of a text does not depend on what follows the text, if
nothing is open at its end: of the same kind, it is as long as before, except
that a token that ends in a name takes in white space behind an escape. So
texts can be put next to each other and be read one by one.

`Begins` lists the ways in which a token begins. Which of them it is does not
depend on what follows the text, so that facts about all tokens are proved by
cases on it.
-/

namespace CssVendor.Syntax

variable {s x : List Char}

/-- Whether a token of this kind ends in a name. -/
def TokenKind.isNamed : TokenKind → Bool
  | .ident _ | .atKeyword _ | .hash _ _ | .dimension _ => true
  | _ => false

/-- How what is read from a text with `x` behind it relates to what is read
from the text `s` alone: a token that ends in a name and reaches up to the end
may take in white space. -/
def Extends (s x : List Char) (r r' : TokenKind × Nat) : Prop :=
  r' = r ∨ headIs isSpace x = true ∧ r.2 = s.length ∧
    r.1.isNamed = true ∧ r' = (r.1, r.2 + escapeEndLength x)

/-! ## Names -/

theorem nameLength_append (hx : StartsBreak x) (hsx : Apart s x)
    (h : nameLength (s ++ [';']) ≤ s.length) :
    unescape ((s ++ x).take (nameLength (s ++ x))) =
        unescape (s.take (nameLength s)) ∧
      (nameLength (s ++ x) = nameLength s ∨
        headIs isSpace x = true ∧ nameLength s = s.length ∧
          nameLength (s ++ x) = s.length + escapeEndLength x) := by
  have hle : nameLength s ≤ s.length := nameLengthFrom_le (Nat.zero_le _)
  rcases nameLengthFrom_append (Nat.zero_le _) hx hsx h with
    heq | ⟨hblank, hs, hlong, hvalue⟩
  · refine ⟨?_, Or.inl heq⟩
    rw [nameLength, heq]
    exact congrArg unescape (List.take_append_of_le_length hle)
  · refine ⟨?_, Or.inr ⟨hblank, hs, hlong⟩⟩
    have hname : nameLength s = s.length := hs
    have htake : (s ++ x).take (s.length + escapeEndLength x) =
        s ++ escapeEnd x := List.take_length_add_append _
    rw [nameLength, hlong, hname, htake, List.take_length]
    exact hvalue

/-- A token that ends in a name, the first `n` characters of which stand before
the name. -/
theorem extends_name {k : List Char → TokenKind} {t : List Char} {n : Nat}
    (hk : ∀ name, (k name).isNamed = true) (hs : n + t.length = s.length)
    (hx : StartsBreak x) (htx : Apart t x)
    (h : nameLength (t ++ [';']) ≤ t.length) :
    Extends s x (k (unescape (t.take (nameLength t))), n + nameLength t)
      (k (unescape ((t ++ x).take (nameLength (t ++ x)))),
        n + nameLength (t ++ x)) := by
  obtain ⟨hvalue, hlength⟩ := nameLength_append hx htx h
  rw [hvalue]
  rcases hlength with heq | ⟨hblank, ht, htx⟩
  · exact Or.inl (by rw [heq])
  · refine Or.inr ⟨hblank, ?_, hk _, ?_⟩
    · rw [ht, hs]
    · rw [ht, htx, Nat.add_assoc]

/-- A backslash alone behind a number would take in the semicolon. -/
theorem drop_ne_backslash {n : Nat} (hn : n ≤ s.length)
    (h : (readNumber (s ++ [';']) n).2 ≤ s.length) : s.drop n ≠ ['\\'] := by
  intro hdrop
  have hone := congrArg List.length hdrop
  rw [List.length_drop, List.length_singleton] at hone
  rw [readNumber, drop_append hn, hdrop] at h
  have htwo : n + 2 ≤ s.length := h
  omega

theorem extends_readNumber {n : Nat} (hn : n ≤ s.length) (hx : StartsBreak x)
    (hsx : Apart s x) (h : (readNumber (s ++ [';']) n).2 ≤ s.length) :
    Extends s x (readNumber s n) (readNumber (s ++ x) n) := by
  have hdrop : n + (s.drop n).length = s.length := by
    rw [List.length_drop]
    omega
  have hsign : s.drop n = ['\\'] → headIs isNewline x = false :=
    fun heq => absurd heq (drop_ne_backslash hn h)
  simp only [readNumber, drop_append hn, startsIdent_append hx hsign,
    headIs_append_break hx (p := (· == '%')) (by decide),
    startsIdent_append startsBreak_semicolon fun _ => rfl,
    headIs_append_break startsBreak_semicolon (p := (· == '%')) (by decide)]
    at h ⊢
  split
  · exact Or.inl rfl
  · next hpercent =>
      split
      · next hident =>
          rw [if_neg hpercent, if_pos hident] at h
          simp only [] at h
          exact extends_name (fun _ => rfl) hdrop hx (hsx.drop n) (by omega)
      · exact Or.inl rfl

theorem extends_readHash {c : Char} (hx : StartsBreak x) (hsx : Apart s x)
    (h : (readHash (s ++ [';'])).2 ≤ s.length + 1) :
    Extends (c :: s) x (readHash s) (readHash (s ++ x)) := by
  have hlength : 1 + s.length = (c :: s).length := Nat.add_comm _ _
  have hsign : s = ['\\'] → headIs isNewline x = false := by
    rintro rfl
    exact absurd h (by decide)
  simp only [readHash, startsIdent_append hx hsign,
    headIs_append_break hx (p := fun c => c.isDigit || c == '-') (by decide),
    startsIdent_append startsBreak_semicolon fun _ => rfl,
    headIs_append_break startsBreak_semicolon
      (p := fun c => c.isDigit || c == '-') (by decide)] at h ⊢
  split
  · next hname =>
      rw [if_pos hname] at h
      rw [Nat.add_comm _ 1, Nat.add_comm _ 1]
      exact extends_name (k := fun name => .hash name _) (fun _ => rfl)
        hlength hx hsx (Nat.le_of_succ_le_succ h)
  · exact Or.inl rfl

theorem extends_readAtKeyword {c : Char} (hx : StartsBreak x)
    (hsx : Apart s x) (h : (readAtKeyword (s ++ [';'])).2 ≤ s.length + 1) :
    Extends (c :: s) x (readAtKeyword s) (readAtKeyword (s ++ x)) := by
  have hlength : 1 + s.length = (c :: s).length := Nat.add_comm _ _
  have hsign : s = ['\\'] → headIs isNewline x = false := by
    rintro rfl
    exact absurd h (by decide)
  simp only [readAtKeyword, startsIdent_append hx hsign,
    startsIdent_append startsBreak_semicolon fun _ => rfl] at h ⊢
  split
  · next hname =>
      rw [if_pos hname] at h
      rw [Nat.add_comm _ 1, Nat.add_comm _ 1]
      exact extends_name (fun _ => rfl) hlength hx hsx
        (Nat.le_of_succ_le_succ h)
  · exact Or.inl rfl

/-- What a name becomes by what follows it. -/
def behindName (name : List Char) (length : Nat) :
    List Char → TokenKind × Nat
  | '(' :: rest =>
      if Text.isKeyword name "url" && !startsQuoted rest then
        let (address, good) := urlLengthFrom .before 0 rest
        (if good then .url else .badUrl, length + 1 + address)
      else (.function name, length + 1)
  | _ => (.ident name, length)

theorem readIdentLike_eq (s : List Char) :
    readIdentLike s =
      behindName (unescape (s.take (nameLength s))) (nameLength s)
        (s.drop (nameLength s)) := rfl

theorem behindName_ident {name : List Char} {length : Nat} {t : List Char}
    (ht : headIs (· == '(') t = false) :
    behindName name length t = (.ident name, length) := by
  rw [behindName]
  rintro rest rfl
  cases ht

theorem le_behindName (name : List Char) (length : Nat) (t : List Char) :
    length ≤ (behindName name length t).2 := by
  unfold behindName
  split
  · split
    · exact Nat.le_trans (Nat.le_succ _) (Nat.le_add_right _ _)
    · exact Nat.le_succ _
  · exact Nat.le_refl _

theorem behindName_append {name : List Char} {length : Nat} {t : List Char}
    (hx : StartsStop x) (htx : Apart t x)
    (h : (behindName name length (t ++ [';'])).2 ≤ length + t.length) :
    behindName name length (t ++ x) = behindName name length t := by
  by_cases ht : headIs (· == '(') t = true
  · cases t with
    | nil => cases ht
    | cons c rest =>
        obtain rfl := eq_of_beq ht
        simp only [List.cons_append, behindName, List.length_cons] at h ⊢
        by_cases hurl : Text.isKeyword name "url" = true
        · simp only [hurl, Bool.true_and] at h ⊢
          by_cases hblank : ∃ c ∈ rest, isSpace c = false
          · rw [startsQuoted_append hblank] at h ⊢
            split
            · next hquoted =>
                rw [if_pos hquoted] at h
                simp only [] at h
                rw [urlLengthFrom_append (Nat.zero_le _) hx htx.tail
                  (by omega)]
            · rfl
          · have hspace : ∀ c ∈ rest, isSpace c = true := by
              simpa using hblank
            have hpos := urlLengthFrom_pos .before 0 ';' []
            have hlength := urlLengthFrom_blanks (x := [';']) hspace
            rw [startsQuoted_blanks hspace, Bool.not_false, if_pos rfl] at h
            simp only [] at h
            omega
        · have hurl : Text.isKeyword name "url" = false := by simpa using hurl
          simp only [hurl, Bool.false_and]
          rfl
  · have ht : headIs (· == '(') t = false := by simpa using ht
    rw [behindName_ident ht, behindName_ident]
    rw [headIs_append_stop hx (by decide)]
    exact ht

theorem headIs_paren {b : List Char} (hb : headIs extendsName b = false) :
    headIs (· == '(') b = false := by
  cases b with
  | nil => rfl
  | cons d b =>
      simp only [headIs, extendsName, Bool.or_eq_false_iff] at hb ⊢
      exact hb.2

theorem extends_readIdentLike (hx : StartsBreak x) (hsx : Apart s x)
    (h : (readIdentLike (s ++ [';'])).2 ≤ s.length) :
    Extends s x (readIdentLike s) (readIdentLike (s ++ x)) := by
  rw [readIdentLike_eq] at h
  have hname : nameLength (s ++ [';']) ≤ s.length :=
    Nat.le_trans (le_behindName _ _ _) h
  have hle : nameLength s ≤ s.length := nameLengthFrom_le (Nat.zero_le _)
  obtain ⟨hvalue, hlength⟩ :=
    nameLength_append startsBreak_semicolon (.of_not_space rfl) hname
  rw [hvalue, hlength.resolve_right (fun h => by cases h.1),
    drop_append hle] at h
  obtain ⟨hvalue, hlength⟩ := nameLength_append hx hsx hname
  rw [readIdentLike_eq, readIdentLike_eq, hvalue]
  rcases hlength with heq | ⟨hblank, hs, hlong⟩
  · rw [heq, drop_append hle, behindName_append hx.startsStop (hsx.drop _)]
    · exact Or.inl rfl
    · rw [List.length_drop]
      omega
  · have hdrop : (s ++ x).drop (s.length + escapeEndLength x) =
        x.drop (escapeEndLength x) := List.drop_length_add_append _
    obtain ⟨c, b, rfl, -, -, hb⟩ := hx
    rw [hs, hlong, hdrop, List.drop_length,
      behindName_ident (headIs_paren hb), behindName_ident rfl]
    exact Or.inr ⟨hblank, rfl, rfl, rfl⟩

/-! ## Tokens -/

/-- What is read at a character that opens no comment. -/
def readPlain (c : Char) (rest : List Char) : TokenKind × Nat :=
  let number := numberLength (c :: rest)
  if isSpace c then (.space, (rest.takeWhile isSpace).length + 1)
  else if c == '"' || c == '\'' then readString c rest
  else if 0 < number then readNumber (c :: rest) number
  else if startsIdent (c :: rest) then readIdentLike (c :: rest)
  else if c == '#' then readHash rest
  else if c == '@' then readAtKeyword rest
  else if isMatcher c && headIs (· == '=') rest then (.matcher c, 2)
  else match punctuation? c with
    | some kind => (kind, 1)
    | none => (.delim c, 1)

theorem readKind_cons (c : Char) (rest : List Char) :
    readKind (c :: rest) =
      if c = '/' ∧ ['*'] <+: rest then
        (.comment, commentLength (rest.drop 1) + 2)
      else if c = '<' ∧ ['!', '-', '-'] <+: rest then (.cdo, 4)
      else if c = '-' ∧ ['-', '>'] <+: rest then (.cdc, 3)
      else readPlain c rest := by
  by_cases hcomment : c = '/' ∧ ['*'] <+: rest
  · rw [if_pos hcomment]
    obtain ⟨rfl, t, rfl⟩ := hcomment
    rfl
  · rw [if_neg hcomment]
    by_cases hcdo : c = '<' ∧ ['!', '-', '-'] <+: rest
    · rw [if_pos hcdo]
      obtain ⟨rfl, t, rfl⟩ := hcdo
      rfl
    · rw [if_neg hcdo]
      by_cases hcdc : c = '-' ∧ ['-', '>'] <+: rest
      · rw [if_pos hcdc]
        obtain ⟨rfl, t, rfl⟩ := hcdc
        rfl
      · rw [if_neg hcdc, readKind]
        · rfl
        · rintro t rfl rfl
          exact hcomment ⟨rfl, t, rfl⟩
        · rintro t rfl rfl
          exact hcdo ⟨rfl, t, rfl⟩
        · rintro t rfl rfl
          exact hcdc ⟨rfl, t, rfl⟩

theorem prefix_append_break {w : List Char} (hx : StartsBreak x)
    (hw : ∀ c ∈ w, c ∉ breaks) : w <+: s ++ x ↔ w <+: s := by
  induction s generalizing w with
  | nil =>
      obtain ⟨c, b, rfl, hc, -⟩ := hx
      cases w with
      | nil => simp
      | cons d w =>
          refine ⟨fun h => ?_, fun h => ?_⟩
          · rw [List.nil_append, List.cons_prefix_cons] at h
            exact absurd hc (h.1 ▸ hw d (by simp))
          · exact absurd (List.prefix_nil.1 h) (by simp)
  | cons c s ih =>
      cases w with
      | nil => simp
      | cons d w =>
          rw [List.cons_append, List.cons_prefix_cons, List.cons_prefix_cons,
            ih fun e he => hw e (by simp [he])]

theorem cdo_prefix_append (hx : StartsBreak x) :
    ['!', '-', '-'] <+: s ++ x ↔ ['!', '-', '-'] <+: s := by
  cases s with
  | nil =>
      obtain ⟨c, b, rfl, -, hbang, -⟩ := hx
      refine ⟨fun h => ?_, fun h => absurd (List.prefix_nil.1 h) (by simp)⟩
      rw [List.nil_append, List.cons_prefix_cons] at h
      obtain ⟨rfl, t, rfl⟩ := h
      exact absurd (hbang rfl) (by simp [headIs])
  | cons c s =>
      rw [List.cons_append, List.cons_prefix_cons, List.cons_prefix_cons,
        prefix_append_break hx (by decide)]

/-- Blanks that do not reach up to the end of the text end where they did. -/
theorem takeWhile_isSpace_append {c : Char} (hsx : Apart (c :: s) x)
    (hc : isSpace c = true) :
    (s ++ x).takeWhile isSpace = s.takeWhile isSpace := by
  induction s generalizing c with
  | nil =>
      refine takeWhile_append_of_head (Bool.eq_false_iff.2 fun hspace => ?_)
      rw [hsx hspace c rfl] at hc
      cases hc
  | cons d s ih =>
      rw [List.cons_append, List.takeWhile_cons, List.takeWhile_cons]
      split
      · next hd => rw [ih hsx.tail hd]
      · rfl

/-- The ways in which a token begins that is no comment, each with how it is
read, given what stands behind the text. -/
inductive Begins (c : Char) (s : List Char) :
    (List Char → TokenKind × Nat) → Prop
  | space (h : isSpace c = true) : Begins c s fun x =>
      (.space, ((s ++ x).takeWhile isSpace).length + 1)
  | quote (h : (c == '"' || c == '\'') = true) :
      Begins c s fun x => readString c (s ++ x)
  | number (h : 0 < numberLength (c :: s)) : Begins c s fun x =>
      readNumber (c :: s ++ x) (numberLength (c :: s))
  | name (h : startsIdent (c :: s) = true) :
      Begins c s fun x => readIdentLike (c :: s ++ x)
  | hash (h : c = '#') : Begins c s fun x => readHash (s ++ x)
  | atSign (h : c = '@') : Begins c s fun x => readAtKeyword (s ++ x)
  | sign (kind : TokenKind) {n : Nat} (hpos : 0 < n)
      (hn : n ≤ (c :: s).length) : Begins c s fun _ => (kind, n)

theorem begins_sign (c : Char) (s : List Char) :
    ∃ r, Begins c s r ∧ ∀ x, x = [] ∨ StartsBreak x →
      (if isMatcher c && headIs (· == '=') (s ++ x) then (.matcher c, 2)
        else match punctuation? c with
          | some kind => (kind, 1)
          | none => (.delim c, 1)) = r x := by
  have hequals : ∀ x, x = [] ∨ StartsBreak x →
      headIs (· == '=') (s ++ x) = headIs (· == '=') s := by
    rintro x (rfl | hx)
    · rw [List.append_nil]
    · exact headIs_append_break hx (by decide)
  by_cases hmatcher : (isMatcher c && headIs (· == '=') s) = true
  · have hs : 2 ≤ (c :: s).length := by
      cases s with
      | nil => simp [headIs] at hmatcher
      | cons d s => exact Nat.succ_le_succ (Nat.succ_pos _)
    refine ⟨_, .sign (.matcher c) Nat.two_pos hs, fun x hx => ?_⟩
    rw [hequals x hx, if_pos hmatcher]
  · have hone : 1 ≤ (c :: s).length := Nat.succ_pos _
    cases hkind : punctuation? c with
    | some kind =>
        refine ⟨_, .sign kind Nat.one_pos hone, fun x hx => ?_⟩
        rw [hequals x hx, if_neg hmatcher]
    | none =>
        refine ⟨_, .sign (.delim c) Nat.one_pos hone, fun x hx => ?_⟩
        rw [hequals x hx, if_neg hmatcher]

/-- What may stand behind a text without changing how its first token begins:
nothing, or what begins with a character that ends a token. Behind a backslash
alone it must be no line end. -/
def Follows (s x : List Char) : Prop :=
  x = [] ∨ StartsBreak x ∧ (s = ['\\'] → headIs isNewline x = false)

theorem follows_semicolon (s : List Char) : Follows s [';'] :=
  Or.inr ⟨startsBreak_semicolon, fun _ => rfl⟩

/-- How a token begins does not depend on what stands behind the text. -/
theorem exists_begins (c : Char) (s : List Char) :
    ∃ r, Begins c s r ∧
      ∀ x, Follows (c :: s) x → readPlain c (s ++ x) = r x := by
  have hnumber : ∀ x, Follows (c :: s) x →
      numberLength (c :: (s ++ x)) = numberLength (c :: s) := by
    rintro x (rfl | ⟨hx, -⟩)
    · rw [List.append_nil]
    · exact numberLength_append (s := c :: s) hx.startsStop
  have hident : ∀ x, Follows (c :: s) x →
      startsIdent (c :: (s ++ x)) = startsIdent (c :: s) := by
    rintro x (rfl | ⟨hx, hsign⟩)
    · rw [List.append_nil]
    · exact startsIdent_append (s := c :: s) hx hsign
  unfold readPlain
  by_cases hspace : isSpace c = true
  · exact ⟨_, .space hspace, fun x _ => if_pos hspace⟩
  simp only [if_neg hspace]
  by_cases hquote : (c == '"' || c == '\'') = true
  · exact ⟨_, .quote hquote, fun x _ => if_pos hquote⟩
  simp only [if_neg hquote]
  by_cases hpos : 0 < numberLength (c :: s)
  · refine ⟨_, .number hpos, fun x hx => ?_⟩
    rw [hnumber x hx]
    exact if_pos hpos
  by_cases hname : startsIdent (c :: s) = true
  · refine ⟨_, .name hname, fun x hx => ?_⟩
    rw [hnumber x hx, hident x hx, if_neg hpos]
    exact if_pos hname
  by_cases hhash : (c == '#') = true
  · refine ⟨_, .hash (eq_of_beq hhash), fun x hx => ?_⟩
    rw [hnumber x hx, hident x hx, if_neg hpos, if_neg hname]
    exact if_pos hhash
  by_cases hat : (c == '@') = true
  · refine ⟨_, .atSign (eq_of_beq hat), fun x hx => ?_⟩
    rw [hnumber x hx, hident x hx, if_neg hpos, if_neg hname, if_neg hhash]
    exact if_pos hat
  obtain ⟨r, hr, hread⟩ := begins_sign c s
  refine ⟨r, hr, fun x hx => ?_⟩
  rw [hnumber x hx, hident x hx, if_neg hpos, if_neg hname, if_neg hhash,
    if_neg hat]
  exact hread x (hx.imp_right And.left)

theorem extends_readPlain {c : Char} (hx : StartsBreak x)
    (hsx : Apart (c :: s) x)
    (h : (readPlain c (s ++ [';'])).2 ≤ s.length + 1) :
    Extends (c :: s) x (readPlain c s) (readPlain c (s ++ x)) := by
  obtain ⟨r, hr, hread⟩ := exists_begins c s
  have halone := hread [] (Or.inl rfl)
  rw [List.append_nil] at halone
  have hsign : c :: s = ['\\'] → headIs isNewline x = false := by
    rintro ⟨⟩
    exact absurd h (by decide)
  rw [hread [';'] (follows_semicolon _)] at h
  rw [halone, hread x (Or.inr ⟨hx, hsign⟩)]
  cases hr with
  | space hspace =>
      simp only [takeWhile_isSpace_append hsx hspace, List.append_nil]
      exact Or.inl rfl
  | quote hquote =>
      have hlength : (stringLengthFrom c 0 (s ++ [';'])).1 ≤ s.length :=
        Nat.le_of_succ_le_succ h
      have hstring := stringLengthFrom_append (Nat.zero_le _) hx.startsStop
        hsx.tail hlength
      simp only [List.append_nil, readString, hstring]
      exact Or.inl rfl
  | number hpos =>
      simp only [List.append_nil] at h ⊢
      exact extends_readNumber (numberLength_le _) hx hsx h
  | name hname =>
      simp only [List.append_nil] at h ⊢
      exact extends_readIdentLike hx hsx h
  | hash hhash =>
      simp only [List.append_nil] at h ⊢
      exact extends_readHash hx hsx.tail h
  | atSign hat =>
      simp only [List.append_nil] at h ⊢
      exact extends_readAtKeyword hx hsx.tail h
  | sign kind hpos hn => exact Or.inl rfl

/-- What the token at the head of a text is and how long it is, with something
behind the text and without. -/
theorem extends_readKind (hs : s ≠ []) (hx : StartsBreak x)
    (hsx : Apart s x)
    (h : (readKind (s ++ [';'])).2 ≤ s.length) :
    Extends s x (readKind s) (readKind (s ++ x)) := by
  cases s with
  | nil => exact absurd rfl hs
  | cons c s =>
      have hsemicolon := startsBreak_semicolon
      simp only [List.cons_append, readKind_cons, List.length_cons,
        prefix_append_break hsemicolon (w := ['*']) (by decide),
        cdo_prefix_append hsemicolon,
        prefix_append_break hsemicolon (w := ['-', '>']) (by decide)] at h
      simp only [List.cons_append, readKind_cons,
        prefix_append_break hx (w := ['*']) (by decide), cdo_prefix_append hx,
        prefix_append_break hx (w := ['-', '>']) (by decide)]
      split
      · next hcomment =>
          rw [if_pos hcomment] at h
          obtain ⟨rfl, t, rfl⟩ := hcomment
          refine Or.inl ?_
          have hclosed : commentLength (t ++ [';']) ≤ t.length :=
            Nat.le_of_add_le_add_right h
          show (_, commentLength (t ++ x) + 2) = (_, commentLength t + 2)
          rw [commentLength_append x hclosed]
      · next hcomment =>
          rw [if_neg hcomment] at h
          split
          · exact Or.inl rfl
          · next hcdo =>
              rw [if_neg hcdo] at h
              split
              · exact Or.inl rfl
              · next hcdc =>
                  rw [if_neg hcdc] at h
                  exact extends_readPlain hx hsx h

end CssVendor.Syntax
