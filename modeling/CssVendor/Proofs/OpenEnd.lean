import CssVendor.Proofs.Break

/-!
# Texts with nothing open at their end

A token that ends within a text, even when a semicolon follows the text, ends
there whatever follows. This is shown for everything that could have been open:
names, strings, addresses and comments. `readKind_append` puts it together.
-/

namespace CssVendor.Syntax

variable {s x : List Char}

theorem startsBreak_semicolon : StartsBreak [';'] :=
  startsBreak_cons (by decide) (by decide) (by decide)

/-- The white space that would end an escape. -/
def escapeEnd (x : List Char) : List Char := x.take (escapeEndLength x)

@[simp] theorem length_escapeEnd (x : List Char) :
    (escapeEnd x).length = escapeEndLength x := by
  rw [escapeEnd, List.length_take]
  exact Nat.min_eq_left (escapeEndLength_le x)

theorem escapeEnd_append_drop (x : List Char) :
    escapeEnd x ++ x.drop (escapeEndLength x) = x :=
  List.take_append_drop _ x

theorem mem_breaks_of_isSpace {c : Char} (h : isSpace c = true) :
    c ∈ breaks := by
  simp only [isSpace, isNewline, Bool.or_eq_true, beq_iff_eq] at h
  rcases h with (rfl | rfl) | (rfl | rfl) | rfl <;> decide

theorem escapeEnd_cons {c : Char} (hc : isSpace c = true) (b : List Char) :
    escapeEnd (c :: b) = [c] ∨ escapeEnd (c :: b) = ['\r', '\n'] := by
  rw [escapeEnd, escapeEndLength]
  split
  · rw [newlineLength_cons]
    split
    · next hpair =>
        obtain ⟨rfl, hfeed⟩ := hpair
        cases b with
        | nil => cases hfeed
        | cons d b =>
            rw [eq_of_beq hfeed]
            exact Or.inr rfl
    · next hnewline _ =>
        have hnewline : isNewline c = true := hnewline
        rw [if_pos hnewline]
        exact Or.inl rfl
  · have hspace : headIs isSpace (c :: b) = true := hc
    rw [if_pos hspace]
    exact Or.inl rfl

/-- White space that would end an escape ends one by itself. -/
theorem escapeEnd_spec (hspace : headIs isSpace x = true) :
    StartsStop (escapeEnd x) ∧
      escapeEndLength (escapeEnd x) = escapeEndLength x := by
  cases x with
  | nil => cases hspace
  | cons c b =>
      have hlength := length_escapeEnd (c :: b)
      rcases escapeEnd_cons hspace b with hend | hend
      · have hc : isSpace c = true := hspace
        rw [hend] at hlength ⊢
        refine ⟨⟨c, [], rfl,
          List.mem_append_left _ (mem_breaks_of_isSpace hc)⟩, ?_⟩
        have halone : ¬ (c = '\r' ∧ headIs (· == '\n') [] = true) := by
          rintro ⟨-, ⟨⟩⟩
        show (if isNewline c then newlineLength [c]
          else if isSpace c then 1 else 0) = _
        rw [← hlength, newlineLength_cons, if_neg halone, hc]
        cases isNewline c <;> rfl
      · rw [hend] at hlength ⊢
        exact ⟨⟨'\r', ['\n'], rfl, by decide⟩, hlength⟩

/-! ## Names -/

theorem nameLengthFrom_length (s x : List Char) :
    nameLengthFrom s.length (s ++ x) = s.length + nameLengthFrom 0 x := by
  induction s with
  | nil => rw [List.length_nil, List.nil_append, Nat.zero_add]
  | cons c s ih =>
      rw [List.length_cons, List.cons_append, nameLengthFrom, ih]
      omega

theorem unescapeFrom_length (s x : List Char) :
    unescapeFrom s.length (s ++ x) = unescapeFrom 0 x := by
  induction s with
  | nil => rfl
  | cons c s ih => rw [List.length_cons, List.cons_append, unescapeFrom, ih]

theorem nameLengthFrom_le {pending : Nat} (h : pending ≤ s.length) :
    nameLengthFrom pending s ≤ s.length := by
  induction s generalizing pending with
  | nil => cases pending <;> exact Nat.le_refl 0
  | cons c s ih =>
      rw [List.length_cons]
      cases pending with
      | zero =>
          rw [nameLengthFrom]
          split
          · exact Nat.succ_le_succ (ih (Nat.zero_le _))
          · split
            · exact Nat.succ_le_succ (ih (escapeLength_le s))
            · exact Nat.zero_le _
      | succ pending =>
          rw [nameLengthFrom]
          exact Nat.succ_le_succ (ih (Nat.le_of_succ_le_succ h))

theorem nameLengthFrom_zero {b : List Char}
    (hb : headIs extendsName b = false) : nameLengthFrom 0 b = 0 := by
  cases b with
  | nil => rfl
  | cons c b =>
      simp only [headIs, extendsName, Bool.or_eq_false_iff] at hb
      rw [nameLengthFrom, hb.1.1, hb.1.2]
      rfl

theorem nameLengthFrom_break (hx : StartsBreak x) :
    nameLengthFrom 0 x = 0 :=
  nameLengthFrom_zero (headIs_break hx (by decide))

theorem nameLengthFrom_self (s : List Char) :
    nameLengthFrom s.length s = s.length := by
  have h := nameLengthFrom_length s []
  rwa [List.append_nil] at h

theorem unescapeFrom_self (s : List Char) : unescapeFrom s.length s = [] := by
  have h := unescapeFrom_length s []
  rwa [List.append_nil] at h

/-- A name ends behind the white space that its last escape takes in. -/
theorem nameLengthFrom_append_blank (h : endsInDigits s)
    (hx : StartsBreak x) :
    nameLengthFrom (escapeLength (s ++ x)) (s ++ x) =
      s.length + escapeEndLength x := by
  have hend := nameLengthFrom_length (s ++ escapeEnd x)
    (x.drop (escapeEndLength x))
  rw [List.append_assoc, escapeEnd_append_drop, List.length_append,
    length_escapeEnd] at hend
  rw [escapeLength_append_blank h hx.startsStop, hend]
  obtain ⟨c, b, rfl, -, -, hb⟩ := hx
  rw [nameLengthFrom_zero hb]
  rfl

theorem unescapeFrom_append_blank (h : endsInDigits s)
    (hspace : headIs isSpace x = true) :
    unescapeFrom (escapeLength (s ++ escapeEnd x)) (s ++ escapeEnd x) =
      unescapeFrom (escapeLength s) s := by
  obtain ⟨hstop, hlength⟩ := escapeEnd_spec hspace
  have hself := unescapeFrom_self (s ++ escapeEnd x)
  rw [List.length_append, length_escapeEnd] at hself
  rw [escapeLength_append_blank h hstop, hlength,
    escapeLength_of_endsInDigits h, unescapeFrom_self]
  exact hself

/-- What follows a name adds nothing to it, except for white space behind an
escape, which does not change what the name is. The first `pending` characters
of the text are known to belong to the name. -/
def NameEnd (pending : Nat) (s x : List Char) : Prop :=
  nameLengthFrom pending (s ++ x) = nameLengthFrom pending s ∨
    headIs isSpace x = true ∧ nameLengthFrom pending s = s.length ∧
      nameLengthFrom pending (s ++ x) = s.length + escapeEndLength x ∧
      unescapeFrom pending (s ++ escapeEnd x) = unescapeFrom pending s

/-- A name with one character more in front of it. -/
theorem NameEnd.cons {p q : Nat} {c : Char} (h : NameEnd q s x)
    (hself : nameLengthFrom p (c :: s) = nameLengthFrom q s + 1)
    (hlonger : nameLengthFrom p (c :: (s ++ x)) =
      nameLengthFrom q (s ++ x) + 1)
    (hvalue : headIs isSpace x = true →
      unescapeFrom q (s ++ escapeEnd x) = unescapeFrom q s →
      unescapeFrom p (c :: (s ++ escapeEnd x)) = unescapeFrom p (c :: s)) :
    NameEnd p (c :: s) x := by
  rw [NameEnd, List.cons_append, List.cons_append, hself, hlonger,
    List.length_cons]
  rcases h with heq | ⟨hspace, hs, hlong, hsame⟩
  · exact Or.inl (by rw [heq])
  · refine Or.inr ⟨hspace, by rw [hs], ?_, hvalue hspace hsame⟩
    rw [hlong]
    omega

theorem nameLengthFrom_escape (h : startsEscape s = true) :
    nameLengthFrom 0 ('\\' :: s) = nameLengthFrom (escapeLength s) s + 1 := by
  have hbackslash : ('\\' == '\\' && startsEscape s) = true := by
    rw [h]
    rfl
  rw [nameLengthFrom, if_neg (by decide), if_pos hbackslash]

theorem unescapeFrom_escape (s : List Char) : unescapeFrom 0 ('\\' :: s) =
    escapeValue s :: unescapeFrom (escapeLength s) s := rfl

/-- A name with a backslash more in front of it, which begins an escape. -/
theorem NameEnd.escape (h : NameEnd (escapeLength s) s x) (hs : s ≠ [])
    (hescape : startsEscape s = true) (hx : StartsBreak x)
    (hsx : Apart s x) : NameEnd 0 ('\\' :: s) x := by
  have hescape' : startsEscape (s ++ x) = true := by
    rwa [startsEscape_append hs]
  by_cases hblank : endsInDigits s ∧ headIs isSpace x = true
  · obtain ⟨hdigits, hspace⟩ := hblank
    refine Or.inr ⟨hspace, ?_, ?_, ?_⟩
    · rw [nameLengthFrom_escape hescape, escapeLength_of_endsInDigits hdigits,
        nameLengthFrom_self, List.length_cons]
    · rw [List.cons_append, nameLengthFrom_escape hescape',
        nameLengthFrom_append_blank hdigits hx, List.length_cons]
      omega
    · rw [List.cons_append, unescapeFrom_escape, unescapeFrom_escape,
        escapeValue_append hs (escapeEnd_spec hspace).1,
        unescapeFrom_append_blank hdigits hspace]
  · have hlength : escapeLength (s ++ x) = escapeLength s :=
      escapeLength_append hs hx.startsStop hsx (by simpa using hblank)
    refine h.cons (nameLengthFrom_escape hescape) ?_ fun hspace hvalue => ?_
    · rw [nameLengthFrom_escape hescape', hlength]
    · have hend := (escapeEnd_spec hspace).1
      rw [unescapeFrom_escape, unescapeFrom_escape, escapeValue_append hs hend,
        escapeLength_append hs hend, hvalue]
      · intro _
        exact hsx hspace
      · intro hdigits
        exact absurd ⟨hdigits, hspace⟩ hblank

/-- A name ends where its text does, if there is no open backslash. -/
theorem nameLengthFrom_append {pending : Nat} (hpending : pending ≤ s.length)
    (hx : StartsBreak x) (hsx : Apart s x)
    (h : nameLengthFrom pending (s ++ [';']) ≤ s.length) :
    NameEnd pending s x := by
  induction s generalizing pending with
  | nil =>
      obtain rfl := Nat.le_zero.1 hpending
      rw [NameEnd, List.nil_append, nameLengthFrom_break hx]
      exact Or.inl rfl
  | cons c s ih =>
      rw [List.length_cons] at h hpending
      cases pending with
      | succ pending =>
          have hrest := ih (Nat.le_of_succ_le_succ hpending) hsx.tail
            (Nat.le_of_succ_le_succ h)
          exact hrest.cons rfl rfl fun _ hvalue => hvalue
      | zero =>
          by_cases hname : isNameChar c = true
          · have hlength : ∀ t,
                nameLengthFrom 0 (c :: t) = nameLengthFrom 0 t + 1 := by
              intro t
              rw [nameLengthFrom, if_pos hname]
            have hne : (c == '\\') = false := by
              refine Bool.eq_false_iff.2 fun heq => ?_
              rw [eq_of_beq heq] at hname
              exact absurd hname (by decide)
            rw [List.cons_append, hlength] at h
            have hrest := ih (Nat.zero_le _) hsx.tail
              (Nat.le_of_succ_le_succ h)
            refine hrest.cons (hlength _) (hlength _) fun _ hvalue => ?_
            simp only [unescapeFrom, hne, Bool.false_eq_true, if_false, hvalue]
          by_cases hbackslash : c = '\\'
          · subst hbackslash
            -- At the end of the text it would take in the semicolon.
            have hs : s ≠ [] := by
              rintro rfl
              exact absurd h (by decide)
            have hsame := startsEscape_append (x := x) hs
            by_cases hescape : startsEscape s = true
            · have hescape' : startsEscape (s ++ [';']) = true := by
                rwa [startsEscape_append hs]
              rw [List.cons_append, nameLengthFrom_escape hescape',
                escapeLength_append hs startsBreak_semicolon.startsStop
                  (.of_not_space rfl) fun _ => rfl] at h
              have hrest := ih (escapeLength_le s) hsx.tail
                (Nat.le_of_succ_le_succ h)
              exact hrest.escape hs hescape hx hsx.tail
            · rw [NameEnd, List.cons_append, nameLengthFrom, nameLengthFrom,
                hsame, Bool.eq_false_iff.2 hescape]
              exact Or.inl rfl
          · have hne : (c == '\\') = false := by simpa using hbackslash
            rw [NameEnd, List.cons_append, nameLengthFrom, nameLengthFrom, hne,
              if_neg hname, if_neg hname]
            exact Or.inl rfl

/-! ## Strings -/

theorem stringEscapeLength_append (hs : s ≠ []) (hx : StartsStop x)
    (hsx : Apart s x)
    (h : stringEscapeLength s = s.length → headIs isSpace x = false) :
    stringEscapeLength (s ++ x) = stringEscapeLength s := by
  rw [stringEscapeLength, stringEscapeLength, headIs_append hs]
  split
  · rw [newlineLength_append hs hsx]
  · next hnewline =>
      rw [stringEscapeLength, if_neg hnewline] at h
      exact escapeLength_append hs hx hsx fun hdigits =>
        h (escapeLength_of_endsInDigits hdigits)

theorem stringEscapeLength_le (s : List Char) :
    stringEscapeLength s ≤ s.length := by
  rw [stringEscapeLength]
  split
  · exact newlineLength_le s
  · exact escapeLength_le s

theorem stringLengthFrom_succ (quote : Char) (pending : Nat) (c : Char)
    (s : List Char) :
    stringLengthFrom quote (pending + 1) (c :: s) =
      ((stringLengthFrom quote pending s).1 + 1,
        (stringLengthFrom quote pending s).2) := rfl

theorem stringLengthFrom_cons (quote c : Char) (s : List Char) :
    stringLengthFrom quote 0 (c :: s) =
      if c == quote then (1, true)
      else if isNewline c then (0, false)
      else
        let pending := if c == '\\' then stringEscapeLength s else 0
        ((stringLengthFrom quote pending s).1 + 1,
          (stringLengthFrom quote pending s).2) := rfl

theorem stringLengthFrom_length (quote : Char) (s x : List Char) :
    (stringLengthFrom quote s.length (s ++ x)).1 =
      s.length + (stringLengthFrom quote 0 x).1 := by
  induction s with
  | nil => rw [List.length_nil, List.nil_append, Nat.zero_add]
  | cons c s ih =>
      rw [List.length_cons, List.cons_append, stringLengthFrom_succ, ih]
      omega

theorem stringLengthFrom_semicolon_pos (quote : Char) (pending : Nat) :
    0 < (stringLengthFrom quote pending [';']).1 := by
  cases pending with
  | zero =>
      rw [stringLengthFrom_cons]
      split
      · exact Nat.one_pos
      · exact Nat.succ_pos _
  | succ pending => exact Nat.succ_pos _

/-- What follows a string that has been closed does not change it. -/
theorem stringLengthFrom_append {quote : Char} {pending : Nat}
    (hpending : pending ≤ s.length) (hx : StartsStop x) (hsx : Apart s x)
    (h : (stringLengthFrom quote pending (s ++ [';'])).1 ≤ s.length) :
    stringLengthFrom quote pending (s ++ x) =
      stringLengthFrom quote pending s := by
  induction s generalizing pending with
  | nil =>
      have hpos := stringLengthFrom_semicolon_pos quote pending
      exact absurd h (Nat.not_le.2 hpos)
  | cons c s ih =>
      rw [List.length_cons] at hpending h
      cases pending with
      | succ pending =>
          rw [List.cons_append, stringLengthFrom_succ] at h ⊢
          rw [stringLengthFrom_succ, ih (Nat.le_of_succ_le_succ hpending)
            hsx.tail (Nat.le_of_succ_le_succ h)]
      | zero =>
          rw [List.cons_append, stringLengthFrom_cons] at h ⊢
          rw [stringLengthFrom_cons]
          by_cases hquote : (c == quote) = true
          · rw [if_pos hquote, if_pos hquote]
          · rw [if_neg hquote] at h
            rw [if_neg hquote, if_neg hquote]
            by_cases hnewline : isNewline c = true
            · rw [if_pos hnewline, if_pos hnewline]
            · rw [if_neg hnewline] at h
              rw [if_neg hnewline, if_neg hnewline]
              by_cases hbackslash : (c == '\\') = true
              · simp only [if_pos hbackslash] at h ⊢
                have hs : s ≠ [] := by
                  rintro rfl
                  have hpos := stringLengthFrom_semicolon_pos quote
                    (stringEscapeLength [';'])
                  simp only [List.nil_append, List.length_nil] at h
                  omega
                rw [stringEscapeLength_append hs
                  startsBreak_semicolon.startsStop (.of_not_space rfl)
                  fun _ => rfl] at h
                rw [stringEscapeLength_append hs hx hsx.tail, ih
                  (stringEscapeLength_le s) hsx.tail
                  (Nat.le_of_succ_le_succ h)]
                -- An escape that ends the text leaves the string open.
                intro hlength
                have hpos := stringLengthFrom_semicolon_pos quote 0
                rw [hlength, stringLengthFrom_length] at h
                omega
              · simp only [if_neg hbackslash] at h ⊢
                rw [ih (Nat.zero_le _) hsx.tail (Nat.le_of_succ_le_succ h)]

/-! ## Comments -/

theorem commentLength_cons (c : Char) (t : List Char) :
    commentLength (c :: t) =
      if c = '*' ∧ headIs (· == '/') t = true then 2
      else commentLength t + 1 := by
  by_cases hpair : c = '*' ∧ headIs (· == '/') t = true
  · rw [if_pos hpair]
    obtain ⟨rfl, hslash⟩ := hpair
    cases t with
    | nil => cases hslash
    | cons d t =>
        rw [eq_of_beq hslash]
        rfl
  · rw [if_neg hpair, commentLength]
    rintro t' rfl rfl
    exact hpair ⟨rfl, rfl⟩

/-- What follows a comment that has been closed does not change it. -/
theorem commentLength_append (x : List Char)
    (h : commentLength (s ++ [';']) ≤ s.length) :
    commentLength (s ++ x) = commentLength s := by
  induction s with
  | nil => exact absurd h (by decide)
  | cons c s ih =>
      rw [List.cons_append, commentLength_cons,
        headIs_append_break startsBreak_semicolon (by decide)] at h
      rw [List.cons_append, commentLength_cons, commentLength_cons]
      by_cases hs : s = []
      · -- A comment that is closed is closed by two characters.
        subst hs
        rw [if_neg (by rintro ⟨-, ⟨⟩⟩)] at h
        exact absurd (Nat.le_of_succ_le_succ h) (by decide)
      · rw [headIs_append hs]
        split at h
        · next hpair => rw [if_pos hpair, if_pos hpair]
        · next hpair =>
            rw [if_neg hpair, if_neg hpair, ih (Nat.le_of_succ_le_succ h)]

/-! ## Addresses -/

/-- How one character of a bare address is read: where the reader is behind it,
and how many characters more belong to it. -/
def urlStep (state : UrlState) (c : Char) (s : List Char) : UrlState × Nat :=
  match state with
  | .wrong =>
      (.wrong,
        if c == '\\' && headIs (fun d => d == ')' || d == '\\') s then 1 else 0)
  | .behind => (if isSpace c then .behind else .wrong, 0)
  | _ =>
      if isSpace c then (if state == .before then .before else .behind, 0)
      else if c == '\\' then
        if startsEscape s then (.inside, escapeLength s) else (.wrong, 0)
      else if c == '"' || c == '\'' || c == '(' || isUnprintable c then
        (.wrong, 0)
      else (UrlState.inside, 0)

theorem urlLengthFrom_succ (state : UrlState) (pending : Nat) (c : Char)
    (s : List Char) :
    urlLengthFrom state (pending + 1) (c :: s) =
      ((urlLengthFrom state pending s).1 + 1,
        (urlLengthFrom state pending s).2) := by
  cases state <;> rfl

theorem urlLengthFrom_cons (state : UrlState) (c : Char) (s : List Char) :
    urlLengthFrom state 0 (c :: s) =
      if c == ')' then (1, state != .wrong)
      else
        let step := urlStep state c s
        ((urlLengthFrom step.1 step.2 s).1 + 1,
          (urlLengthFrom step.1 step.2 s).2) := by
  cases state <;> rfl

theorem urlStep_append {state : UrlState} {c : Char} (hs : s ≠ [])
    (hx : StartsStop x) (hsx : Apart s x)
    (h : (urlStep state c s).2 = s.length → headIs isSpace x = false) :
    urlStep state c (s ++ x) = urlStep state c s := by
  cases state with
  | wrong =>
      simp only [urlStep]
      rw [headIs_append hs]
  | behind => rfl
  | before | inside =>
      simp only [urlStep, startsEscape_append hs] at h ⊢
      split
      · rfl
      · next hspace =>
          split
          · next hbackslash =>
              split
              · next hescape =>
                  rw [if_neg hspace, if_pos hbackslash, if_pos hescape] at h
                  rw [escapeLength_append hs hx hsx fun hdigits =>
                    h (escapeLength_of_endsInDigits hdigits)]
              · rfl
          · rfl

theorem urlStep_le {state : UrlState} {c : Char} (hs : s ≠ []) :
    (urlStep state c s).2 ≤ s.length := by
  have hpos := List.length_pos_iff.2 hs
  cases state with
  | wrong =>
      simp only [urlStep]
      split
      · exact hpos
      · exact Nat.zero_le _
  | behind => exact Nat.zero_le _
  | before | inside =>
      simp only [urlStep]
      split
      · exact Nat.zero_le _
      · split
        · split
          · exact escapeLength_le s
          · exact Nat.zero_le _
        · split <;> exact Nat.zero_le _

theorem urlLengthFrom_length (state : UrlState) (s x : List Char) :
    (urlLengthFrom state s.length (s ++ x)).1 =
      s.length + (urlLengthFrom state 0 x).1 := by
  induction s with
  | nil => rw [List.length_nil, List.nil_append, Nat.zero_add]
  | cons c s ih =>
      rw [List.length_cons, List.cons_append, urlLengthFrom_succ, ih]
      omega

theorem urlLengthFrom_pos (state : UrlState) (pending : Nat) (c : Char)
    (s : List Char) : 0 < (urlLengthFrom state pending (c :: s)).1 := by
  cases pending with
  | zero =>
      rw [urlLengthFrom_cons]
      split <;> exact Nat.succ_pos _
  | succ pending =>
      rw [urlLengthFrom_succ]
      exact Nat.succ_pos _

/-- What follows an address that has been closed does not change it. -/
theorem urlLengthFrom_append {state : UrlState} {pending : Nat}
    (hpending : pending ≤ s.length) (hx : StartsStop x) (hsx : Apart s x)
    (h : (urlLengthFrom state pending (s ++ [';'])).1 ≤ s.length) :
    urlLengthFrom state pending (s ++ x) = urlLengthFrom state pending s := by
  induction s generalizing state pending with
  | nil =>
      have hpos := urlLengthFrom_pos state pending ';' []
      exact absurd h (Nat.not_le.2 hpos)
  | cons c s ih =>
      rw [List.length_cons] at hpending h
      cases pending with
      | succ pending =>
          rw [List.cons_append, urlLengthFrom_succ] at h ⊢
          rw [urlLengthFrom_succ, ih (Nat.le_of_succ_le_succ hpending)
            hsx.tail (Nat.le_of_succ_le_succ h)]
      | zero =>
          rw [List.cons_append, urlLengthFrom_cons] at h ⊢
          rw [urlLengthFrom_cons]
          by_cases hclose : (c == ')') = true
          · rw [if_pos hclose, if_pos hclose]
          · rw [if_neg hclose] at h
            rw [if_neg hclose, if_neg hclose]
            simp only [] at h ⊢
            have hs : s ≠ [] := by
              rintro rfl
              have hpos := urlLengthFrom_pos
                (urlStep state c [';']).1 (urlStep state c [';']).2 ';' []
              simp only [List.nil_append, List.length_nil] at h
              omega
            rw [urlStep_append hs startsBreak_semicolon.startsStop
              (.of_not_space rfl) fun _ => rfl] at h
            rw [urlStep_append hs hx hsx.tail, ih (urlStep_le hs) hsx.tail
              (Nat.le_of_succ_le_succ h)]
            intro hlength
            have hpos := urlLengthFrom_pos (urlStep state c s).1 0 ';' []
            rw [hlength, urlLengthFrom_length] at h
            omega

theorem startsQuoted_append (h : ∃ c ∈ s, isSpace c = false) :
    startsQuoted (s ++ x) = startsQuoted s := by
  induction s with
  | nil =>
      obtain ⟨c, hc, -⟩ := h
      cases hc
  | cons c s ih =>
      rw [startsQuoted, startsQuoted, List.cons_append, List.dropWhile_cons,
        List.dropWhile_cons]
      split
      · next hspace =>
          obtain ⟨d, hd, hdspace⟩ := h
          refine ih ⟨d, (List.mem_cons.1 hd).resolve_left ?_, hdspace⟩
          rintro rfl
          rw [hspace] at hdspace
          cases hdspace
      · rfl

/-- Blanks alone are no address. -/
theorem urlLengthFrom_blanks (hs : ∀ c ∈ s, isSpace c = true) :
    (urlLengthFrom .before 0 (s ++ x)).1 =
      s.length + (urlLengthFrom .before 0 x).1 := by
  induction s with
  | nil => rw [List.length_nil, List.nil_append, Nat.zero_add]
  | cons c s ih =>
      have hc := hs c (by simp)
      have hclose : ¬ (c == ')') = true := by
        intro heq
        rw [eq_of_beq heq] at hc
        exact absurd hc (by decide)
      rw [List.cons_append, urlLengthFrom_cons, if_neg hclose]
      simp only [urlStep, hc, if_true, beq_self_eq_true]
      rw [ih fun d hd => hs d (List.mem_cons_of_mem c hd), List.length_cons]
      omega

theorem startsQuoted_blanks (hs : ∀ c ∈ s, isSpace c = true) :
    startsQuoted (s ++ [';']) = false := by
  induction s with
  | nil => rfl
  | cons c s ih =>
      rw [startsQuoted, List.cons_append, List.dropWhile_cons,
        if_pos (hs c (by simp))]
      exact ih fun d hd => hs d (List.mem_cons_of_mem c hd)

end CssVendor.Syntax
