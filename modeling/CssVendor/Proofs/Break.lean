import CssVendor.Syntax.Lexer

/-!
# Characters that end a token

How long a token is depends on what follows the text it stands in, but for most
tokens one character of it is enough. Behind a blank, a colon, a comma, a
semicolon, an exclamation mark or a curly bracket it does not matter any more
what else there is: no name, number or sign goes on with one of these.

There are two exceptions. What is open at the end of a text, that is a string,
a comment, an address or a backslash, takes in whatever follows. And a blank or
a line end behind an escape in hexadecimal digits belongs to the escape. The
lemmas here measure against a text with a semicolon behind it: as long as the
semicolon is not taken in, nothing was open.
-/

namespace CssVendor.Syntax

-- Without this, `decide` goes through all characters there are.
instance (priority := high) decidableForallMem {p : Char → Prop}
    [DecidablePred p] (s : List Char) : Decidable (∀ c ∈ s, p c) :=
  List.decidableBAll p s

variable {s x : List Char} {p : Char → Bool}

/-- The characters that end a token. -/
def breaks : List Char :=
  [' ', '\t', '\n', '\r', '\x0c', ':', ',', ';', '!', '\x7b', '\x7d']

/-- Characters that make a name or a function of what stands before them. -/
def extendsName (c : Char) : Bool :=
  isNameChar c || c == '\\' || c == '('

/-- A text begins with a character that ends a token, and does not make another
token out of it: `!--` could end the opening of a comment in a page, and behind
a blank that belongs to an escape the name could go on. -/
def StartsBreak (x : List Char) : Prop :=
  ∃ c b, x = c :: b ∧ c ∈ breaks ∧ (c = '!' → headIs (· == '-') b = false) ∧
    headIs extendsName (x.drop (escapeEndLength x)) = false

/-- Only one of two texts has a blank where they meet, so that no white space
and no line end is made of two parts. -/
def Apart (s x : List Char) : Prop :=
  headIs isSpace x = true → ∀ c ∈ s.getLast?, isSpace c = false

theorem Apart.of_not_space (hx : headIs isSpace x = false) : Apart s x := by
  intro hspace
  rw [hx] at hspace
  cases hspace

theorem Apart.drop (h : Apart s x) (n : Nat) : Apart (s.drop n) x := by
  intro hspace c hc
  rw [List.getLast?_drop] at hc
  split at hc
  · cases hc
  · exact h hspace c hc

theorem Apart.tail {c : Char} (h : Apart (c :: s) x) : Apart s x := h.drop 1

theorem headIs_newline_of_space (hx : headIs isSpace x = false) :
    headIs isNewline x = false := by
  cases x with
  | nil => rfl
  | cons c b =>
      simp only [headIs, isSpace, Bool.or_eq_false_iff] at hx ⊢
      exact hx.2

theorem escapeEndLength_of_not_space (hx : headIs isSpace x = false) :
    escapeEndLength x = 0 := by
  rw [escapeEndLength, headIs_newline_of_space hx, hx]
  rfl

theorem startsBreak_cons {c : Char} {b : List Char} (hc : c ∈ breaks)
    (hbang : c ≠ '!') (hblank : isSpace c = false) : StartsBreak (c :: b) := by
  have hextends : ∀ c ∈ breaks, extendsName c = false := by decide
  have hend : escapeEndLength (c :: b) = 0 :=
    escapeEndLength_of_not_space hblank
  refine ⟨c, b, rfl, hc, fun h => absurd h hbang, ?_⟩
  rw [hend]
  exact hextends c hc

theorem headIs_break (hx : StartsBreak x)
    (hp : ∀ c ∈ breaks, p c = false) : headIs p x = false := by
  obtain ⟨c, b, rfl, hc, -⟩ := hx
  exact hp c hc

theorem headIs_append (hs : s ≠ []) : headIs p (s ++ x) = headIs p s := by
  cases s with
  | nil => exact absurd rfl hs
  | cons c s => rfl

theorem headIs_append_of_head (hx : headIs p x = false) :
    headIs p (s ++ x) = headIs p s := by
  cases s with
  | nil => exact hx
  | cons c s => rfl

theorem headIs_append_break (hx : StartsBreak x)
    (hp : ∀ c ∈ breaks, p c = false) : headIs p (s ++ x) = headIs p s :=
  headIs_append_of_head (headIs_break hx hp)

theorem takeWhile_append_of_head (hx : headIs p x = false) :
    (s ++ x).takeWhile p = s.takeWhile p := by
  induction s with
  | nil =>
      cases x with
      | nil => rfl
      | cons c b =>
          have hc : p c = false := hx
          rw [List.nil_append, List.takeWhile_cons, hc]
          rfl
  | cons c s ih =>
      rw [List.cons_append, List.takeWhile_cons, List.takeWhile_cons, ih]

theorem takeWhile_take_append_of_head (hx : headIs p x = false) (n : Nat) :
    ((s ++ x).take n).takeWhile p = (s.take n).takeWhile p := by
  induction s generalizing n with
  | nil =>
      cases x with
      | nil => rfl
      | cons c b =>
          cases n with
          | zero => rfl
          | succ n =>
              have hc : p c = false := hx
              rw [List.nil_append, List.take_succ_cons, List.takeWhile_cons,
                hc]
              rfl
  | cons c s ih =>
      cases n with
      | zero => rfl
      | succ n =>
          rw [List.cons_append, List.take_succ_cons, List.take_succ_cons,
            List.takeWhile_cons, List.takeWhile_cons, ih]

/-- Characters behind which no name and no number goes on: those that end a
token, and besides them the slash of a comment. -/
def stops : List Char := breaks ++ ['/']

/-- A text begins with such a character. -/
def StartsStop (x : List Char) : Prop := ∃ c b, x = c :: b ∧ c ∈ stops

theorem StartsBreak.startsStop (hx : StartsBreak x) : StartsStop x := by
  obtain ⟨c, b, rfl, hc, -⟩ := hx
  exact ⟨c, b, rfl, List.mem_append_left _ hc⟩

theorem headIs_stop (hx : StartsStop x) (hp : ∀ c ∈ stops, p c = false) :
    headIs p x = false := by
  obtain ⟨c, b, rfl, hc⟩ := hx
  exact hp c hc

theorem headIs_append_stop (hx : StartsStop x) (hp : ∀ c ∈ stops, p c = false) :
    headIs p (s ++ x) = headIs p s :=
  headIs_append_of_head (headIs_stop hx hp)

/-! ## Numbers -/

theorem digitsLength_append (hx : StartsStop x) :
    digitsLength (s ++ x) = digitsLength s := by
  rw [digitsLength, digitsLength,
    takeWhile_append_of_head (headIs_stop hx (by decide))]

theorem signLength_append (hx : StartsStop x) :
    signLength (s ++ x) = signLength s := by
  rw [signLength, signLength, headIs_append_stop hx (by decide)]

theorem fractionLength_append (hx : StartsStop x) :
    fractionLength (s ++ x) = fractionLength s := by
  cases s with
  | nil =>
      have hdot := headIs_stop (p := (· == '.')) hx (by decide)
      rw [List.nil_append]
      unfold fractionLength
      split
      · cases hdot
      · rfl
  | cons c s =>
      rw [List.cons_append]
      unfold fractionLength
      split
      · next t h =>
          obtain ⟨rfl, rfl⟩ := List.cons.inj h
          simp only [headIs_append_stop hx (p := Char.isDigit) (by decide),
            digitsLength_append hx]
      · next hdot =>
          split
          · next t h =>
              obtain ⟨rfl, rfl⟩ := List.cons.inj h
              exact absurd rfl (hdot (s ++ x))
          · rfl

theorem digitsLength_le (s : List Char) : digitsLength s ≤ s.length :=
  (List.takeWhile_prefix Char.isDigit).length_le

theorem signLength_le (s : List Char) : signLength s ≤ s.length := by
  cases s with
  | nil => exact Nat.le_refl 0
  | cons c s =>
      rw [signLength, List.length_cons]
      split <;> omega

theorem fractionLength_le (s : List Char) : fractionLength s ≤ s.length := by
  unfold fractionLength
  split
  · next t =>
      have h := digitsLength_le t
      rw [List.length_cons]
      split <;> omega
  · exact Nat.zero_le _

theorem drop_append {n : Nat} (hn : n ≤ s.length) :
    (s ++ x).drop n = s.drop n ++ x :=
  List.drop_append_of_le_length hn

theorem exponentLength_append (hx : StartsStop x) :
    exponentLength (s ++ x) = exponentLength s := by
  cases s with
  | nil =>
      have he := headIs_stop (p := fun c => c == 'e' || c == 'E') hx (by decide)
      obtain ⟨c, b, rfl, -⟩ := hx
      have hc : (c == 'e' || c == 'E') = false := he
      simp [exponentLength, hc]
  | cons c s =>
      simp only [List.cons_append, exponentLength, signLength_append hx,
        drop_append (signLength_le s), digitsLength_append hx]

theorem exponentLength_le (s : List Char) : exponentLength s ≤ s.length := by
  cases s with
  | nil => exact Nat.le_refl 0
  | cons c s =>
      have hsign := signLength_le s
      have hdigits := digitsLength_le (s.drop (signLength s))
      rw [List.length_drop] at hdigits
      simp only [exponentLength, List.length_cons]
      split <;> omega

/-- Where the parts of a number end, none of them ends behind the text. -/
theorem mantissaLength_le (s : List Char) :
    signLength s + digitsLength (s.drop (signLength s)) +
      fractionLength
        (s.drop (signLength s + digitsLength (s.drop (signLength s)))) ≤
      s.length := by
  have hsign := signLength_le s
  have hwhole := digitsLength_le (s.drop (signLength s))
  rw [List.length_drop] at hwhole
  have hfraction := fractionLength_le
    (s.drop (signLength s + digitsLength (s.drop (signLength s))))
  rw [List.length_drop] at hfraction
  omega

theorem numberLength_le (s : List Char) : numberLength s ≤ s.length := by
  have hmantissa := mantissaLength_le s
  simp only [numberLength]
  split
  · exact Nat.zero_le _
  · refine Nat.le_trans (Nat.add_le_add_left (exponentLength_le _) _) ?_
    rw [List.length_drop]
    omega

theorem numberLength_append (hx : StartsStop x) :
    numberLength (s ++ x) = numberLength s := by
  have hmantissa := mantissaLength_le s
  simp only [numberLength, signLength_append hx,
    drop_append (signLength_le s), digitsLength_append hx]
  rw [drop_append (by omega), fractionLength_append hx,
    drop_append hmantissa, exponentLength_append hx]

/-! ## Escapes -/

theorem startsEscape_append (hs : s ≠ []) :
    startsEscape (s ++ x) = startsEscape s := by
  rw [startsEscape, startsEscape, headIs_append hs]

theorem startsEscape_append_of_head (hx : headIs isNewline x = false) :
    startsEscape (s ++ x) = startsEscape s := by
  rw [startsEscape, startsEscape, headIs_append_of_head hx]

theorem startsIdent_cons (c : Char) (t : List Char) :
    startsIdent (c :: t) =
      if c = '-' then
        headIs (fun d => d == '\\' || isNameStart d || d == '-') t
      else if c = '\\' then startsEscape t
      else isNameStart c := by
  by_cases hhyphen : c = '-'
  · subst hhyphen
    rw [if_pos rfl]
    cases t with
    | nil => rfl
    | cons d t =>
        by_cases hbackslash : d = '\\'
        · subst hbackslash
          rfl
        · have hne : (d == '\\') = false := by simpa using hbackslash
          simp [startsIdent, headIs, hne]
  · by_cases hbackslash : c = '\\'
    · subst hbackslash
      rfl
    · simp [startsIdent, hhyphen, hbackslash]

/-- Only a line end can undo an escape, where the text is a backslash. -/
theorem startsIdent_append (hx : StartsBreak x)
    (hs : s = ['\\'] → headIs isNewline x = false) :
    startsIdent (s ++ x) = startsIdent s := by
  cases s with
  | nil =>
      obtain ⟨c, b, rfl, hc, -⟩ := hx
      have hne : ∀ c ∈ breaks, c ≠ '-' ∧ c ≠ '\\' ∧ isNameStart c = false := by
        decide
      obtain ⟨hhyphen, hbackslash, hstart⟩ := hne c hc
      rw [List.nil_append, startsIdent_cons, if_neg hhyphen,
        if_neg hbackslash, hstart]
      rfl
  | cons c s =>
      rw [List.cons_append, startsIdent_cons, startsIdent_cons,
        headIs_append_break hx (by decide)]
      by_cases hnil : c = '\\' ∧ s = []
      · obtain ⟨rfl, rfl⟩ := hnil
        rw [startsEscape_append_of_head (hs rfl)]
      · by_cases hs : s = []
        · rw [if_neg fun hc => hnil ⟨hc, hs⟩, if_neg fun hc => hnil ⟨hc, hs⟩]
        · rw [startsEscape_append hs]

theorem escapeDigits_append (hx : StartsStop x) :
    escapeDigits (s ++ x) = escapeDigits s :=
  takeWhile_take_append_of_head (headIs_stop hx (by decide)) 6

theorem newlineLength_cons (c : Char) (t : List Char) :
    newlineLength (c :: t) =
      if c = '\r' ∧ headIs (· == '\n') t = true then 2
      else if isNewline c then 1 else 0 := by
  by_cases hpair : c = '\r' ∧ headIs (· == '\n') t = true
  · rw [if_pos hpair]
    obtain ⟨rfl, hfeed⟩ := hpair
    cases t with
    | nil => cases hfeed
    | cons d t =>
        rw [eq_of_beq hfeed]
        rfl
  · rw [if_neg hpair, newlineLength]
    rintro t' rfl rfl
    exact hpair ⟨rfl, rfl⟩

theorem newlineLength_append (hs : s ≠ []) (hsx : Apart s x) :
    newlineLength (s ++ x) = newlineLength s := by
  cases s with
  | nil => exact absurd rfl hs
  | cons c s =>
      rw [List.cons_append, newlineLength_cons, newlineLength_cons]
      by_cases hs : s = []
      · subst hs
        have hpair : ¬ (c = '\r' ∧ headIs (· == '\n') ([] ++ x) = true) := by
          rintro ⟨rfl, hfeed⟩
          cases x with
          | nil => cases hfeed
          | cons d b =>
              obtain rfl := eq_of_beq hfeed
              exact absurd (hsx rfl '\r' rfl) (by decide)
        have halone : ¬ (c = '\r' ∧ headIs (· == '\n') [] = true) := by
          rintro ⟨-, ⟨⟩⟩
        rw [if_neg hpair, if_neg halone]
      · rw [headIs_append hs]

theorem escapeDigits_length_le (s : List Char) :
    (escapeDigits s).length ≤ s.length :=
  Nat.le_trans (List.takeWhile_prefix isHexDigit).length_le
    (List.length_take_le' 6 s)

theorem newlineLength_le (s : List Char) : newlineLength s ≤ s.length := by
  match s with
  | [] => exact Nat.le_refl 0
  | [c] =>
      rw [newlineLength_cons, if_neg (fun h => by cases h.2)]
      split
      · exact Nat.le_refl 1
      · exact Nat.zero_le 1
  | c :: d :: s =>
      rw [newlineLength_cons, List.length_cons, List.length_cons]
      split
      · omega
      · split <;> omega

theorem escapeEndLength_le (s : List Char) : escapeEndLength s ≤ s.length := by
  rw [escapeEndLength]
  split
  · exact newlineLength_le s
  · cases s with
    | nil => exact Nat.le_refl 0
    | cons c s =>
        rw [List.length_cons]
        split <;> omega

theorem escapeEndLength_append (hs : s ≠ []) (hsx : Apart s x) :
    escapeEndLength (s ++ x) = escapeEndLength s := by
  rw [escapeEndLength, escapeEndLength, headIs_append hs, headIs_append hs,
    newlineLength_append hs hsx]

/-- Whether the digits of an escape reach up to the end of the text. -/
def endsInDigits (s : List Char) : Prop :=
  s ≠ [] ∧ (escapeDigits s).length = s.length

theorem escapeLength_of_endsInDigits (h : endsInDigits s) :
    escapeLength s = s.length := by
  have hne : (escapeDigits s).isEmpty = false := by
    rw [List.isEmpty_eq_false_iff, ← List.length_pos_iff, h.2]
    exact List.length_pos_iff.2 h.1
  simp only [escapeLength, hne, h.2, List.drop_length]
  rfl

/-- White space behind the digits of an escape belongs to the escape. -/
theorem escapeLength_append_blank (h : endsInDigits s) (hx : StartsStop x) :
    escapeLength (s ++ x) = s.length + escapeEndLength x := by
  have hne : (escapeDigits s).isEmpty = false := by
    rw [List.isEmpty_eq_false_iff, ← List.length_pos_iff, h.2]
    exact List.length_pos_iff.2 h.1
  simp only [escapeLength, escapeDigits_append hx, hne, h.2, List.drop_left]
  rfl

/-- Nothing else that follows belongs to an escape. -/
theorem escapeLength_append (hs : s ≠ []) (hx : StartsStop x)
    (hsx : Apart s x) (h : endsInDigits s → headIs isSpace x = false) :
    escapeLength (s ++ x) = escapeLength s := by
  have hle := escapeDigits_length_le s
  simp only [escapeLength, escapeDigits_append hx, drop_append hle]
  split
  · have hpos := List.length_pos_iff.2 hs
    rw [List.length_append]
    omega
  · by_cases hrest : s.drop (escapeDigits s).length = []
    · have hlength : (escapeDigits s).length = s.length :=
        Nat.le_antisymm hle (List.drop_eq_nil_iff.1 hrest)
      rw [hrest, List.nil_append,
        escapeEndLength_of_not_space (h ⟨hs, hlength⟩)]
      rfl
    · rw [escapeEndLength_append hrest (hsx.drop _)]

theorem escapeLength_le (s : List Char) : escapeLength s ≤ s.length := by
  have hdigits := escapeDigits_length_le s
  simp only [escapeLength]
  split
  · exact Nat.min_le_right 1 _
  · have hend := escapeEndLength_le (s.drop (escapeDigits s).length)
    rw [List.length_drop] at hend
    omega

theorem escapeValue_append (hs : s ≠ []) (hx : StartsStop x) :
    escapeValue (s ++ x) = escapeValue s := by
  simp only [escapeValue, escapeDigits_append hx]
  cases s with
  | nil => exact absurd rfl hs
  | cons c s => rfl

end CssVendor.Syntax
