import CssVendor.Proofs.Seam
import Mathlib.Data.List.TakeWhile

/-!
# Tokens that the end of a text does not cut off

A comment, a string or an address is cut off if its closing sign is missing,
and any other token if it ends in a backslash with nothing behind. Whether a
closing sign or a backslash counts depends on the backslashes before it: one
that is itself written with a backslash is an ordinary character.

A semicolon that is taken in by the token before it shows that this token is
cut off, so that a text of which no token is cut off is finished.
-/

namespace CssVendor.Syntax

variable {s : List Char} {c d : Char}

/-- Whether a text ends in a character with an even number of backslashes
before it, so that none of them makes it an ordinary one. -/
def endsBare (c : Char) (s : List Char) : Bool :=
  match s.reverse with
  | [] => false
  | d :: before => d == c && (before.takeWhile (· == '\\')).length % 2 == 0

/-- Whether a token is not cut off by the end of a text. An address that went
wrong counts as cut off. -/
def Token.isEnded (t : Token) : Bool :=
  match t.kind with
  | .comment => ['*', '/'].isSuffixOf (t.text.drop 2)
  | .string => t.text.head?.any fun quote => endsBare quote (t.text.drop 1)
  | .url => endsBare ')' t.text
  | .badUrl => false
  | _ => !endsBare '\\' t.text

/-! ## Backslashes before a character -/

theorem endsBare_concat (c : Char) (s : List Char) (d : Char) :
    endsBare c (s ++ [d]) =
      (d == c && (s.reverse.takeWhile (· == '\\')).length % 2 == 0) := by
  rw [endsBare, List.reverse_concat]

/-- What stands before another character does not matter. -/
theorem endsBare_append_cons (hd : d ≠ '\\') (hs : s ≠ []) (a : List Char) :
    endsBare c (a ++ d :: s) = endsBare c s := by
  obtain ⟨before, last, rfl⟩ := List.eq_nil_or_concat s |>.resolve_left hs
  rw [List.concat_eq_append]
  have happend : a ++ d :: (before ++ [last]) = (a ++ d :: before) ++ [last] := by
    simp
  have hstop : (d :: a.reverse).takeWhile (· == '\\') = [] := by
    rw [List.takeWhile_cons, if_neg (by simpa using hd)]
  rw [happend, endsBare_concat, endsBare_concat, List.reverse_append,
    List.reverse_cons, List.append_assoc, List.singleton_append,
    List.takeWhile_append, hstop]
  split
  · next hall => rw [List.append_nil, ← hall]
  · rfl

theorem endsBare_cons (hd : d ≠ '\\') (hs : s ≠ []) :
    endsBare c (d :: s) = endsBare c s :=
  endsBare_append_cons hd hs []

/-- A backslash and the character behind it do not matter. -/
theorem endsBare_backslash (c d : Char) (s : List Char) :
    endsBare c ('\\' :: d :: s) = endsBare c s := by
  rcases List.eq_nil_or_concat s with rfl | ⟨before, last, rfl⟩
  · simp [endsBare]
  · have hpair : (['\\', d].reverse.takeWhile (· == '\\')).length % 2 = 0 := by
      by_cases hd : d = '\\' <;> simp [hd]
    rw [List.concat_eq_append, ← List.cons_append, ← List.cons_append,
      endsBare_concat, endsBare_concat,
      show '\\' :: d :: before = ['\\', d] ++ before from rfl,
      List.reverse_append, List.takeWhile_append]
    split
    · next hall =>
        rw [List.length_append, ← hall, Nat.add_mod, hpair, Nat.add_zero,
          Nat.mod_mod]
    · rfl

/-- Characters that are no backslash and not the one that is looked for do not
matter. -/
theorem endsBare_append {a : List Char}
    (ha : ∀ d ∈ a, d ≠ '\\' ∧ d ≠ c) (s : List Char) :
    endsBare c (a ++ s) = endsBare c s := by
  rcases List.eq_nil_or_concat a with rfl | ⟨before, last, rfl⟩
  · rfl
  · rw [List.concat_eq_append] at ha ⊢
    obtain ⟨hbackslash, hne⟩ := ha last (by simp)
    by_cases hs : s = []
    · subst hs
      rw [List.append_nil, endsBare_concat]
      simp [hne, endsBare]
    · rw [List.append_assoc, List.singleton_append,
        endsBare_append_cons hbackslash hs]

/-! ## Escapes -/

/-- What an escape is made of behind its first character. -/
def isEscapeChar (c : Char) : Bool := isHexDigit c || isSpace c

theorem forall_mem_take_newlineLength (s : List Char) :
    ∀ d ∈ s.take (newlineLength s), isSpace d = true := by
  match s with
  | [] => simp
  | c :: s =>
      rw [newlineLength_cons]
      split
      · next hpair =>
          obtain ⟨rfl, hfeed⟩ := hpair
          cases s with
          | nil => cases hfeed
          | cons d s =>
              rw [eq_of_beq hfeed]
              simp only [List.take_succ_cons, List.take_zero]
              decide
      · split
        · next hnewline => simp [isSpace, hnewline]
        · simp

theorem forall_mem_take_escapeEndLength (s : List Char) :
    ∀ d ∈ s.take (escapeEndLength s), isSpace d = true := by
  rw [escapeEndLength]
  split
  · exact forall_mem_take_newlineLength s
  · split
    · next hspace =>
        cases s with
        | nil => cases hspace
        | cons c s => simpa [headIs] using hspace
    · simp

theorem forall_mem_take_escapeLength (s : List Char) :
    ∀ d ∈ (s.take (escapeLength s)).tail, isEscapeChar d = true := by
  simp only [escapeLength]
  split
  · cases s with
    | nil => simp
    | cons c s => simp
  · intro d hd
    have hd := List.mem_of_mem_tail hd
    rw [List.take_add] at hd
    rw [isEscapeChar, Bool.or_eq_true]
    rcases List.mem_append.1 hd with hd | hd
    · have hpre : escapeDigits s <+: s :=
        (List.takeWhile_prefix isHexDigit).trans (List.take_prefix 6 s)
      rw [← List.prefix_iff_eq_take.1 hpre] at hd
      exact Or.inl (List.mem_takeWhile_imp hd)
    · exact Or.inr (forall_mem_take_escapeEndLength _ d hd)

theorem forall_mem_take_stringEscapeLength (s : List Char) :
    ∀ d ∈ (s.take (stringEscapeLength s)).tail, isEscapeChar d = true := by
  rw [stringEscapeLength]
  split
  · intro d hd
    have hspace := forall_mem_take_newlineLength s d (List.mem_of_mem_tail hd)
    rw [isEscapeChar, hspace, Bool.or_true]
  · exact forall_mem_take_escapeLength s

theorem escapeLength_pos (hs : s ≠ []) : 0 < escapeLength s := by
  have hlength := List.length_pos_iff.2 hs
  simp only [escapeLength]
  split
  · omega
  · next hdigits =>
      have hpos : 0 < (escapeDigits s).length := by
        rw [List.length_pos_iff]
        simpa using hdigits
      omega

theorem stringEscapeLength_pos (hs : s ≠ []) : 0 < stringEscapeLength s := by
  rw [stringEscapeLength]
  split
  · next hnewline =>
      cases s with
      | nil => cases hnewline
      | cons c s =>
          have hc : isNewline c = true := hnewline
          rw [newlineLength_cons, if_pos hc]
          split <;> omega
  · exact escapeLength_pos hs

/-- An escape does not matter, of however many characters it is. -/
theorem endsBare_escape {n : Nat} (hn : 0 < n) (hs : s ≠ [])
    (htail : ∀ d ∈ (s.take n).tail, isEscapeChar d = true)
    (hc : isEscapeChar c = false) :
    endsBare c ('\\' :: s) = endsBare c (s.drop n) := by
  obtain ⟨n, rfl⟩ := Nat.exists_eq_succ_of_ne_zero (Nat.pos_iff_ne_zero.1 hn)
  cases s with
  | nil => exact absurd rfl hs
  | cons d s =>
      rw [List.take_succ_cons, List.tail_cons] at htail
      have ha : ∀ e ∈ s.take n, e ≠ '\\' ∧ e ≠ c := by
        intro e he
        have hescape := htail e he
        refine ⟨?_, ?_⟩
        · rintro rfl
          exact absurd hescape (by decide)
        · rintro rfl
          rw [hc] at hescape
          cases hescape
      rw [endsBare_backslash, List.drop_succ_cons,
        ← endsBare_append ha (s.drop n), List.take_append_drop]

/-! ## What takes in a semicolon -/

/-- A name that takes in what follows ends in a backslash. -/
theorem nameLengthFrom_open {pending : Nat} (hpending : pending ≤ s.length)
    (h : s.length < nameLengthFrom pending (s ++ [';'])) :
    nameLengthFrom pending s = s.length ∧
      endsBare '\\' (s.drop pending) = true := by
  induction s generalizing pending with
  | nil =>
      obtain rfl := Nat.le_zero.1 hpending
      exact absurd h (by decide)
  | cons c s ih =>
      rw [List.length_cons] at hpending h ⊢
      rw [List.cons_append] at h
      cases pending with
      | succ pending =>
          rw [nameLengthFrom] at h ⊢
          obtain ⟨hlength, hbare⟩ := ih (Nat.le_of_succ_le_succ hpending)
            (Nat.lt_of_succ_lt_succ h)
          exact ⟨by rw [hlength], hbare⟩
      | zero =>
          rw [nameLengthFrom] at h ⊢
          rw [List.drop_zero]
          by_cases hname : isNameChar c = true
          · rw [if_pos hname] at h ⊢
            obtain ⟨hlength, hbare⟩ := ih (Nat.zero_le _)
              (Nat.lt_of_succ_lt_succ h)
            have hne : c ≠ '\\' := by
              rintro rfl
              exact absurd hname (by decide)
            rw [List.drop_zero] at hbare
            rw [hlength, ← List.nil_append s, ← List.cons_append]
            refine ⟨rfl, ?_⟩
            have hs : s ≠ [] := by
              rintro rfl
              cases hbare
            exact (endsBare_cons hne hs).trans hbare
          · rw [if_neg hname, startsEscape_append_of_head (x := [';']) rfl] at h
            rw [if_neg hname]
            split at h
            · next hescape =>
                rw [if_pos hescape]
                have hbackslash : c = '\\' := by
                  rw [Bool.and_eq_true] at hescape
                  exact eq_of_beq hescape.1
                subst hbackslash
                by_cases hs : s = []
                · subst hs
                  exact ⟨rfl, rfl⟩
                · rw [escapeLength_append hs startsBreak_semicolon.startsStop
                    (.of_not_space rfl) fun _ => rfl] at h
                  obtain ⟨hlength, hbare⟩ := ih (escapeLength_le s)
                    (Nat.lt_of_succ_lt_succ h)
                  rw [hlength, endsBare_escape (escapeLength_pos hs) hs
                    (forall_mem_take_escapeLength s) (by decide)]
                  exact ⟨rfl, hbare⟩
            · exact absurd h (Nat.not_lt_zero _)

/-- A string that takes in what follows has no closing quote. -/
theorem stringLengthFrom_open {quote : Char} {pending : Nat}
    (hquote : isEscapeChar quote = false ∧ quote ≠ '\\')
    (hpending : pending ≤ s.length)
    (h : s.length < (stringLengthFrom quote pending (s ++ [';'])).1) :
    stringLengthFrom quote pending s = (s.length, true) ∧
      endsBare quote (s.drop pending) = false := by
  induction s generalizing pending with
  | nil => exact ⟨by cases pending <;> rfl, by simp [endsBare]⟩
  | cons c s ih =>
      rw [List.length_cons] at hpending h ⊢
      rw [List.cons_append] at h
      cases pending with
      | succ pending =>
          rw [stringLengthFrom_succ] at h ⊢
          obtain ⟨hlength, hbare⟩ := ih (Nat.le_of_succ_le_succ hpending)
            (Nat.lt_of_succ_lt_succ h)
          exact ⟨by rw [hlength], hbare⟩
      | zero =>
          rw [stringLengthFrom_cons] at h ⊢
          rw [List.drop_zero]
          split at h
          · simp only [] at h
            omega
          · next hclose =>
              split at h
              · exact absurd h (Nat.not_lt_zero _)
              · next hnewline =>
                  rw [if_neg hclose, if_neg hnewline]
                  have hne : c ≠ quote := by simpa using hclose
                  simp only [] at h ⊢
                  by_cases hbackslash : c = '\\'
                  · subst hbackslash
                    simp only [beq_self_eq_true, if_true] at h ⊢
                    by_cases hs : s = []
                    · subst hs
                      refine ⟨rfl, ?_⟩
                      rw [← List.nil_append ['\\'], endsBare_concat]
                      simp [hne]
                    · rw [stringEscapeLength_append hs
                        startsBreak_semicolon.startsStop (.of_not_space rfl)
                        fun _ => rfl] at h
                      obtain ⟨hlength, hbare⟩ := ih (stringEscapeLength_le s)
                        (Nat.lt_of_succ_lt_succ h)
                      rw [hlength, endsBare_escape (stringEscapeLength_pos hs)
                        hs (forall_mem_take_stringEscapeLength s) hquote.1]
                      exact ⟨rfl, hbare⟩
                  · have hbeq : (c == '\\') = false := by simpa using hbackslash
                    simp only [hbeq, Bool.false_eq_true, if_false] at h ⊢
                    obtain ⟨hlength, hbare⟩ := ih (Nat.zero_le _)
                      (Nat.lt_of_succ_lt_succ h)
                    refine ⟨by rw [hlength], ?_⟩
                    rw [← List.singleton_append, endsBare_append]
                    · exact hbare
                    · simpa using ⟨hbackslash, hne⟩

/-- A comment that takes in what follows has no closing sign. -/
theorem commentLength_open (h : s.length < commentLength (s ++ [';'])) :
    commentLength s = s.length ∧ ¬ ['*', '/'] <:+ s := by
  induction s with
  | nil => exact ⟨rfl, by simp⟩
  | cons c s ih =>
      rw [List.cons_append, commentLength_cons,
        headIs_append_break startsBreak_semicolon (by decide)] at h
      rw [commentLength_cons]
      split at h
      · next hpair =>
          cases s with
          | nil => cases hpair.2
          | cons d s =>
              simp only [List.length_cons] at h
              omega
      · next hpair =>
          obtain ⟨hlength, hsuffix⟩ := ih (Nat.lt_of_succ_lt_succ h)
          rw [if_neg hpair, hlength]
          refine ⟨rfl, fun hall => ?_⟩
          rcases List.suffix_cons_iff.1 hall with heq | hrest
          · obtain ⟨rfl, rfl⟩ := List.cons.inj heq
            exact hpair ⟨rfl, rfl⟩
          · exact hsuffix hrest

/-! ## Addresses -/

/-- An address that went wrong stays wrong. -/
theorem urlLengthFrom_wrong (pending : Nat) (s : List Char) :
    (urlLengthFrom .wrong pending s).2 = false := by
  induction s generalizing pending with
  | nil => cases pending <;> rfl
  | cons c s ih =>
      cases pending with
      | succ pending =>
          rw [urlLengthFrom_succ]
          exact ih pending
      | zero =>
          rw [urlLengthFrom_cons]
          split
          · rfl
          · exact ih _

theorem urlStep_of_ne {state : UrlState} (hc : c ≠ '\\') (s : List Char) :
    (urlStep state c s).2 = 0 := by
  have hne : (c == '\\') = false := by simpa using hc
  cases state with
  | wrong => simp [urlStep, hne]
  | behind => rfl
  | before | inside =>
      simp only [urlStep, hne]
      split
      · rfl
      · simp only [Bool.false_eq_true, if_false]
        split <;> rfl

/-- Behind a backslash an address goes on with an escape or goes wrong. -/
theorem urlStep_backslash (state : UrlState) (s : List Char) :
    (urlStep state '\\' s).1 = .wrong ∨
      urlStep state '\\' s = (.inside, escapeLength s) := by
  cases state with
  | wrong | behind => exact Or.inl rfl
  | before | inside =>
      by_cases hescape : startsEscape s = true
      · refine Or.inr ?_
        simp [urlStep, hescape, isSpace, isNewline]
      · refine Or.inl ?_
        simp [urlStep, hescape, isSpace, isNewline]

/-- An address that takes in what follows has no closing parenthesis, unless it
went wrong. -/
theorem urlLengthFrom_open {state : UrlState} {pending : Nat}
    (hpending : pending ≤ s.length)
    (h : s.length < (urlLengthFrom state pending (s ++ [';'])).1) :
    (urlLengthFrom state pending s).1 = s.length ∧
      ((urlLengthFrom state pending s).2 = true →
        endsBare ')' (s.drop pending) = false) := by
  induction s generalizing state pending with
  | nil =>
      refine ⟨by cases pending <;> rfl, fun _ => ?_⟩
      simp [endsBare]
  | cons c s ih =>
      rw [List.length_cons] at hpending h ⊢
      rw [List.cons_append] at h
      cases pending with
      | succ pending =>
          rw [urlLengthFrom_succ] at h ⊢
          obtain ⟨hlength, hbare⟩ := ih (Nat.le_of_succ_le_succ hpending)
            (Nat.lt_of_succ_lt_succ h)
          exact ⟨by rw [hlength], hbare⟩
      | zero =>
          rw [urlLengthFrom_cons] at h ⊢
          rw [List.drop_zero]
          split at h
          · simp only [] at h
            omega
          · next hclose =>
              rw [if_neg hclose]
              have hne : c ≠ ')' := by simpa using hclose
              simp only [] at h ⊢
              by_cases hs : s = []
              · subst hs
                refine ⟨rfl, fun _ => ?_⟩
                rw [← List.nil_append [c], endsBare_concat]
                simp [hne]
              · rw [urlStep_append hs startsBreak_semicolon.startsStop
                  (.of_not_space rfl) fun _ => rfl] at h
                obtain ⟨hlength, hbare⟩ := ih (urlStep_le hs)
                  (Nat.lt_of_succ_lt_succ h)
                rw [hlength]
                refine ⟨rfl, fun hgood => ?_⟩
                have hbare := hbare hgood
                by_cases hbackslash : c = '\\'
                · -- A good address has an escape here.
                  subst hbackslash
                  rcases urlStep_backslash state s with hwrong | hstep
                  · rw [hwrong, urlLengthFrom_wrong] at hgood
                    cases hgood
                  · rw [hstep] at hbare
                    rw [endsBare_escape (escapeLength_pos hs) hs
                      (forall_mem_take_escapeLength s) (by decide)]
                    exact hbare
                · rw [urlStep_of_ne hbackslash] at hbare
                  rw [endsBare_cons hbackslash hs]
                  exact hbare

theorem startsQuoted_semicolon (s : List Char) :
    startsQuoted (s ++ [';']) = startsQuoted s := by
  induction s with
  | nil => rfl
  | cons c s ih =>
      rw [startsQuoted, startsQuoted, List.cons_append, List.dropWhile_cons,
        List.dropWhile_cons]
      split
      · exact ih
      · rfl

/-! ## Numbers -/

theorem not_backslash_of_isDigit (hc : c.isDigit = true) : c ≠ '\\' := by
  rintro rfl
  exact absurd hc (by decide)

theorem forall_mem_take_digitsLength (s : List Char) :
    ∀ d ∈ s.take (digitsLength s), d ≠ '\\' := by
  intro d hd
  rw [digitsLength, ← List.prefix_iff_eq_take.1 (List.takeWhile_prefix _)] at hd
  exact not_backslash_of_isDigit (List.mem_takeWhile_imp hd)

theorem forall_mem_take_signLength (s : List Char) :
    ∀ d ∈ s.take (signLength s), d ≠ '\\' := by
  cases s with
  | nil => simp
  | cons c s =>
      rw [signLength]
      split
      · next hsign =>
          intro d hd
          rw [List.take_succ_cons, List.take_zero, List.mem_singleton] at hd
          rintro rfl
          rw [← hd] at hsign
          exact absurd hsign (by simp [headIs])
      · simp

theorem forall_mem_take_add {p : Char → Prop} {m n : Nat}
    (hm : ∀ d ∈ s.take m, p d) (hn : ∀ d ∈ (s.drop m).take n, p d) :
    ∀ d ∈ s.take (m + n), p d := by
  intro d hd
  rw [List.take_add] at hd
  exact (List.mem_append.1 hd).elim (hm d) (hn d)

theorem forall_mem_take_fractionLength (s : List Char) :
    ∀ d ∈ s.take (fractionLength s), d ≠ '\\' := by
  unfold fractionLength
  split
  · next t =>
      split
      · intro d hd
        rw [List.take_succ_cons] at hd
        rcases List.mem_cons.1 hd with rfl | hd
        · decide
        · exact forall_mem_take_digitsLength t d hd
      · simp
  · simp

theorem forall_mem_take_exponentLength (s : List Char) :
    ∀ d ∈ s.take (exponentLength s), d ≠ '\\' := by
  cases s with
  | nil => simp
  | cons c s =>
      simp only [exponentLength]
      split
      · next he =>
          rw [Nat.add_assoc]
          refine forall_mem_take_add (m := 1) ?_ ?_
          · rintro d hd rfl
            rw [List.take_succ_cons, List.take_zero, List.mem_singleton] at hd
            rw [← hd] at he
            exact absurd he (by simp)
          · exact forall_mem_take_add (forall_mem_take_signLength s)
              (forall_mem_take_digitsLength _)
      · simp

/-- There is no backslash in a number. -/
theorem forall_mem_take_numberLength (s : List Char) :
    ∀ d ∈ s.take (numberLength s), d ≠ '\\' := by
  simp only [numberLength]
  split
  · simp
  · refine forall_mem_take_add (forall_mem_take_add (forall_mem_take_add ?_ ?_)
      ?_) ?_
    · exact forall_mem_take_signLength s
    · exact forall_mem_take_digitsLength _
    · exact forall_mem_take_fractionLength _
    · exact forall_mem_take_exponentLength _

end CssVendor.Syntax
