import CssVendor.Proofs.Ended

/-!
# Texts that end with a token

The token before a semicolon takes it in only if the end of the text cuts that
token off. So a text is finished, and can be followed by others, if its last
token has its closing sign and does not end in a backslash.
-/

namespace CssVendor.Syntax

variable {s t : List Char}

/-- What is read at the head of a text reaches up to its end, which cuts it
off. -/
def CutOff (s : List Char) (r : TokenKind × Nat) : Prop :=
  r.2 = s.length ∧ Token.isEnded ⟨r.1, s⟩ = false

theorem isEnded_of_isNamed {kind : TokenKind} (h : kind.isNamed = true)
    (s : List Char) : Token.isEnded ⟨kind, s⟩ = !endsBare '\\' s := by
  cases kind <;> first | rfl | cases h

/-! ## Names -/

theorem nameLength_open (h : s.length < nameLength (s ++ [';'])) :
    nameLength s = s.length ∧ endsBare '\\' s = true :=
  nameLengthFrom_open (Nat.zero_le _) h

/-- A token that ends in a name, with characters before it that are no
backslash. -/
theorem cutOff_name {a : List Char} {k : TokenKind}
    (hk : k.isNamed = true) (ha : ∀ d ∈ a, d ≠ '\\')
    (h : t.length < nameLength (t ++ [';'])) :
    CutOff (a ++ t) (k, a.length + nameLength t) := by
  obtain ⟨hlength, hbare⟩ := nameLength_open h
  refine ⟨by rw [hlength, List.length_append], ?_⟩
  rw [isEnded_of_isNamed hk,
    endsBare_append fun d hd => ⟨ha d hd, ha d hd⟩, hbare]
  rfl

theorem headIs_ne_nil {p : Char → Bool} (h : headIs p s = true) : s ≠ [] := by
  rintro rfl
  cases h

theorem cutOff_readNumber {n : Nat} (hn : n ≤ s.length)
    (hplain : ∀ d ∈ s.take n, d ≠ '\\')
    (h : s.length < (readNumber (s ++ [';']) n).2) :
    CutOff s (readNumber s n) := by
  have hlength := List.length_drop (l := s) (i := n)
  simp only [readNumber, drop_append hn,
    startsIdent_append startsBreak_semicolon fun _ => rfl,
    headIs_append_break startsBreak_semicolon (p := (· == '%')) (by decide)]
    at h ⊢
  split
  · next hpercent =>
      have hpos := List.length_pos_iff.2 (headIs_ne_nil hpercent)
      rw [if_pos hpercent] at h
      simp only [] at h
      omega
  · next hpercent =>
      rw [if_neg hpercent] at h
      split
      · next hident =>
          rw [if_pos hident] at h
          simp only [] at h
          have hname := cutOff_name (a := s.take n) (t := s.drop n)
            (k := .dimension
              (unescape ((s.drop n).take (nameLength (s.drop n)))))
            rfl hplain (by omega)
          rw [List.take_append_drop, List.length_take_of_le hn] at hname
          exact hname
      · next hident =>
          rw [if_neg hident] at h
          simp only [] at h
          omega

theorem cutOff_readHash
    (h : ('#' :: s).length < (readHash (s ++ [';'])).2) :
    CutOff ('#' :: s) (readHash s) := by
  simp only [readHash, startsIdent_append startsBreak_semicolon fun _ => rfl,
    headIs_append_break startsBreak_semicolon
      (p := fun c => c.isDigit || c == '-') (by decide)] at h ⊢
  split
  · next hname =>
      rw [if_pos hname] at h
      rw [Nat.add_comm _ 1]
      exact cutOff_name (a := ['#']) rfl (by decide)
        (Nat.lt_of_succ_lt_succ h)
  · next hname =>
      rw [if_neg hname] at h
      simp only [List.length_cons] at h
      omega

theorem cutOff_readAtKeyword
    (h : ('@' :: s).length < (readAtKeyword (s ++ [';'])).2) :
    CutOff ('@' :: s) (readAtKeyword s) := by
  simp only [readAtKeyword,
    startsIdent_append startsBreak_semicolon fun _ => rfl] at h ⊢
  split
  · next hname =>
      rw [if_pos hname] at h
      rw [Nat.add_comm _ 1]
      exact cutOff_name (a := ['@']) rfl (by decide)
        (Nat.lt_of_succ_lt_succ h)
  · next hname =>
      rw [if_neg hname] at h
      simp only [List.length_cons] at h
      omega

/-! ## Addresses and strings -/

theorem cutOff_behindName {a : List Char} (name : List Char)
    (h : a.length + t.length < (behindName name a.length (t ++ [';'])).2) :
    CutOff (a ++ t) (behindName name a.length t) := by
  by_cases ht : headIs (· == '(') t = true
  · cases t with
    | nil => cases ht
    | cons c rest =>
        obtain rfl := eq_of_beq ht
        simp only [List.cons_append, behindName, startsQuoted_semicolon,
          List.length_cons] at h ⊢
        split at h
        · next hurl =>
            rw [if_pos hurl]
            simp only [] at h ⊢
            have hopen : rest.length <
                (urlLengthFrom .before 0 (rest ++ [';'])).1 := by omega
            obtain ⟨hlength, hbare⟩ :=
              urlLengthFrom_open (Nat.zero_le _) hopen
            refine ⟨?_, ?_⟩
            · simp only [hlength, List.length_append, List.length_cons]
              omega
            · split
              · next hgood =>
                  have hrest : endsBare ')' rest = false := hbare hgood
                  show endsBare ')' (a ++ '(' :: rest) = false
                  by_cases hnil : rest = []
                  · subst hnil
                    rw [endsBare_concat]
                    rfl
                  · rw [endsBare_append_cons (by decide) hnil, hrest]
              · rfl
        · simp only [] at h
          omega
  · have ht : headIs (· == '(') t = false := by simpa using ht
    rw [behindName_ident] at h
    · simp only [] at h
      omega
    · rw [headIs_append_break startsBreak_semicolon (by decide)]
      exact ht

theorem cutOff_readIdentLike (h : s.length < (readIdentLike (s ++ [';'])).2) :
    CutOff s (readIdentLike s) := by
  rw [readIdentLike_eq] at h ⊢
  have hle : nameLength s ≤ s.length := nameLengthFrom_le (Nat.zero_le _)
  by_cases hopen : s.length < nameLength (s ++ [';'])
  · obtain ⟨hlength, hbare⟩ := nameLength_open hopen
    rw [hlength, List.drop_length, behindName_ident rfl]
    refine ⟨rfl, ?_⟩
    rw [isEnded_of_isNamed rfl, hbare]
    rfl
  · obtain ⟨hvalue, hlength⟩ :=
      nameLength_append startsBreak_semicolon (.of_not_space rfl)
        (Nat.not_lt.1 hopen)
    have heq := hlength.resolve_right fun h => by cases h.1
    rw [hvalue, heq, drop_append hle] at h
    have hcut := cutOff_behindName (a := s.take (nameLength s))
      (t := s.drop (nameLength s)) (unescape (s.take (nameLength s)))
    rw [List.length_take_of_le hle, List.take_append_drop,
      List.length_drop] at hcut
    exact hcut (by omega)

theorem cutOff_readString {quote : Char}
    (hquote : (quote == '"' || quote == '\'') = true)
    (h : (quote :: s).length < (readString quote (s ++ [';'])).2) :
    CutOff (quote :: s) (readString quote s) := by
  have hplain : isEscapeChar quote = false ∧ quote ≠ '\\' := by
    rw [Bool.or_eq_true] at hquote
    rcases hquote with hquote | hquote
    · rw [eq_of_beq hquote]
      decide
    · rw [eq_of_beq hquote]
      decide
  obtain ⟨hlength, hbare⟩ := stringLengthFrom_open hplain (Nat.zero_le _)
    (Nat.lt_of_succ_lt_succ h)
  rw [readString, hlength]
  exact ⟨rfl, hbare⟩

/-! ## Tokens -/

theorem takeWhile_isSpace_semicolon (s : List Char) :
    (s ++ [';']).takeWhile isSpace = s.takeWhile isSpace := by
  induction s with
  | nil => rfl
  | cons c s ih =>
      rw [List.cons_append, List.takeWhile_cons, List.takeWhile_cons, ih]

theorem cutOff_readPlain {c : Char}
    (h : (c :: s).length < (readPlain c (s ++ [';'])).2) :
    CutOff (c :: s) (readPlain c s) := by
  obtain ⟨r, hr, hread⟩ := exists_begins c s
  have halone := hread [] (Or.inl rfl)
  rw [List.append_nil] at halone
  rw [hread [';'] (follows_semicolon _)] at h
  rw [halone]
  cases hr with
  | space hspace =>
      have hle := (List.takeWhile_prefix isSpace (l := s)).length_le
      simp only [takeWhile_isSpace_semicolon, List.length_cons] at h
      omega
  | quote hquote =>
      simp only [List.append_nil] at h ⊢
      exact cutOff_readString hquote h
  | number hpos =>
      simp only [List.append_nil] at h ⊢
      exact cutOff_readNumber (numberLength_le _)
        (forall_mem_take_numberLength _) h
  | name hname =>
      simp only [List.append_nil] at h ⊢
      exact cutOff_readIdentLike h
  | hash hhash =>
      subst hhash
      simp only [List.append_nil] at h ⊢
      exact cutOff_readHash h
  | atSign hat =>
      subst hat
      simp only [List.append_nil] at h ⊢
      exact cutOff_readAtKeyword h
  | sign kind hpos hn => exact absurd h (Nat.not_lt.2 hn)

/-- The token at the head of a text that takes in a semicolon is cut off by the
end of the text. -/
theorem cutOff_readKind (hs : s ≠ [])
    (h : s.length < (readKind (s ++ [';'])).2) : CutOff s (readKind s) := by
  cases s with
  | nil => exact absurd rfl hs
  | cons c s =>
      have hsemicolon := startsBreak_semicolon
      simp only [List.cons_append, readKind_cons,
        prefix_append_break hsemicolon (w := ['*']) (by decide),
        cdo_prefix_append hsemicolon,
        prefix_append_break hsemicolon (w := ['-', '>']) (by decide)] at h
      rw [readKind_cons]
      split
      · next hcomment =>
          rw [if_pos hcomment] at h
          obtain ⟨rfl, t, rfl⟩ := hcomment
          have hopen : t.length + 2 < commentLength (t ++ [';']) + 2 := h
          obtain ⟨hlength, hsuffix⟩ := commentLength_open (s := t) (by omega)
          refine ⟨congrArg (· + 2) hlength, ?_⟩
          exact Bool.eq_false_iff.2 fun hended =>
            hsuffix (List.isSuffixOf_iff_suffix.1 hended)
      · next hcomment =>
          rw [if_neg hcomment] at h
          split
          · next hcdo =>
              rw [if_pos hcdo] at h
              have hle := hcdo.2.length_le
              simp only [List.length_cons, List.length_nil] at h hle
              omega
          · next hcdo =>
              rw [if_neg hcdo] at h
              split
              · next hcdc =>
                  rw [if_pos hcdc] at h
                  have hle := hcdc.2.length_le
                  simp only [List.length_cons, List.length_nil] at h hle
                  omega
              · next hcdc =>
                  rw [if_neg hcdc] at h
                  exact cutOff_readPlain h

/-- A text is finished if its last token is not cut off. -/
theorem finished_of_isEnded {s : List Char}
    (h : ∀ t ∈ (tokenize s).getLast?, t.isEnded = true) : Finished s := by
  by_cases hs : s = []
  · subst hs
    rfl
  · have hpos := readKind_pos hs
    have hlength := List.length_pos_iff.2 hs
    have hend : (readKind (s ++ [';'])).2 ≤ s.length := by
      refine Nat.not_lt.1 fun hopen => ?_
      obtain ⟨hall, hcut⟩ := cutOff_readKind hs hopen
      rw [tokenize_eq hs, hall, List.take_length, List.drop_length] at h
      have hended : Token.isEnded ⟨(readKind s).1, s⟩ = true := h _ rfl
      rw [hcut] at hended
      cases hended
    have heq := readKind_append_semicolon hs hend
    have hle : (readKind s).2 ≤ s.length := by
      rw [← heq]
      exact hend
    have hrest : Finished (s.drop (readKind s).2) := by
      refine finished_of_isEnded fun t ht => h t ?_
      rw [tokenize_eq hs, List.getLast?_cons, ht]
      rfl
    rw [Finished, tokenize_eq (s := s ++ [';']) (by simp), tokenize_eq hs, heq,
      drop_append hle, List.take_append_of_le_length hle, hrest]
    rfl
termination_by s.length
decreasing_by
  rw [List.length_drop]
  omega

end CssVendor.Syntax
