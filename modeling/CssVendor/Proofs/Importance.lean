import CssVendor.Sheet.Importance
import CssVendor.Syntax.Character
import Mathlib.Data.List.Basic
import Mathlib.Data.List.TakeWhile

/-!
# Trimmed texts and importance

A text with no blanks at its ends is what is left when blanks are written
around it and trimmed off again. The same goes for `!important` behind it; what
is split off is that word, unless the text ends in such a word of its own.
-/

namespace CssVendor.Text

variable {s : List Char}

/-- A text has no blanks at its ends. -/
def Trimmed (s : List Char) : Prop := trim s = s

instance (s : List Char) : Decidable (Trimmed s) :=
  inferInstanceAs (Decidable (_ = _))

theorem Trimmed.start (h : Trimmed s) : trimStart s = s := by
  have hstart := (List.dropWhile_suffix (l := s) isBlank)
  have hend := (List.dropWhile_suffix (l := (trimStart s).reverse) isBlank)
  have hlength := congrArg List.length h
  rw [trim, trimEnd, List.length_reverse] at hlength
  have hle := hend.length_le
  rw [List.length_reverse] at hle
  have hle' := hstart.length_le
  exact hstart.eq_of_length (by rw [trimStart] at hle hlength; omega)

theorem Trimmed.end (h : Trimmed s) : trimEnd s = s := by
  have htrim := h
  rw [Trimmed, trim, h.start] at htrim
  exact htrim

theorem Trimmed.head (h : Trimmed s) : ∀ c ∈ s.head?, isBlank c = false := by
  intro c hc
  cases s with
  | nil => cases hc
  | cons d s =>
      obtain rfl := Option.some.inj hc
      have hstart := h.start
      rw [trimStart, List.dropWhile_cons] at hstart
      split at hstart
      · have hle := (List.dropWhile_suffix (l := s) isBlank).length_le
        rw [hstart, List.length_cons] at hle
        omega
      · next hblank => simpa using hblank

theorem Trimmed.last (h : Trimmed s) :
    ∀ c ∈ s.getLast?, isBlank c = false := by
  intro c hc
  have hend := h.end
  rw [trimEnd, List.reverse_eq_iff] at hend
  cases hs : s.reverse with
  | nil =>
      rw [List.reverse_eq_nil_iff] at hs
      rw [hs] at hc
      cases hc
  | cons d t =>
      rw [List.getLast?_eq_head?_reverse, hs] at hc
      obtain rfl := Option.some.inj hc
      rw [hs, List.dropWhile_cons] at hend
      split at hend
      · have hle := (List.dropWhile_suffix (l := t) isBlank).length_le
        rw [hend, List.length_cons] at hle
        omega
      · next hblank => simpa using hblank

theorem dropWhile_of_head {p : Char → Bool} {t : List Char} (hs : s ≠ [])
    (h : ∀ c ∈ s.head?, p c = false) : (s ++ t).dropWhile p = s ++ t := by
  cases s with
  | nil => exact absurd rfl hs
  | cons c s =>
      rw [List.cons_append, List.dropWhile_cons, h c rfl]
      rfl

theorem Trimmed.of_ends (hhead : ∀ c ∈ s.head?, isBlank c = false)
    (hlast : ∀ c ∈ s.getLast?, isBlank c = false) : Trimmed s := by
  by_cases hs : s = []
  · rw [hs]
    rfl
  · have hstart := dropWhile_of_head (t := []) hs hhead
    rw [List.append_nil] at hstart
    rw [List.getLast?_eq_head?_reverse] at hlast
    have hend := dropWhile_of_head (t := []) (s := s.reverse) (by simpa) hlast
    rw [List.append_nil] at hend
    rw [Trimmed, trim, trimStart, hstart, trimEnd, hend, List.reverse_reverse]

theorem trimEnd_append {blanks : List Char} (h : Trimmed s)
    (hblanks : ∀ c ∈ blanks, isBlank c = true) :
    trimEnd (s ++ blanks) = s := by
  rw [trimEnd, List.reverse_append, List.dropWhile_append_of_pos
    fun c hc => hblanks c (List.mem_reverse.1 hc)]
  exact h.end

/-- Blanks around a trimmed text are what trimming takes off. -/
theorem trim_append {blanks blanks' : List Char} (h : Trimmed s)
    (hblanks : ∀ c ∈ blanks, isBlank c = true)
    (hblanks' : ∀ c ∈ blanks', isBlank c = true) :
    trim (blanks ++ (s ++ blanks')) = s := by
  rw [trim, trimStart, List.dropWhile_append_of_pos hblanks]
  by_cases hs : s = []
  · subst hs
    have hnil : blanks'.dropWhile isBlank = [] :=
      List.dropWhile_eq_nil_iff.2 hblanks'
    rw [List.nil_append, hnil]
    rfl
  · rw [dropWhile_of_head hs h.head, trimEnd_append h hblanks']

/-- Blanks at the end do not change what is left after trimming. -/
theorem trim_append_blanks {blanks : List Char}
    (h : ∀ c ∈ blanks, isBlank c = true) :
    trim (s ++ blanks) = trim s := by
  have hnil : blanks.dropWhile isBlank = [] :=
    List.dropWhile_eq_nil_iff.2 h
  rw [trim, trim, trimStart, trimStart, List.dropWhile_append]
  split
  · next hs =>
      rw [List.isEmpty_iff.1 hs, hnil]
  · rw [trimEnd, List.reverse_append, List.dropWhile_append_of_pos
      fun c hc => h c (List.mem_reverse.1 hc)]
    rfl

/-- White space of the sheet is blank. -/
theorem isBlank_of_isSpace {c : Char} (h : Syntax.isSpace c = true) :
    isBlank c = true := by
  simp only [Syntax.isSpace, Syntax.isNewline, Bool.or_eq_true,
    beq_iff_eq] at h
  rcases h with (rfl | rfl) | (rfl | rfl) | rfl <;> decide

theorem Trimmed.head_not_space (h : Trimmed s) :
    Syntax.headIs Syntax.isSpace s = false := by
  cases s with
  | nil => rfl
  | cons c s =>
      refine Bool.eq_false_iff.2 fun hspace => ?_
      have hblank := h.head c rfl
      rw [isBlank_of_isSpace hspace] at hblank
      cases hblank

theorem Trimmed.last_not_space (h : Trimmed s) :
    ∀ c ∈ s.getLast?, Syntax.isSpace c = false := by
  intro c hc
  refine Bool.eq_false_iff.2 fun hspace => ?_
  have hblank := h.last c hc
  rw [isBlank_of_isSpace hspace] at hblank
  cases hblank

end CssVendor.Text

namespace CssVendor.Sheet

open Text

variable {v : List Char}

/-- A text ends in an exclamation mark, blanks, and the word `important`. -/
def EndsImportant (v : List Char) : Prop :=
  ∃ before blanks word, v = before ++ '!' :: (blanks ++ word) ∧
    (∀ c ∈ blanks, isBlank c = true) ∧ isKeyword word "important" = true

/-- No character of the word is blank, in any letter case. -/
theorem isBlank_of_isKeyword {word : List Char}
    (h : isKeyword word "important" = true) :
    ∀ c ∈ word, isBlank c = false := by
  intro c hc
  have hlower : lower word = "important".toList := eq_of_beq h
  have hletters : ∀ code ∈ blankCodes,
      (Char.ofNat code).toLower ∉ "important".toList := by decide
  refine Bool.eq_false_iff.2 fun hblank => ?_
  refine hletters c.toNat (List.contains_iff_mem.1 hblank) ?_
  rw [Char.ofNat_toNat, ← hlower]
  exact List.mem_map_of_mem hc

theorem length_of_isKeyword {word : List Char}
    (h : isKeyword word "important" = true) : word.length = 9 := by
  have hlength := congrArg List.length (eq_of_beq h)
  rwa [lower_length] at hlength

theorem exists_append_trimEnd (s : List Char) :
    ∃ blanks, s = trimEnd s ++ blanks ∧ ∀ c ∈ blanks, isBlank c = true := by
  refine ⟨(s.reverse.takeWhile isBlank).reverse, ?_, fun c hc => ?_⟩
  · rw [trimEnd, ← List.reverse_append, List.takeWhile_append_dropWhile,
      List.reverse_reverse]
  · exact List.all_eq_true.1 List.all_takeWhile c (List.mem_reverse.1 hc)

/-- A word and the mark before it are split off, with the blanks around the
mark. -/
theorem beforeImportant?_append {blanks word : List Char} (u : List Char)
    (hblanks : ∀ c ∈ blanks, isBlank c = true)
    (hword : isKeyword word "important" = true) :
    beforeImportant? (u ++ '!' :: (blanks ++ word)) = some (trimEnd u) := by
  have hsplit : u ++ '!' :: (blanks ++ word) =
      (u ++ '!' :: blanks) ++ word := by simp
  have hlength : (u ++ '!' :: (blanks ++ word)).length - 9 =
      (u ++ '!' :: blanks).length := by
    rw [hsplit, List.length_append, length_of_isKeyword hword,
      Nat.add_sub_cancel]
  have hmark : trimEnd (u ++ '!' :: blanks) = u ++ ['!'] := by
    have hreverse : (u ++ '!' :: blanks).reverse =
        blanks.reverse ++ '!' :: u.reverse := by simp
    rw [trimEnd, hreverse, List.dropWhile_append_of_pos
      fun c hc => hblanks c (List.mem_reverse.1 hc), List.dropWhile_cons,
      if_neg (by decide)]
    simp
  rw [beforeImportant?, hlength, hsplit, List.take_left, List.drop_left,
    if_pos hword, hmark, List.reverse_append]
  simp

/-- What is split off is a mark, blanks and the word, with the blanks before
the mark. -/
theorem exists_of_beforeImportant? {value : List Char}
    (h : beforeImportant? v = some value) :
    ∃ u blanks word, v = u ++ '!' :: (blanks ++ word) ∧ value = trimEnd u ∧
      (∀ c ∈ blanks, isBlank c = true) ∧ isKeyword word "important" = true := by
  rw [beforeImportant?] at h
  split at h
  · next hword =>
      split at h
      · next rest hrest =>
          obtain ⟨blanks, hhead, hblanks⟩ :=
            exists_append_trimEnd (v.take (v.length - 9))
          refine ⟨rest.reverse, blanks, v.drop (v.length - 9), ?_,
            (Option.some.inj h).symm, hblanks, hword⟩
          have hmark := congrArg List.reverse hrest
          rw [List.reverse_reverse, List.reverse_cons] at hmark
          have hv := List.take_append_drop (v.length - 9) v
          rw [hhead, hmark] at hv
          simpa using hv.symm
      · cases h
  · cases h

theorem endsImportant_iff :
    EndsImportant v ↔ (beforeImportant? v).isSome = true := by
  constructor
  · rintro ⟨before, blanks, word, rfl, hblanks, hword⟩
    rw [beforeImportant?_append before hblanks hword]
    rfl
  · intro h
    obtain ⟨value, hv⟩ := Option.isSome_iff_exists.1 h
    obtain ⟨u, blanks, word, hv, -, hblanks, hword⟩ :=
      exists_of_beforeImportant? hv
    exact ⟨u, blanks, word, hv, hblanks, hword⟩

instance (v : List Char) : Decidable (EndsImportant v) :=
  decidable_of_iff _ endsImportant_iff.symm

/-! ## What is left when blanks and importance are taken off -/

theorem last_trimEnd (s : List Char) :
    ∀ c ∈ (trimEnd s).getLast?, isBlank c = false := by
  intro c hc
  rw [trimEnd, List.getLast?_reverse] at hc
  have hhead := List.head?_dropWhile_not isBlank s.reverse
  rw [hc] at hhead
  exact hhead

theorem trimmed_trimEnd {s : List Char} (h : ∀ c ∈ s.head?, isBlank c = false) :
    Trimmed (trimEnd s) := by
  refine Trimmed.of_ends (fun c hc => ?_) (last_trimEnd s)
  obtain ⟨blanks, hs, -⟩ := exists_append_trimEnd s
  rw [hs] at h
  exact h c (List.mem_head?_append_of_mem_head? hc)

theorem trimmed_trim (s : List Char) : Trimmed (trim s) := by
  refine trimmed_trimEnd fun c hc => ?_
  have hhead := List.head?_dropWhile_not isBlank s
  rw [trimStart] at hc
  rw [hc] at hhead
  exact hhead

theorem trimmed_splitImportant (raw : List Char) :
    Trimmed (splitImportant raw).1 := by
  rw [splitImportant]
  split
  · next value hvalue =>
      obtain ⟨u, blanks, word, htrim, rfl, -, -⟩ :=
        exists_of_beforeImportant? hvalue
      refine trimmed_trimEnd fun c hc => (trimmed_trim raw).head c ?_
      rw [htrim]
      exact List.mem_head?_append_of_mem_head? hc
  · exact trimmed_trim raw

/-- A value that is not important does not end as if it were. -/
theorem not_endsImportant_splitImportant {raw : List Char}
    (h : (splitImportant raw).2 = false) :
    ¬ EndsImportant (splitImportant raw).1 := by
  rw [splitImportant] at h ⊢
  cases hvalue : beforeImportant? (trim raw) with
  | some value =>
      rw [hvalue] at h
      cases h
  | none =>
      simp only [endsImportant_iff, hvalue]
      exact Bool.false_ne_true

/-! ## What is cut off -/

theorem exists_append_trim (s : List Char) :
    ∃ lead trail, s = lead ++ (trim s ++ trail) ∧
      (∀ c ∈ lead, isBlank c = true) ∧ ∀ c ∈ trail, isBlank c = true := by
  obtain ⟨trail, htrail, hblank⟩ := exists_append_trimEnd (trimStart s)
  refine ⟨s.takeWhile isBlank, trail, ?_,
    fun c hc => List.mem_takeWhile_imp hc, hblank⟩
  rw [trim, ← htrail]
  exact List.takeWhile_append_dropWhile.symm

/-- What may stand behind a value: blanks, for each of which `p` holds, and if
the declaration is important, the mark and the word among them. -/
inductive Tail (p : Char → Bool) : Bool → List Char → Prop
  | plain {blanks : List Char} (h : ∀ c ∈ blanks, p c = true) :
      Tail p false blanks
  | important {blanks gap word behind : List Char}
      (hblanks : ∀ c ∈ blanks, p c = true) (hgap : ∀ c ∈ gap, p c = true)
      (hword : isKeyword word "important" = true)
      (hbehind : ∀ c ∈ behind, p c = true) :
      Tail p true (blanks ++ '!' :: (gap ++ (word ++ behind)))

theorem Tail.imp {p q : Char → Bool} {important : Bool} {tail : List Char}
    (h : Tail p important tail)
    (hpq : ∀ c ∈ tail, p c = true → q c = true) : Tail q important tail := by
  cases h with
  | plain h => exact .plain fun c hc => hpq c hc (h c hc)
  | important hblanks hgap hword hbehind =>
      refine .important (fun c hc => ?_) (fun c hc => ?_) hword fun c hc => ?_
      · exact hpq c (by simp [hc]) (hblanks c hc)
      · exact hpq c (by simp [hc]) (hgap c hc)
      · exact hpq c (by simp [hc]) (hbehind c hc)

/-- A text that ends in the mark and the word has no blanks at its end. -/
theorem trimmed_append_mark {u gap word : List Char}
    (hu : ∀ c ∈ u.head?, isBlank c = false)
    (hword : isKeyword word "important" = true) :
    Trimmed (u ++ '!' :: (gap ++ word)) := by
  refine Trimmed.of_ends (fun c hc => ?_) fun c hc => ?_
  · cases u with
    | nil =>
        obtain rfl := Option.some.inj hc
        decide
    | cons d u => exact hu c hc
  · have hne : word ≠ [] := by
      rintro rfl
      cases hword
    have hall : u ++ '!' :: (gap ++ word) = (u ++ '!' :: gap) ++ word := by
      simp
    rw [hall, List.getLast?_append_of_ne_nil _ hne] at hc
    exact isBlank_of_isKeyword hword c (List.mem_of_getLast? hc)

/-- A trimmed value is split off a text that has blanks before it and a tail
behind it, if it does not end as if it were important itself. -/
theorem splitImportant_append {lead tail : List Char} {important : Bool}
    (h : Trimmed v) (hplain : important = false → ¬ EndsImportant v)
    (hlead : ∀ c ∈ lead, isBlank c = true)
    (htail : Tail isBlank important tail) :
    splitImportant (lead ++ (v ++ tail)) = (v, important) := by
  cases htail with
  | plain htrail =>
      have hnone : beforeImportant? v = none := by
        have hv := hplain rfl
        rwa [endsImportant_iff, Option.not_isSome_iff_eq_none] at hv
      rw [splitImportant, trim_append h hlead htrail, hnone]
  | @important blanks gap word behind hblanks hgap hword hbehind =>
      -- Nothing is left of the blanks before the mark if there is no value.
      obtain ⟨lead', u, hu, hhead, hlead', htrim⟩ : ∃ lead' u,
          lead ++ (v ++ blanks) = lead' ++ u ∧
          (∀ c ∈ u.head?, isBlank c = false) ∧
          (∀ c ∈ lead', isBlank c = true) ∧ trimEnd u = v := by
        by_cases hv : v = []
        · subst hv
          exact ⟨lead ++ blanks, [], by simp, by simp,
            List.forall_mem_append.2 ⟨hlead, hblanks⟩, rfl⟩
        · refine ⟨lead, v ++ blanks, rfl, fun c hc => h.head c ?_, hlead,
            trimEnd_append h hblanks⟩
          rwa [List.head?_append_of_ne_nil _ hv] at hc
      have hall : lead ++ (v ++ (blanks ++ '!' :: (gap ++ (word ++ behind)))) =
          lead' ++ (u ++ '!' :: (gap ++ word) ++ behind) := by
        have hrest := congrArg (· ++ '!' :: (gap ++ (word ++ behind))) hu
        simpa using hrest
      rw [hall, splitImportant,
        trim_append (trimmed_append_mark hhead hword) hlead' hbehind,
        beforeImportant?_append u hgap hword, htrim]

/-- A text is a value, blanks before it, and a tail. -/
theorem exists_of_splitImportant {raw value : List Char} {important : Bool}
    (h : splitImportant raw = (value, important)) :
    ∃ lead tail, raw = lead ++ (value ++ tail) ∧
      (∀ c ∈ lead, isBlank c = true) ∧ Tail isBlank important tail := by
  obtain ⟨lead, trail, hraw, hlead, htrail⟩ := exists_append_trim raw
  rw [splitImportant] at h
  cases hvalue : beforeImportant? (trim raw) with
  | none =>
      simp only [hvalue, Prod.mk.injEq] at h
      obtain ⟨rfl, rfl⟩ := h
      exact ⟨lead, trail, hraw, hlead, .plain htrail⟩
  | some before =>
      simp only [hvalue, Prod.mk.injEq] at h
      obtain ⟨rfl, rfl⟩ := h
      obtain ⟨u, gap, word, htrim, rfl, hgap, hword⟩ :=
        exists_of_beforeImportant? hvalue
      obtain ⟨blanks, hu, hblanks⟩ := exists_append_trimEnd u
      refine ⟨lead, blanks ++ '!' :: (gap ++ (word ++ trail)), ?_, hlead,
        .important hblanks hgap hword htrail⟩
      rw [htrim] at hraw
      rw [hraw, ← List.append_assoc (trimEnd u), ← hu]
      simp

/-- A blank that is no white space in CSS. -/
def isOddBlank (c : Char) : Bool := isBlank c && !Syntax.isSpace c

/-- What is cut off from the text behind a colon to get the value, and the
importance, has no blanks in it but white space. -/
def keepsBlanks (raw : List Char) : Bool :=
  raw.countP isOddBlank == (splitImportant raw).1.countP isOddBlank

theorem isSpace_of_not_odd {c : Char} (hblank : isBlank c = true)
    (hodd : isOddBlank c = false) : Syntax.isSpace c = true := by
  rw [isOddBlank, hblank, Bool.true_and] at hodd
  simpa using hodd

/-- White space is all that is cut off from a text that keeps its blanks. -/
theorem exists_of_keepsBlanks {raw value : List Char} {important : Bool}
    (h : splitImportant raw = (value, important))
    (hkept : keepsBlanks raw = true) :
    ∃ lead tail, raw = lead ++ (value ++ tail) ∧
      (∀ c ∈ lead, Syntax.isSpace c = true) ∧
      Tail Syntax.isSpace important tail := by
  obtain ⟨lead, tail, hraw, hlead, htail⟩ := exists_of_splitImportant h
  have hcount : raw.countP isOddBlank = value.countP isOddBlank := by
    have heq := eq_of_beq hkept
    rwa [h] at heq
  rw [hraw, List.countP_append, List.countP_append] at hcount
  have hnone : ∀ {w : List Char}, w.countP isOddBlank = 0 →
      ∀ c ∈ w, isOddBlank c = false := fun hw c hc =>
    Bool.eq_false_iff.2 (List.countP_eq_zero.1 hw c hc)
  refine ⟨lead, tail, hraw, fun c hc => ?_, htail.imp fun c hc hblank => ?_⟩
  · exact isSpace_of_not_odd (hlead c hc) (hnone (by omega) c hc)
  · exact isSpace_of_not_odd hblank (hnone (by omega) c hc)

end CssVendor.Sheet
