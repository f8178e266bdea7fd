import CssVendor.Proofs.Written
import CssVendor.Text.Cut

/-!
# Which values are important

`splitImportant` takes `! important` off a value by looking at its end. What it
accepts is said here as a grammar: a value that does not end in a blank, then
blanks, the mark, blanks and the word. That is all it accepts, the value is the
only one that fits, and a value printed with its importance is split into the
same two parts again, in either layout.

The word is looked for by counting: nine characters from the end here, nine
bytes in `splitImportantBytes?`. The two agree since the word has no letter of
more than one byte, so that a cut which fell inside a character could not have
found the word either.
-/

namespace CssVendor

open Text Sheet

namespace Sheet

variable {raw s v : List Char}

/-- A text is the value `v` with its importance behind it: blanks, the mark,
blanks, and the word in any letter case. The blanks before the mark do not
belong to the value. -/
def MarkedValue (s v : List Char) : Prop :=
  ∃ blanks blanks' word, s = v ++ (blanks ++ '!' :: (blanks' ++ word)) ∧
    (∀ c ∈ blanks, isBlank c = true) ∧ (∀ c ∈ blanks', isBlank c = true) ∧
    isKeyword word "important" = true ∧ ∀ c ∈ v.getLast?, isBlank c = false

/-- The value before a mark that ends a text, blanks aside. -/
def beforeMark? (head : List Char) : Option (List Char) :=
  match (trimEnd head).reverse with
  | '!' :: rest => some (trimEnd rest.reverse)
  | _ => none

/-- The value and the importance by byte offsets: the text is cut nine bytes
before its end, if it has as many and a character begins there. There is no
answer if a cut falls inside a character. -/
def splitImportantBytes? (raw : List Char) : Option (List Char × Bool) :=
  let s := trim raw
  let offset := byteSize s - 9
  if 9 ≤ byteSize s ∧ (splitAtByte? offset s).isSome = true then
    (splitAtByte? offset s).map fun (head, word) =>
      if isKeyword word "important" then
        match beforeMark? head with
        | some value => (value, true)
        | none => (s, false)
      else (s, false)
  else some (s, false)

/-! ## The grammar -/

/-- The value of a trimmed text with its importance is trimmed. -/
theorem MarkedValue.trimmed (h : MarkedValue s v) (hs : Trimmed s) :
    Trimmed v := by
  obtain ⟨blanks, blanks', word, rfl, -, -, -, hlast⟩ := h
  exact Trimmed.of_ends
    (fun c hc => hs.head c (List.mem_head?_append_of_mem_head? hc)) hlast

theorem beforeImportant?_eq_some_iff (hs : Trimmed s) :
    beforeImportant? s = some v ↔ MarkedValue s v := by
  constructor
  · intro h
    obtain ⟨u, blanks', word, hu, rfl, hblanks', hword⟩ :=
      exists_of_beforeImportant? h
    obtain ⟨blanks, hcut, hblanks⟩ := exists_append_trimEnd u
    refine ⟨blanks, blanks', word, ?_, hblanks, hblanks', hword,
      last_trimEnd u⟩
    rw [hu, ← List.append_assoc, ← hcut]
  · intro h
    have hv := h.trimmed hs
    obtain ⟨blanks, blanks', word, rfl, hblanks, hblanks', hword, -⟩ := h
    rw [← List.append_assoc, beforeImportant?_append _ hblanks' hword,
      trimEnd_append hv hblanks]

theorem splitImportant_eq_true_iff :
    splitImportant raw = (v, true) ↔ MarkedValue (trim raw) v := by
  rw [← beforeImportant?_eq_some_iff (trimmed_trim raw), splitImportant]
  cases beforeImportant? (trim raw) <;> simp

theorem splitImportant_eq_false_iff :
    splitImportant raw = (v, false) ↔
      v = trim raw ∧ ∀ u, ¬ MarkedValue (trim raw) u := by
  simp only [← beforeImportant?_eq_some_iff (trimmed_trim raw), splitImportant]
  cases beforeImportant? (trim raw) <;> simp [eq_comm]

/-! ## Counting bytes -/

/-- Every letter of the word has one byte. -/
theorem byteSize_of_isKeyword {word : List Char}
    (h : isKeyword word "important" = true) : byteSize word = 9 := by
  have hone : ∀ c ∈ word, c.utf8Size = 1 := by
    intro c hc
    have hletter : (c.isUpper || c.isLower) = true :=
      Syntax.isAlpha_of_isKeyword h c hc
    rw [Char.utf8Size_eq_one_iff]
    rcases Bool.or_eq_true_iff.1 hletter with hupper | hlower
    · have hle : c.val ≤ 'Z'.val := (of_decide_eq_true hupper).2
      exact Nat.le_trans hle (by decide)
    · have hle : c.val ≤ 'z'.val :=
        of_decide_eq_true (Bool.and_eq_true_iff.1 hlower).2
      exact Nat.le_trans hle (by decide)
  rw [byteSize_eq_length hone, length_of_isKeyword h]

/-- Nine bytes from the end there is what stands nine characters from the end,
if it is the word. -/
theorem splitAtByte?_of_isKeyword (head : List Char) {word : List Char}
    (h : isKeyword word "important" = true) :
    9 ≤ byteSize (head ++ word) ∧
      splitAtByte? (byteSize (head ++ word) - 9) (head ++ word) =
        some (head, word) := by
  have hword := byteSize_of_isKeyword h
  rw [byteSize_append, hword, Nat.add_sub_cancel]
  exact ⟨by omega, splitAtByte?_append head word⟩

theorem beforeImportant?_append_word {head word : List Char}
    (h : isKeyword word "important" = true) :
    beforeImportant? (head ++ word) = beforeMark? head := by
  rw [beforeImportant?, List.length_append, length_of_isKeyword h,
    Nat.add_sub_cancel, List.take_left, List.drop_left, if_pos h]
  rfl

theorem beforeImportant?_eq_none
    (h : ∀ head word, s = head ++ word → isKeyword word "important" = false) :
    beforeImportant? s = none := by
  have hword := h _ _ (List.take_append_drop (s.length - 9) s).symm
  simp [beforeImportant?, hword]

/-- Cutting at bytes and counting characters find the same word, or both find
none. -/
theorem splitImportantBytes?_eq (raw : List Char) :
    splitImportantBytes? raw = some (splitImportant raw) := by
  rw [splitImportantBytes?, splitImportant]
  generalize trim raw = s
  by_cases hends : ∃ head word, s = head ++ word ∧
      isKeyword word "important" = true
  · obtain ⟨head, word, rfl, hword⟩ := hends
    obtain ⟨hsize, hcut⟩ := splitAtByte?_of_isKeyword head hword
    simp only [hcut, beforeImportant?_append_word hword]
    rewrite [if_pos ⟨hsize, rfl⟩, Option.map_some, if_pos hword]
    cases beforeMark? head <;> rfl
  · have hno : ∀ head word, s = head ++ word →
        isKeyword word "important" = false := fun head word hs =>
      Bool.eq_false_iff.2 fun hword => hends ⟨head, word, hs, hword⟩
    rw [beforeImportant?_eq_none hno]
    cases hcut : splitAtByte? (byteSize s - 9) s with
    | none => simp
    | some parts =>
        have hword := hno _ _ (splitAtByte?_eq_some_iff.1 hcut).1
        simp [hword]

end Sheet

/-! ## Printed values -/

/-- The value of a declaration as it is printed, with its importance. -/
def Declaration.writtenValue (layout : Layout) (d : Declaration) : List Char :=
  d.value.toList ++
    if d.important then layout.pad ++ "!important".toList else []

theorem payload_eq (layout : Layout) (d : Declaration) :
    d.payload layout = layout.pad ++ d.writtenValue layout :=
  rfl

/-- A declaration is printed as its name, a colon and its value, in the pretty
layout with a space between them. -/
theorem text_eq_writtenValue (d : Declaration) :
    d.text = d.name ++ ": " ++ String.ofList (d.writtenValue .pretty) ∧
      d.compactText =
        d.name ++ ":" ++ String.ofList (d.writtenValue .compact) := by
  constructor
  · apply String.toList_inj.1
    rw [text_eq_written, Declaration.written, payload_eq]
    simp [Layout.pad]
  · apply String.toList_inj.1
    rw [compactText_eq_written, Declaration.written, payload_eq]
    simp [Layout.pad]

namespace Sheet

/-- A value split off and printed is split in the same way again. -/
theorem splitImportant_writtenValue {raw : List Char} {d : Declaration}
    (h : splitImportant raw = (d.value.toList, d.important))
    (layout : Layout) :
    splitImportant (d.writtenValue layout) = splitImportant raw := by
  have htrimmed : Trimmed d.value.toList := by
    have hvalue := trimmed_splitImportant raw
    rwa [h] at hvalue
  have hplain : d.important = false → ¬ EndsImportant d.value.toList := by
    intro hfalse
    have hsplit : (splitImportant raw).2 = false := by rw [h, hfalse]
    have hends := not_endsImportant_splitImportant hsplit
    rwa [h] at hends
  have htail := (d.tail_payload layout).imp fun _ _ => isBlank_of_isSpace
  have hsplit := splitImportant_append htrimmed hplain
    (List.forall_mem_nil _) htail
  rwa [List.nil_append, ← h] at hsplit

/-- `splitImportant` accepts its grammar and nothing else. A text, without the
blanks around it, is important with the value `v` exactly if it is `v` with its
importance behind it; if there is no such `v`, it is its own value. Cutting at
bytes gives the same and never cuts a character. And when the value is printed,
in either layout and under any name, it is split in the same way again. -/
theorem splitImportant_grammar (raw : List Char) :
    (∀ v, splitImportant raw = (v, true) ↔ MarkedValue (trim raw) v) ∧
    (∀ v, splitImportant raw = (v, false) ↔
      v = trim raw ∧ ∀ u, ¬ MarkedValue (trim raw) u) ∧
    splitImportantBytes? raw = some (splitImportant raw) ∧
    ∀ name, let d : Declaration :=
        ⟨name, String.ofList (splitImportant raw).1, (splitImportant raw).2⟩
      d.text = name ++ ": " ++ String.ofList (d.writtenValue .pretty) ∧
      d.compactText = name ++ ":" ++ String.ofList (d.writtenValue .compact) ∧
      ∀ layout, splitImportant (d.writtenValue layout) = splitImportant raw := by
  refine ⟨fun v => splitImportant_eq_true_iff,
    fun v => splitImportant_eq_false_iff, splitImportantBytes?_eq raw,
    fun name => ?_⟩
  intro d
  refine ⟨(text_eq_writtenValue d).1, (text_eq_writtenValue d).2,
    splitImportant_writtenValue ?_⟩
  rw [String.toList_ofList]

/-- Only one mark is split off, the last. -/
example : splitImportant " red !important ! IMPORTANT".toList =
    ("red !important".toList, true) := by
  decide +kernel

end Sheet

end CssVendor
