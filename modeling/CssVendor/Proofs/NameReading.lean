import CssVendor.Proofs.VendorName
import CssVendor.Text.Ascii
import CssVendor.Text.Cut
import Mathlib.Data.List.TakeWhile

/-!
# The three readings of a name

`VendorName` shows that a vendor's form is read back from its mark. Here the
other two readings are settled as well: which names are a marker with nothing
behind it, and that everything else is plain, with the ways in which a name
comes close to a vendor's form and is none.

A name is cut at its hyphens. What both cuts have in common is a marker and the
text behind it, so every fact is shown for these two parts (`ofParts`) and
carried over to names by `ofChars_append` and `ofChars_marker`. The same two
lemmas serve the reading by byte offsets, which cuts the name itself behind one
hyphen and the rest of the name behind the other.
-/

namespace CssVendor

namespace NameForm

open Text

/-- What a marker says, given the text behind the hyphen that ends it. -/
def ofParts (marker canonical : List Char) : NameForm :=
  match Vendor.ofMarker? (String.ofList marker) with
  | none => .plain
  | some v =>
      if canonical.isEmpty then .dangling v
      else .vendored v (String.ofList canonical)

/-- The reading by byte offsets: the offset of the second hyphen is searched
behind the first one, so that the marker ends one byte later in the name, and
what it leaves begins one byte later in the rest. There is no answer if a cut
falls inside a character. -/
def ofBytes? : List Char → Option NameForm
  | '-' :: rest =>
      match byteIndex? (· == '-') rest with
      | some i =>
          (splitAtByte? (i + 1) ('-' :: rest)).bind fun (marker, _) =>
            (splitAtByte? (i + 1) rest).map fun (_, canonical) =>
              ofParts marker canonical
      | none => some (ofParts ('-' :: rest) [])
  | _ => some .plain

/-! ## Names cut at their hyphens -/

theorem forall_ne_hyphen {segment : List Char} (h : '-' ∉ segment) :
    ∀ c ∈ segment, (c != '-') = true :=
  fun _ hc => bne_iff_ne.2 (ne_of_mem_of_not_mem hc h)

/-- A text that no second hyphen ends is the marker. -/
theorem ofChars_marker {segment : List Char} (h : '-' ∉ segment) :
    ofChars ('-' :: segment) = ofParts ('-' :: segment) [] := by
  have hall := forall_ne_hyphen h
  rw [ofChars, List.takeWhile_eq_self_iff.2 hall,
    List.dropWhile_eq_nil_iff.2 hall]
  rfl

/-- The second hyphen ends the marker. -/
theorem ofChars_append {segment : List Char} (h : '-' ∉ segment)
    (canonical : List Char) :
    ofChars ('-' :: (segment ++ '-' :: canonical)) =
      ofParts ('-' :: segment) canonical := by
  have hall := forall_ne_hyphen h
  rw [ofChars, List.takeWhile_append_of_pos hall,
    List.dropWhile_append_of_pos hall, List.takeWhile_cons_of_neg (by decide),
    List.dropWhile_cons_of_neg (by decide), List.append_nil]
  rfl

theorem ofChars_of_head {n : List Char} (h : n.head? ≠ some '-') :
    ofChars n = .plain := by
  rw [ofChars]
  rintro rest rfl
  exact h rfl

/-- A text does not begin with a hyphen, or it is a marker, or a marker with a
hyphen and a text behind it. -/
theorem parts_cases (n : List Char) : n.head? ≠ some '-' ∨
    ∃ segment, '-' ∉ segment ∧ (n = '-' :: segment ∨
      ∃ canonical, n = '-' :: (segment ++ '-' :: canonical)) := by
  by_cases hhead : n.head? = some '-'
  · obtain ⟨rest, rfl⟩ := List.head?_eq_some_iff.1 hhead
    refine Or.inr ?_
    by_cases h : '-' ∈ rest
    · obtain ⟨segment, canonical, rfl, hsegment⟩ :=
        List.eq_append_cons_of_mem h
      exact ⟨segment, hsegment, Or.inr ⟨canonical, rfl⟩⟩
    · exact ⟨rest, h, Or.inl rfl⟩
  · exact Or.inl hhead

theorem ofParts_eq_plain {marker : List Char}
    (h : ∀ v : Vendor, String.ofList marker ≠ v.marker)
    (canonical : List Char) : ofParts marker canonical = .plain := by
  have hnone : Vendor.ofMarker? (String.ofList marker) = none :=
    List.find?_eq_none.2 fun v _ hv => h v (eq_of_beq hv).symm
  rw [ofParts, hnone]

theorem of_ofParts_eq_dangling {marker canonical : List Char} {v : Vendor}
    (h : ofParts marker canonical = .dangling v) :
    canonical = [] ∧ String.ofList marker = v.marker := by
  rw [ofParts] at h
  split at h
  · cases h
  · next w hw =>
      split at h
      · next hempty =>
          cases h
          exact ⟨List.isEmpty_iff.1 hempty,
            (Vendor.marker_of_ofMarker? hw).symm⟩
      · cases h

/-! ## Markers with nothing behind them -/

theorem of_eq_dangling_iff {n : String} {v : Vendor} :
    of n = .dangling v ↔ n = v.marker ∨ n = v.marker ++ "-" := by
  constructor
  · intro h
    rw [of] at h
    rcases parts_cases n.toList with
      hhead | ⟨segment, hsegment, hn | ⟨canonical, hn⟩⟩
    · rw [ofChars_of_head hhead] at h
      cases h
    · rw [hn, ofChars_marker hsegment] at h
      refine Or.inl ?_
      rw [← (of_ofParts_eq_dangling h).2, ← hn, String.ofList_toList]
    · rw [hn, ofChars_append hsegment] at h
      obtain ⟨rfl, hmarker⟩ := of_ofParts_eq_dangling h
      refine Or.inr (String.toList_inj.1 ?_)
      rw [← hmarker, hn, String.toList_append, String.toList_ofList]
      rfl
  · rintro (rfl | rfl) <;> cases v <;> decide +kernel

theorem of_eq_vendored_iff {n : String} {v : Vendor} {c : String} :
    of n = .vendored v c ↔ c ≠ "" ∧ n = v.apply c := by
  constructor
  · exact apply_of_vendored
  · rintro ⟨hc, rfl⟩
    exact of_apply v hc

/-! ## Plain names -/

theorem of_eq_plain_of_head {n : String} (h : n.toList.head? ≠ some '-') :
    of n = .plain :=
  ofChars_of_head h

/-- A name whose text up to the second hyphen is no vendor's marker is plain,
whether there is a second hyphen or not. -/
theorem of_eq_plain_of_segment {segment : String} (h : '-' ∉ segment.toList)
    (hmarker : ∀ v : Vendor, "-" ++ segment ≠ v.marker) :
    of ("-" ++ segment) = .plain ∧
      ∀ rest, of ("-" ++ segment ++ "-" ++ rest) = .plain := by
  have hparts : ∀ canonical,
      ofParts ('-' :: segment.toList) canonical = .plain := by
    refine ofParts_eq_plain fun v hv => hmarker v ?_
    rw [← hv]
    apply String.toList_inj.1
    simp
  constructor
  · have hn : ("-" ++ segment).toList = '-' :: segment.toList := by simp
    rw [of, hn, ofChars_marker h, hparts]
  · intro rest
    have hn : ("-" ++ segment ++ "-" ++ rest).toList =
        '-' :: (segment.toList ++ '-' :: rest.toList) := by simp
    rw [of, hn, ofChars_append h, hparts]

theorem of_eq_plain_of_custom (rest : String) : of ("--" ++ rest) = .plain := by
  have hempty : '-' ∉ "".toList := by decide
  have hmarker : ∀ v : Vendor, "-" ++ "" ≠ v.marker := by
    rintro (_ | _ | _ | _) <;> decide
  exact (of_eq_plain_of_segment hempty hmarker).2 rest

/-- A marker is a hyphen and a text that has none. -/
theorem exists_marker (v : Vendor) :
    ∃ segment, v.marker = "-" ++ segment ∧ '-' ∉ segment.toList := by
  cases v
  · exact ⟨"webkit", rfl, by decide⟩
  · exact ⟨"moz", rfl, by decide⟩
  · exact ⟨"o", rfl, by decide⟩
  · exact ⟨"ms", rfl, by decide⟩

/-- No marker is the beginning of another. -/
theorem marker_append_ne {v w : Vendor} {extra : String} (h : extra ≠ "") :
    v.marker ++ extra ≠ w.marker := by
  intro heq
  have hlist : v.marker.toList ++ extra.toList = w.marker.toList := by
    rw [← heq, String.toList_append]
  apply h
  apply String.toList_inj.1
  cases v <;> cases w <;> simp_all [Vendor.marker]

theorem of_eq_plain_of_longer (v : Vendor) {extra : String} (h : extra ≠ "")
    (hextra : '-' ∉ extra.toList) : of (v.marker ++ extra) = .plain ∧
      ∀ rest, of (v.marker ++ extra ++ "-" ++ rest) = .plain := by
  obtain ⟨segment, hv, hsegment⟩ := exists_marker v
  rw [hv, String.append_assoc]
  refine of_eq_plain_of_segment (by simp [hsegment, hextra]) fun w => ?_
  rw [← String.append_assoc, ← hv]
  exact marker_append_ne h

/-- No letter is a hyphen in lower case. -/
theorem eq_hyphen_of_toLower {c : Char} (h : c.toLower = '-') : c = '-' := by
  unfold Char.toLower at h
  split at h
  · next hupper =>
      have hcode : c.val + 32 = 45 := congrArg Char.val h
      have hlow : 65 ≤ c.val := hupper.1
      have hhigh : c.val ≤ 90 := hupper.2
      grind
  · exact h

/-- A marker in another letter case is none. -/
theorem of_eq_plain_of_letter_case (v : Vendor) {marker : String}
    (h : lower marker.toList = v.marker.toList) (hne : marker ≠ v.marker) :
    of marker = .plain ∧ ∀ rest, of (marker ++ "-" ++ rest) = .plain := by
  obtain ⟨segment, hv, hsegment⟩ := exists_marker v
  have hlower : lower marker.toList = '-' :: segment.toList := by
    rw [h, hv]
    simp
  cases hchars : marker.toList with
  | nil =>
      rw [hchars] at hlower
      cases hlower
  | cons c rest =>
      rw [hchars, lower, List.map_cons, List.cons.injEq] at hlower
      obtain ⟨hc, hrest⟩ := hlower
      obtain rfl := eq_hyphen_of_toLower hc
      have hmarker : marker = "-" ++ String.ofList rest := by
        apply String.toList_inj.1
        simp [hchars]
      have hhyphen : '-' ∉ (String.ofList rest).toList := by
        intro hmem
        rw [String.toList_ofList] at hmem
        have hlower : '-'.toLower ∈ rest.map Char.toLower :=
          List.mem_map_of_mem hmem
        rw [hrest] at hlower
        exact hsegment hlower
      -- Were it another vendor's marker, it would be in lower case already.
      have hother : ∀ w : Vendor, "-" ++ String.ofList rest ≠ w.marker := by
        intro w hw
        rw [← hmarker] at hw
        have hcase : lower w.marker.toList = w.marker.toList := by
          cases w <;> decide
        rw [hw, hcase] at h
        exact hne (hw.trans (String.toList_inj.1 h))
      rw [hmarker]
      exact of_eq_plain_of_segment hhyphen hother

/-! ## Offsets -/

theorem ofBytes?_of_head {n : List Char} (h : n.head? ≠ some '-') :
    ofBytes? n = some .plain := by
  rw [ofBytes?]
  rintro rest rfl
  exact h rfl

/-- Both cuts fall behind a hyphen. -/
theorem ofBytes?_eq (n : List Char) : ofBytes? n = some (ofChars n) := by
  rcases parts_cases n with hhead | ⟨segment, hsegment, hn⟩
  · rw [ofBytes?_of_head hhead, ofChars_of_head hhead]
  · have hnone : ∀ c ∈ segment, (c == '-') = false := fun c hc =>
      beq_eq_false_iff_ne.2 (ne_of_mem_of_not_mem hc hsegment)
    rcases hn with rfl | ⟨canonical, rfl⟩
    · rw [ofBytes?, byteIndex?_eq_none hnone, ofChars_marker hsegment]
    · have hmarker : splitAtByte? (byteSize segment + 1)
          ('-' :: (segment ++ '-' :: canonical)) =
          some ('-' :: segment, '-' :: canonical) :=
        splitAtByte?_eq_some_iff.2 ⟨rfl, by
          rw [byteSize_cons, Nat.add_comm]
          rfl⟩
      have hcanonical : splitAtByte? (byteSize segment + 1)
          (segment ++ '-' :: canonical) =
          some (segment ++ ['-'], canonical) :=
        splitAtByte?_eq_some_iff.2 ⟨by simp, by
          rw [byteSize_append]
          rfl⟩
      rw [ofBytes?, byteIndex?_append hnone rfl, ofChars_append hsegment]
      simp only [hmarker, hcanonical, Option.bind_some, Option.map_some]

/-! ## Names and their readings -/

/-- Reading is the inverse of marking: a name is read as a vendor's form of
what that vendor's mark was put on, as dangling if it is a marker alone or with
the hyphen behind it, and as plain in all other cases, of which the usual ones
are listed. No name is of two of these shapes, or of one in two ways, and the
reading by offsets never cuts a character. -/
theorem reading_inverts_marking :
    (∀ n v c, of n = .vendored v c ↔ c ≠ "" ∧ n = v.apply c) ∧
    (∀ n v, of n = .dangling v ↔ n = v.marker ∨ n = v.marker ++ "-") ∧
    (∀ n, of n = .plain ↔
      ¬ (∃ v c, c ≠ "" ∧ n = Vendor.apply v c) ∧
        ¬ ∃ v : Vendor, n = v.marker ∨ n = v.marker ++ "-") ∧
    (∀ n, n.toList.head? ≠ some '-' → of n = .plain) ∧
    (∀ rest, of ("--" ++ rest) = .plain) ∧
    (∀ segment, '-' ∉ segment.toList →
      (∀ v : Vendor, "-" ++ segment ≠ v.marker) →
        of ("-" ++ segment) = .plain ∧
          ∀ rest, of ("-" ++ segment ++ "-" ++ rest) = .plain) ∧
    (∀ (v : Vendor) extra, extra ≠ "" → '-' ∉ extra.toList →
      of (v.marker ++ extra) = .plain ∧
        ∀ rest, of (v.marker ++ extra ++ "-" ++ rest) = .plain) ∧
    (∀ (v : Vendor) marker, lower marker.toList = v.marker.toList →
      marker ≠ v.marker → of marker = .plain ∧
        ∀ rest, of (marker ++ "-" ++ rest) = .plain) ∧
    (∀ v w c e, Vendor.apply v c = w.apply e → v = w ∧ c = e) ∧
    (∀ (v w : Vendor) c, c ≠ "" → v.apply c ≠ w.marker ∧
      v.apply c ≠ w.marker ++ "-") ∧
    (∀ n, ofBytes? n.toList = some (of n)) := by
  have hplain : ∀ n, of n = .plain ↔
      ¬ (∃ v c, c ≠ "" ∧ n = Vendor.apply v c) ∧
        ¬ ∃ v : Vendor, n = v.marker ∨ n = v.marker ++ "-" := by
    intro n
    simp only [← of_eq_vendored_iff, ← of_eq_dangling_iff]
    cases of n <;> simp
  refine ⟨fun n v c => of_eq_vendored_iff, fun n v => of_eq_dangling_iff,
    hplain, fun n => of_eq_plain_of_head, of_eq_plain_of_custom,
    fun segment => of_eq_plain_of_segment,
    fun v extra => of_eq_plain_of_longer v,
    fun v marker => of_eq_plain_of_letter_case v,
    fun v w c e => Vendor.apply_inj.1, fun v w c hc => ?_,
    fun n => ofBytes?_eq n.toList⟩
  have hread := of_apply v hc
  refine ⟨fun h => ?_, fun h => ?_⟩
  · rw [of_eq_dangling_iff.2 (Or.inl h)] at hread
    cases hread
  · rw [of_eq_dangling_iff.2 (Or.inr h)] at hread
    cases hread

/-- Two hyphens more behind a marker belong to what was marked. -/
example : of "-o---x" = .vendored .o "--x" := by decide +kernel

/-- A marker in another letter case, one with more behind it, and a name of
several hyphens, at the theorem. -/
theorem reading_inverts_marking_cases :
    of "-O-transform" = .plain ∧ of "-webkitx-transform" = .plain ∧
      of "-o---x" = .vendored .o "--x" ∧ of "漢-x" = .plain := by
  obtain ⟨hvendored, -, -, hhead, -, -, hlonger, hcase, -⟩ :=
    reading_inverts_marking
  exact ⟨(hcase .o "-O" (by decide) (by decide)).2 "transform",
    (hlonger .webkit "x" (by decide) (by decide)).2 "transform",
    (hvendored "-o---x" .o "--x").2 ⟨by decide, by decide⟩,
    hhead "漢-x" (by decide)⟩

end NameForm

end CssVendor
