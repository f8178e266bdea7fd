import CssVendor.Proofs.SheetRun
import CssVendor.Proofs.SingleDeclaration

/-!
# Names that are identifiers

A declared name comes from an identifier, but nothing makes sure that what a
run appends is one. A vendor's form always is: the mark can begin an identifier,
and what is behind it need not. The form without the mark can fail to be one,
in one way only. All of its characters can stand in a name; it is an identifier
unless it is a stub, a text that begins with a digit, with or without a hyphen
before it, or a hyphen alone.

So there are three steps. A text is an identifier that means itself exactly if
it is a plain name, as an escape is always longer than what it writes
(`isIdentifier_iff`). What is left of a plain name without its mark is a plain
name or a stub (`isPlainName_eq_not_isStub`). And a stub is filled in exactly if
one of its vendored forms is declared (`declares_missingForms_stub`).
-/

namespace CssVendor

open Syntax Text Sheet

/-! ## Identifiers -/

namespace Syntax

variable {s : List Char}

theorem length_unescapeFrom_le (pending : Nat) (s : List Char) :
    (unescapeFrom pending s).length ≤ s.length - pending := by
  induction s generalizing pending with
  | nil => cases pending <;> exact Nat.zero_le _
  | cons c s ih =>
      cases pending with
      | succ pending =>
          rw [unescapeFrom, List.length_cons, Nat.succ_sub_succ]
          exact ih pending
      | zero =>
          rw [unescapeFrom]
          split
          · exact Nat.succ_le_succ (Nat.le_trans (ih _) (Nat.sub_le _ _))
          · exact Nat.succ_le_succ (ih 0)

/-- An escape never stands for itself. Behind its backslash there is at least
one character that it takes in, or nothing, and then it means another one. -/
theorem unescape_escape_ne (s : List Char) : unescape ('\\' :: s) ≠ '\\' :: s := by
  intro h
  obtain ⟨hvalue, hrest⟩ := List.cons.inj h
  have hlength := length_unescapeFrom_le (escapeLength s) s
  rw [hrest] at hlength
  cases s with
  | nil => exact absurd hvalue (by decide)
  | cons c s =>
      have hpos : 0 < escapeLength (c :: s) := by
        simp only [escapeLength]
        split
        · simp
        · next hdigits =>
            have := List.length_pos_iff.2 (by simpa using hdigits)
            omega
      simp only [List.length_cons] at hlength
      omega

/-- A text that is a name throughout and means itself is written without
escapes and without NUL. -/
theorem isNameChar_of_unescape_eq (hlength : nameLength s = s.length)
    (hvalue : unescape s = s) : ∀ c ∈ s, isNameChar c = true ∧ c ≠ '\x00' := by
  induction s with
  | nil => exact List.forall_mem_nil _
  | cons c s ih =>
      by_cases hbackslash : c = '\\'
      · subst hbackslash
        exact absurd hvalue (unescape_escape_ne s)
      · have hescape : (c == '\\') = false := by simpa using hbackslash
        rw [nameLength, nameLengthFrom, hescape] at hlength
        rw [unescape, unescapeFrom, hescape] at hvalue
        obtain ⟨hplain, hrest⟩ := List.cons.inj hvalue
        split at hlength
        · next hc =>
            refine List.forall_mem_cons.2 ⟨⟨hc, ?_⟩,
              ih (Nat.succ.inj hlength) hrest⟩
            rintro rfl
            exact absurd hplain (by decide)
        · cases hlength

theorem behindName_eq_ident {name name' t : List Char} {length length' : Nat}
    (h : behindName name length t = (.ident name', length')) :
    name' = name ∧ length' = length := by
  unfold behindName at h
  split at h
  · split at h
    · simp only [] at h
      obtain ⟨hkind, -⟩ := Prod.mk.inj h
      split at hkind <;> cases hkind
    · cases h
  · cases h
    exact ⟨rfl, rfl⟩

/-- Where an identifier is read, a name begins, and it is read as far as it
reaches. -/
theorem readPlain_ident {c : Char} {name : List Char} {length : Nat}
    (h : readPlain c s = (.ident name, length)) :
    startsIdent (c :: s) = true ∧ length = nameLength (c :: s) ∧
      name = unescape ((c :: s).take (nameLength (c :: s))) := by
  simp only [readPlain] at h
  split at h
  · cases h
  split at h
  · simp only [readString] at h
    split at h <;> cases h
  split at h
  · simp only [readNumber] at h
    split at h
    · cases h
    · split at h <;> cases h
  split at h
  · next hname =>
      rw [readIdentLike_eq] at h
      obtain ⟨rfl, rfl⟩ := behindName_eq_ident h
      exact ⟨hname, rfl, rfl⟩
  split at h
  · simp only [readHash] at h
    split at h <;> cases h
  split at h
  · simp only [readAtKeyword] at h
    split at h <;> cases h
  split at h
  · cases h
  -- What is left are single signs.
  split at h
  · next kind hkind =>
      cases h
      unfold punctuation? at hkind
      split at hkind <;> cases hkind
  · cases h

theorem readKind_ident {name : List Char} {length : Nat}
    (h : readKind s = (.ident name, length)) :
    startsIdent s = true ∧ length = nameLength s ∧
      name = unescape (s.take (nameLength s)) := by
  cases s with
  | nil => cases h
  | cons c s =>
      rw [readKind_cons] at h
      split at h
      · cases h
      split at h
      · cases h
      split at h
      · cases h
      · exact readPlain_ident h

end Syntax

/-- Whether a name, read as a text, is one identifier and means itself. -/
def IsIdentifier (n : String) : Prop :=
  tokenize n.toList = [⟨.ident n.toList, n.toList⟩]

instance (n : String) : Decidable (IsIdentifier n) :=
  inferInstanceAs (Decidable (_ = _))

theorem isIdentifier_iff {n : String} :
    IsIdentifier n ↔ isPlainName n.toList = true := by
  refine ⟨fun h => ?_, tokenize_name_alone⟩
  have hne : n.toList ≠ [] := by
    intro hnil
    rw [IsIdentifier, hnil] at h
    cases h
  rw [IsIdentifier, tokenize_eq hne] at h
  obtain ⟨htoken, -⟩ := List.cons.inj h
  obtain ⟨hkind, htext⟩ := Token.mk.inj htoken
  have hread : readKind n.toList = (.ident n.toList, (readKind n.toList).2) :=
    Prod.ext hkind rfl
  obtain ⟨hstarts, hlength, hname⟩ := readKind_ident hread
  rw [hlength] at htext
  have hall : nameLength n.toList = n.toList.length := by
    have hle : nameLength n.toList ≤ n.toList.length :=
      nameLengthFrom_le (Nat.zero_le _)
    rw [← List.length_take_of_le hle, htext]
  rw [htext] at hname
  rw [isPlainName, hstarts, Bool.true_and, List.all_eq_true]
  intro c hc
  obtain ⟨hchar, hnul⟩ := isNameChar_of_unescape_eq hall hname.symm c hc
  simp [hchar, hnul]

/-! ## Stubs -/

/-- Whether a text of which every character can stand in a name begins as no
name does: it is a hyphen alone, or begins with a digit, with or without a
hyphen before it. -/
def isStub : List Char → Bool
  | ['-'] => true
  | '-' :: c :: _ => c.isDigit
  | c :: _ => c.isDigit
  | [] => false

/-- Whether no declared name is a vendor's form of a stub. -/
def Stubless (ds : List Declaration) : Prop :=
  ∀ d ∈ ds, ∀ (v : Vendor) (c : String), d.name = v.apply c →
    isStub c.toList = false

namespace Syntax

theorem isNameStart_eq_not_isDigit {c : Char} (hc : isNameChar c = true)
    (hhyphen : c ≠ '-') : isNameStart c = !c.isDigit := by
  cases hstart : isNameStart c with
  | true =>
      have hdigit := not_isDigit_of_isNameStart hstart
      rw [Bool.or_eq_false_iff] at hdigit
      rw [hdigit.1]
      rfl
  | false =>
      have hdigit : c.isDigit = true := by
        simpa [isNameChar, hstart, hhyphen] using hc
      rw [hdigit]
      rfl

/-- A text all of whose characters can stand in a name is a name or a stub. -/
theorem isPlainName_eq_not_isStub {s : List Char} (hs : s ≠ [])
    (h : ∀ c ∈ s, isNameChar c = true ∧ c ≠ '\x00') :
    isPlainName s = !isStub s := by
  have hall : (s.all fun c => isNameChar c && c != '\x00') = true := by
    rw [List.all_eq_true]
    intro c hc
    obtain ⟨hchar, hnul⟩ := h c hc
    simp [hchar, hnul]
  rw [isPlainName, hall, Bool.and_true]
  have hbackslash : ∀ c ∈ s, c ≠ '\\' := fun c hc =>
    ne_of_isNameChar (h c hc).1 (by decide)
  cases s with
  | nil => exact absurd rfl hs
  | cons c s =>
      by_cases hhyphen : c = '-'
      · subst hhyphen
        cases s with
        | nil => rfl
        | cons d s =>
            rw [startsIdent_cons, if_pos rfl, headIs, isStub]
            by_cases hd : d = '-'
            · subst hd
              rfl
            · rw [isNameStart_eq_not_isDigit (h d (by simp)).1 hd,
                beq_eq_false_iff_ne.2 (hbackslash d (by simp)),
                beq_eq_false_iff_ne.2 hd, Bool.false_or, Bool.or_false]
      · rw [startsIdent_cons, if_neg hhyphen,
          if_neg (hbackslash c (by simp)),
          isNameStart_eq_not_isDigit (h c (by simp)).1 hhyphen]
        rw [isStub]
        · exact fun h => absurd h hhyphen
        · exact fun d t h => absurd h hhyphen

theorem isStub_of_isPlainName {s : List Char} (h : isPlainName s = true) :
    isStub s = false := by
  have hs : s ≠ [] := by
    rintro rfl
    cases h
  rw [isPlainName_eq_not_isStub hs (isNameChar_of_isPlainName h)] at h
  simpa using h

end Syntax

/-! ## Names that are filled in -/

theorem isPlainName_apply (v : Vendor) {c : String}
    (h : ∀ d ∈ c.toList, isNameChar d = true ∧ d ≠ '\x00') :
    isPlainName (v.apply c).toList = true := by
  have hmark : ∀ d ∈ v.marker.toList ++ "-".toList,
      (isNameChar d && d != '\x00') = true := by
    cases v <;> decide
  rw [isPlainName, Bool.and_eq_true, List.all_eq_true, Vendor.apply,
    String.toList_append, String.toList_append]
  refine ⟨by cases v <;> rfl, fun d hd => ?_⟩
  rcases List.mem_append.1 hd with hd | hd
  · exact hmark d hd
  · obtain ⟨hname, hnul⟩ := h d hd
    simp [hname, hnul]

theorem isNameChar_of_apply {v : Vendor} {c : String}
    (h : isPlainName (v.apply c).toList = true) :
    ∀ d ∈ c.toList, isNameChar d = true ∧ d ≠ '\x00' := by
  intro d hd
  refine isNameChar_of_isPlainName h d ?_
  rw [Vendor.apply, String.toList_append]
  exact List.mem_append_right _ hd

section

variable {ds : List Declaration} {c : String} {d : Declaration}
  (hplain : ∀ d ∈ ds, isPlainName d.name.toList = true)

include hplain

theorem isNameChar_of_mem_canonicalNames (hc : c ∈ canonicalNames ds) :
    ∀ x ∈ c.toList, isNameChar x = true ∧ x ≠ '\x00' := by
  obtain ⟨e, he, hopens⟩ := mem_canonicalNames.1 hc
  have hname := hplain e he
  rcases Declaration.opens_iff.1 hopens with ⟨-, v, hv⟩ | ⟨hself, -⟩
  · rw [hv] at hname
    exact isNameChar_of_apply hname
  · rw [hself] at hname
    exact isNameChar_of_isPlainName hname

/-- What is filled in has a plain name unless the name is a stub. -/
theorem isPlainName_of_mem_missingForms (hd : d ∈ missingForms ds) :
    isPlainName d.name.toList = !isStub d.name.toList := by
  obtain ⟨e, -, c, hc, n, hn, rfl⟩ := exists_of_mem_missingForms hd
  have hchars := isNameChar_of_mem_canonicalNames hplain hc
  rcases mem_forms.1 hn with ⟨v, rfl⟩ | rfl
  · have hmarked := isPlainName_apply v hchars
    show isPlainName (v.apply c).toList = !isStub (v.apply c).toList
    rw [hmarked, isStub_of_isPlainName hmarked]
    rfl
  · refine isPlainName_eq_not_isStub ?_ hchars
    simpa using ne_empty_of_mem_canonicalNames hc

/-- A stub is filled in exactly if a vendor's form of it is declared. -/
theorem declares_missingForms_stub (hc : isStub c.toList = true) :
    declares (missingForms ds) c = true ↔
      ∃ v : Vendor, declares ds (v.apply c) = true := by
  have hnotPlain : isPlainName c.toList ≠ true := fun h => by
    rw [isStub_of_isPlainName h] at hc
    cases hc
  have hnew : declares ds c = false := by
    refine Bool.eq_false_iff.2 fun hold => ?_
    obtain ⟨e, he, hname⟩ := List.any_eq_true.1 hold
    rw [← eq_of_beq hname] at hnotPlain
    exact hnotPlain (hplain e he)
  have hne : c ≠ "" := by
    rintro rfl
    cases hc
  have hmissing : declares (missingForms ds) c = true ↔
      ∃ e ∈ canonicalNames ds, c ∈ forms e := by
    have hfill : declares (fill ds) c = true ↔ _ := declares_fill
    rw [fill, declares_append, hnew] at hfill
    simpa using hfill
  rw [hmissing]
  constructor
  · rintro ⟨e, he, hform⟩
    -- A vendor's form is no stub, so the stub is filled in as itself; and
    -- not because it is listed, as then it would be declared.
    rcases mem_forms.1 hform with ⟨v, rfl⟩ | rfl
    · exact absurd (isPlainName_apply v
        (isNameChar_of_mem_canonicalNames hplain he)) hnotPlain
    · rcases mem_canonicalNames_iff.1 he with ⟨-, hmarked⟩ | ⟨hold, -⟩
      · exact hmarked
      · rw [hnew] at hold
        cases hold
  · rintro ⟨v, hv⟩
    exact ⟨c, mem_canonicalNames_iff.2 (Or.inl ⟨hne, v, hv⟩),
      mem_forms.2 (Or.inr rfl)⟩

theorem isPlainName_of_mem_fill (hwhole : Stubless ds) (hd : d ∈ fill ds) :
    isPlainName d.name.toList = true := by
  rcases List.mem_append.1 hd with hold | hnew
  · exact hplain d hold
  · rw [isPlainName_of_mem_missingForms hplain hnew, Bool.not_eq_true']
    refine Bool.eq_false_iff.2 fun hstub => ?_
    have hdeclared : declares (missingForms ds) d.name = true :=
      List.any_eq_true.2 ⟨d, hnew, beq_self_eq_true _⟩
    obtain ⟨v, hv⟩ := (declares_missingForms_stub hplain hstub).1 hdeclared
    obtain ⟨e, he, hname⟩ := List.any_eq_true.1 hv
    rw [hwhole e he v d.name (eq_of_beq hname)] at hstub
    cases hstub

end

/-- Where no form of a stub is declared, what is filled in can be printed as
well as what is declared. -/
theorem legible_fill {ds : List Declaration} (h : ∀ d ∈ ds, d.Legible)
    (hwhole : Stubless ds) : ∀ d ∈ fill ds, d.Legible := by
  intro d hd
  have hname := isPlainName_of_mem_fill (fun e he => (h e he).name) hwhole hd
  rcases List.mem_append.1 hd with hold | hnew
  · exact h d hold
  · obtain ⟨e, he, c, -, n, -, rfl⟩ := exists_of_mem_missingForms hnew
    exact ⟨hname, (h e he).value, (h e he).plain⟩

/-! ## Runs over a sheet -/

/-- What a run does to a block of a sheet whose declared names are all
identifiers, when it appends the declarations `appended`. -/
structure Block.KeepsIdentifiers (b b' : Block)
    (appended : List Declaration) : Prop where
  declarations : b'.declarations = b.declarations ++ appended
  /-- The names that are appended are identifiers, but for stubs. -/
  identifier :
    ∀ d ∈ appended, IsIdentifier d.name ↔ isStub d.name.toList = false
  /-- A stub is appended exactly if a vendor's form of it was declared. -/
  stub : ∀ c, isStub c.toList = true → (declares appended c = true ↔
    ∃ v : Vendor, declares b.declarations (v.apply c) = true)
  /-- If there was no such form, all names are identifiers afterwards. -/
  whole : Stubless b.declarations →
    ∀ d ∈ b'.declarations, IsIdentifier d.name
  /-- If besides what was declared could be read back, everything can. -/
  readBack : Stubless b.declarations → (∀ d ∈ b.declarations, d.Legible) →
    ∀ d ∈ b'.declarations, ∀ layout depth,
      (tree (components (d.wrapped layout depth).toList)).1 = d.alone

theorem Block.FilledOnce.keepsIdentifiers {b b' : Block}
    (h : b.FilledOnce b') (hnames : ∀ d ∈ b.declarations, IsIdentifier d.name) :
    b.KeepsIdentifiers b' (missingForms b.declarations) := by
  have hplain : ∀ d ∈ b.declarations, isPlainName d.name.toList = true :=
    fun d hd => isIdentifier_iff.1 (hnames d hd)
  refine ⟨h.declarations, fun d hd => ?_,
    fun c hc => declares_missingForms_stub hplain hc, fun hwhole d hd => ?_,
    fun hwhole hlegible d hd layout depth => ?_⟩
  · rw [isIdentifier_iff, isPlainName_of_mem_missingForms hplain hd,
      Bool.not_eq_true']
  · rw [h.declarations] at hd
    exact isIdentifier_iff.2 (isPlainName_of_mem_fill hplain hwhole hd)
  · rw [h.declarations] at hd
    rw [(legible_fill hlegible hwhole d hd).tree_wrapped]

/-- A run over the tree of a sheet comes to its end. In each block in which all
names are identifiers it appends identifiers and stubs: of each vendor's form of
a stub that was declared there, the stub, and no other. So the names of a block
in which no such form is declared are identifiers after the run, and if its
declarations can be read back where they are printed, they can be afterwards. -/
theorem Filler.run_keepsIdentifiers [Validator] (f : Filler) {css : String}
    {t : Block} {records : List Record}
    (hparse : Sheet.parse css = .ok (t, records)) :
    (f.run t).result = .ok () ∧
    List.Forall₂ (fun b b' => (∀ d ∈ b.declarations, IsIdentifier d.name) →
      ∃ appended, b.KeepsIdentifiers b' appended)
      t.preorder (f.run t).tree.preorder := by
  obtain ⟨hresult, hfilled⟩ := f.run_sheet (Sheet.tidySheet_of_parse hparse)
  exact ⟨hresult, hfilled.imp fun b b' h hnames =>
    ⟨_, h.keepsIdentifiers hnames⟩⟩

/-- Two rules in a group. A stub comes out of the first; in the second there is
one name whose mark can be taken off, and one that is a mark alone. -/
theorem Filler.run_keepsIdentifiers_group :
    let css := "@media print\x7ba\x7b-o-1x:0\x7db\x7b-ms--y:1;-o-:2\x7d\x7d"
    let first : List Declaration := [⟨"-o-1x", "0", false⟩]
    let second : List Declaration :=
      [⟨"-ms--y", "1", false⟩, ⟨"-o-", "2", false⟩]
    ∃ t records, Sheet.parse css = .ok (t, records) ∧
      (∀ d ∈ first ++ second, IsIdentifier d.name) ∧ Stubless second ∧
      ∀ f : Filler, (f.run t).result = .ok () ∧
        (∃ b ∈ t.preorder, b.declarations = first ∧
          ∃ b' ∈ (f.run t).tree.preorder, ∃ appended,
            b.KeepsIdentifiers b' appended ∧ declares appended "1x" = true ∧
              ¬ IsIdentifier "1x") ∧
        ∃ b ∈ t.preorder, b.declarations = second ∧
          ∃ b' ∈ (f.run t).tree.preorder, ∀ d ∈ b'.declarations,
            IsIdentifier d.name ∧
              (tree (components (d.wrapped .pretty 1).toList)).1 = d.alone := by
  intro css first second
  have hnames : ∀ d ∈ first ++ second, IsIdentifier d.name := by decide +kernel
  have hlegible : ∀ d ∈ second, d.Legible := by decide +kernel
  have hwhole : Stubless second := by
    have hforms : ∀ d ∈ second, d.name = Vendor.ms.apply "-y" ∨
        d.name = Vendor.o.apply "" := by
      decide
    intro d hd v c hc
    rcases hforms d hd with hname | hname
    · rw [← (Vendor.apply_inj.1 (hname.symm.trans hc)).2]
      decide
    · rw [← (Vendor.apply_inj.1 (hname.symm.trans hc)).2]
      decide
  have hsheet : ∃ t records, Sheet.parse css = .ok (t, records) ∧
      ∀ ds ∈ [first, second], ∃ b ∈ t.preorder, b.declarations = ds := by
    have haccepted : Grammar.isSheet (components css.toList) = true := by
      decide +kernel
    refine ⟨_, _, if_pos haccepted, by decide +kernel⟩
  obtain ⟨t, records, hparse, hblocks⟩ := hsheet
  refine ⟨t, records, hparse, hnames, hwhole, fun f => ?_⟩
  obtain ⟨hresult, hkeeps⟩ := f.run_keepsIdentifiers hparse
  refine ⟨hresult, ?_, ?_⟩
  · obtain ⟨b, hb, hds⟩ := hblocks first (by simp)
    obtain ⟨b', hb', hb''⟩ := exists_mem_of_forall₂ hkeeps b hb
    obtain ⟨appended, h⟩ := hb'' fun d hd =>
      hnames d (List.mem_append_left _ (hds ▸ hd))
    have hform : declares b.declarations (Vendor.o.apply "1x") = true := by
      rw [hds]
      decide
    exact ⟨b, hb, hds, b', hb', appended, h,
      (h.stub "1x" (by decide)).2 ⟨.o, hform⟩, by decide +kernel⟩
  · obtain ⟨b, hb, hds⟩ := hblocks second (by simp)
    obtain ⟨b', hb', hb''⟩ := exists_mem_of_forall₂ hkeeps b hb
    obtain ⟨appended, h⟩ := hb'' fun d hd =>
      hnames d (List.mem_append_right _ (hds ▸ hd))
    rw [← hds] at hwhole hlegible
    exact ⟨b, hb, hds, b', hb', fun d hd =>
      ⟨h.whole hwhole d hd, h.readBack hwhole hlegible d hd .pretty 1⟩⟩

/-- The four vendors' forms of what is no identifier. Each of them is one, so a
run appends what they are forms of, and the output is no sheet. -/
theorem Filler.run_appends_stub :
    let css := "a\x7b-webkit-1x:r;-moz-1x:r;-o-1x:r;-ms-1x:r\x7d"
    let out := "a\x7b-webkit-1x:r;-moz-1x:r;-o-1x:r;-ms-1x:r;1x:r\x7d"
    let names := ["-webkit-1x", "-moz-1x", "-o-1x", "-ms-1x"]
    let blocks := fun names : List String => [(BlockKind.root, []),
      (BlockKind.style ["a"],
        names.map fun n => (⟨n, "r", false⟩ : Declaration))]
    let overview := fun t : Block =>
      t.preorder.map fun b => (b.kind, b.declarations)
    ∃ t records, Sheet.parse css = .ok (t, records) ∧
      overview t = blocks names ∧ (∀ n ∈ names, IsIdentifier n) ∧
      overview ((Filler.new .default).run t).tree = blocks (names ++ ["1x"]) ∧
      tokenize "1x".toList = [⟨.dimension ['x'], "1x".toList⟩] ∧
      ¬ IsIdentifier "1x" ∧
      (generate css .default .compact).1 = .ok out ∧
      Sheet.parse out = .error (.malformedSheet (Validator.reason out)) := by
  intro css out names blocks overview
  have haccepted : Grammar.isSheet (components css.toList) = true := by
    decide +kernel
  have hrejected : ¬ Grammar.isSheet (components out.toList) = true := by
    decide +kernel
  exact ⟨_, _, if_pos haccepted, by decide +kernel, by decide +kernel,
    by decide +kernel, by decide +kernel, by decide +kernel, by decide +kernel,
    if_neg hrejected⟩

end CssVendor
