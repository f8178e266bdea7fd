import CssVendor.Proofs.Legible
import CssVendor.Proofs.SelectorText

/-!
# Headers that can be read back

What stands before the opening brace of a rule. The selectors of a style rule
are cut apart at the commas and trimmed, which undoes how they were put
together; of an at-rule the name is kept and the prelude trimmed.
-/

namespace CssVendor

open Syntax Text Sheet

variable {x : List Char} {f : Parts Body → Body}

/-! ## Segments -/

/-- The components of one selector, with blanks around them. -/
structure Segment (s : List Char) (cs : List Component) : Prop where
  goesOn : ∀ c ∈ cs, c.goesOn true = true
  single : ∀ c ∈ cs, c.isToken .comma = false
  text : selectorText (annotate bodyOf cs) = s

theorem splitCommas_single {cs : List Component}
    (h : ∀ c ∈ cs, c.isToken .comma = false) :
    splitCommas (annotate f cs) = [annotate f cs] := by
  induction cs with
  | nil => rfl
  | cons c cs ih =>
      have hc : (c.annotate f).isToken .comma = false := by
        rw [Annotated.isToken, component_annotate]
        exact h c (by simp)
      rw [annotate_cons, splitCommas, hc, ih fun d hd => h d (by simp [hd])]
      rfl

theorem splitCommas_append {cs cs' : List Component} {t : Token}
    (ht : t.kind = .comma) (h : ∀ c ∈ cs, c.isToken .comma = false) :
    splitCommas (annotate f (cs ++ .token t :: cs')) =
      annotate f cs :: splitCommas (annotate f cs') := by
  induction cs with
  | nil =>
      have hcomma : ((Component.token t).annotate f).isToken .comma = true := by
        simp [Annotated.isToken, Component.isToken, ht]
      rw [List.nil_append, annotate_cons, splitCommas, hcomma]
      rfl
  | cons c cs ih =>
      have hc : (c.annotate f).isToken .comma = false := by
        rw [Annotated.isToken, component_annotate]
        exact h c (by simp)
      rw [List.cons_append, annotate_cons, splitCommas, hc,
        ih fun d hd => h d (by simp [hd])]
      rfl

theorem selectorText_eq {cs blanks : List Component} {t : Token}
    (hblanks : ∀ d ∈ blanks, d.IsSpace) (ht : t.kind.isBlank = false) :
    selectorText (annotate bodyOf (cs ++ .token t :: blanks)) =
      trim (textOf (cs ++ .token t :: blanks)) := by
  have hblank : ∀ c ∈ textOf blanks, isBlank c = true := by
    induction blanks with
    | nil => simp
    | cons d blanks ih =>
        obtain ⟨w, rfl, hw⟩ := hblanks d (by simp)
        intro c hc
        rcases List.mem_append.1 hc with hc | hc
        · exact isBlank_of_isSpace (hw c hc)
        · exact ih (fun e he => hblanks e (by simp [he])) c hc
  have htoken : Component.isBlank (.token t) = false := ht
  have htext : textOf (cs ++ .token t :: blanks) =
      textOf cs ++ t.text ++ textOf blanks := by
    rw [textOf_append, textOf_cons, Component.text_token, List.append_assoc]
  have hall : ∀ d ∈ blanks, d.isBlank = true := by
    intro d hd
    obtain ⟨w, rfl, -⟩ := hblanks d hd
    rfl
  rw [selectorText_concat (componentsOf_annotate bodyOf _) htoken hall, htext,
    trim_append_blanks hblank]
  rfl

theorem components_ne_nil {s : List Char} (hs : s ≠ []) : components s ≠ [] := by
  intro hnil
  have htext := textOf_components s
  rw [hnil] at htext
  exact hs htext.symm

/-- A legible selector with blanks around it is a segment that says it. -/
theorem segment_padded {s : List Char} {blanks middle blanks' : List Component}
    {lead trail : List Char} (h : LegibleSelector s)
    (hreads : Reads (lead ++ (s ++ trail)) (blanks ++ (middle ++ blanks')) x)
    (hlike : List.Forall₂ Component.Like (components s) middle)
    (hblanks : ∀ c ∈ blanks ++ blanks', c.IsSpace)
    (hlead : ∀ c ∈ lead, isBlank c = true)
    (htrail : ∀ c ∈ trail, isBlank c = true) :
    Segment s (blanks ++ (middle ++ blanks')) := by
  refine ⟨goesOn_padded h.toLegibleText hlike hblanks, ?_, ?_⟩
  · refine forall_padded h.single hlike hblanks
      (fun c c' hlike hc => (isToken_of_like hlike .comma).trans hc) ?_
    rintro c ⟨w, rfl, -⟩
    rfl
  · have htext := hreads.text
    have hcomponents := List.dropLast_append_getLast (components_ne_nil h.nonempty)
    have hlast := h.last _
      (List.getLast?_eq_some_getLast (components_ne_nil h.nonempty))
    rw [← hcomponents] at hlike
    -- The last component may have become longer, but is still a token.
    obtain ⟨m, c, rfl, hc⟩ := forall₂_concat hlike
    obtain ⟨t', rfl, ht'⟩ := exists_token_of_endsSelector
      ((endsSelector_of_like hc).trans hlast)
    have hsplit : blanks ++ (m ++ [.token t'] ++ blanks') =
        (blanks ++ m) ++ .token t' :: blanks' := by simp
    rw [hsplit] at htext ⊢
    rw [selectorText_eq (fun d hd => hblanks d (List.mem_append_right _ hd)) ht',
      htext, trim_append h.trimmed hlead htrail]

/-! ## Selectors -/

/-- Components begin as a rule begins. -/
def StartsRule (cs : List Component) : Prop :=
  ∃ c cs', cs = c :: cs' ∧ c.kind.startsRule = true

theorem StartsRule.append {cs : List Component} (h : StartsRule cs)
    (cs' : List Component) : StartsRule (cs ++ cs') := by
  obtain ⟨c, cs, rfl, hc⟩ := h
  exact ⟨c, cs ++ cs', rfl, hc⟩

theorem reads_selector {s lead trail : List Char} (h : LegibleSelector s)
    (hlead : ∀ c ∈ lead, isSpace c = true)
    (htrail : ∀ c ∈ trail, isSpace c = true)
    (hx : StartsBreak x) (hblank : headIs isSpace x = false) :
    ∃ cs, Reads (lead ++ (s ++ trail)) cs x ∧ Segment s cs ∧
      (lead = [] → StartsRule cs) := by
  have hall : ∀ {w : List Char}, (∀ c ∈ w, isSpace c = true) →
      ∀ c ∈ w, isBlank c = true := fun hw c hc => isBlank_of_isSpace (hw c hc)
  obtain ⟨blanks, middle, blanks', hreads, hlike, hblanks, hfirst⟩ :=
    reads_padded h.closed h.trimmed hlead htrail hx hblank
  refine ⟨_, hreads, segment_padded h hreads hlike hblanks (hall hlead)
    (hall htrail), fun hnil => ?_⟩
  rw [hfirst hnil h.nonempty]
  cases hcs : components s with
  | nil => exact absurd hcs (components_ne_nil h.nonempty)
  | cons c cs =>
      have hc := h.first c (by rw [hcs]; rfl)
      rw [hcs] at hlike
      cases hlike with
      | cons hlike _ =>
          exact ⟨_, _, rfl, by rw [kind_of_like hlike]; exact hc⟩

/-- Selectors as they are printed before an opening brace, `lead` before the
first of them. -/
def selectorChars (pad : List Char) : List Char → List (List Char) → List Char
  | _, [] => []
  | lead, [s] => lead ++ (s ++ pad)
  | lead, s :: rest => lead ++ (s ++ ',' :: selectorChars pad pad rest)

/-- Printed selectors read as segments between commas. -/
theorem reads_selectors (layout : Layout) {sels : List (List Char)}
    {lead : List Char} (hsels : sels ≠ [])
    (h : ∀ s ∈ sels, LegibleSelector s) (hlead : ∀ c ∈ lead, isSpace c = true)
    (hx : StartsBreak x) (hblank : headIs isSpace x = false) :
    ∃ cs, Reads (selectorChars layout.pad lead sels) cs x ∧
      (∀ c ∈ cs, c.goesOn true = true) ∧
      (splitCommas (annotate bodyOf cs)).map selectorText = sels ∧
      (lead = [] → StartsRule cs) := by
  match sels with
  | [] => exact absurd rfl hsels
  | [s] =>
      obtain ⟨cs, hreads, hsegment, hstarts⟩ :=
        reads_selector (h s (by simp)) hlead layout.isSpace_pad hx hblank
      refine ⟨cs, hreads, hsegment.goesOn, ?_, hstarts⟩
      rw [splitCommas_single hsegment.single, List.map_singleton,
        hsegment.text]
  | s :: s' :: rest =>
      obtain ⟨cs', hreads', hgoesOn, hsplit, -⟩ :=
        reads_selectors layout (List.cons_ne_nil s' rest)
          (fun t ht => h t (by simp [ht])) layout.isSpace_pad hx hblank
      have hcomma := Reads.mark (c := ',') (by decide) rfl
        (selectorChars layout.pad layout.pad (s' :: rest) ++ x)
      obtain ⟨cs, hreads, hsegment, hstarts⟩ :=
        reads_selector (h s (by simp)) hlead (List.forall_mem_nil _)
          (x := ',' :: (selectorChars layout.pad layout.pad (s' :: rest) ++ x))
          (startsBreak_cons (by decide) (by decide) (by decide)) rfl
      rw [List.append_nil] at hreads
      refine ⟨cs ++ .token ⟨.comma, [',']⟩ :: cs', ?_, ?_, ?_,
        fun hnil => (hstarts hnil).append _⟩
      · have hall := hreads.append (hcomma.append hreads')
        rw [List.append_assoc] at hall
        exact hall
      · intro c hc
        rcases List.mem_append.1 hc with hc | hc
        · exact hsegment.goesOn c hc
        · rcases List.mem_cons.1 hc with rfl | hc
          · rfl
          · exact hgoesOn c hc
      · rw [splitCommas_append rfl hsegment.single, List.map_cons,
          hsegment.text, hsplit]

/-! ## Headers -/

/-- What stands before the opening brace of a printed block. -/
def BlockKind.written (layout : Layout) (kind : BlockKind) : List Char :=
  (kind.header layout).toList ++ layout.pad

theorem selectorChars_eq (layout : Layout) {sels : List String}
    (hsels : sels ≠ []) (lead : List Char) :
    selectorChars layout.pad lead (sels.map String.toList) =
      lead ++ (String.intercalate layout.comma sels).toList ++ layout.pad := by
  have hcomma : layout.comma.toList = ',' :: layout.pad := by
    cases layout <;> decide
  rw [String.toList_intercalate, hcomma]
  induction sels generalizing lead with
  | nil => exact absurd rfl hsels
  | cons s sels ih =>
      cases sels with
      | nil => simp [selectorChars, List.intercalate]
      | cons s' sels =>
          have hrest := ih (by simp) layout.pad
          simp only [List.map_cons] at hrest ⊢
          rw [selectorChars, hrest]
          · simp [List.intercalate]
          · simp

theorem goesOn_of_goesOn_true {c : Component} (h : c.goesOn true = true)
    (semicolonEnds : Bool) : c.goesOn semicolonEnds = true := by
  cases semicolonEnds with
  | true => exact h
  | false =>
      rw [Component.goesOn, Bool.and_eq_true] at h
      rw [Component.goesOn, h.1]
      rfl

/-- The opening brace. -/
def openingBrace : Token := ⟨.openCurly, ['\x7b']⟩

/-- A rule with a selector becomes a block. -/
theorem ofItem_selectors {cs : List Component}
    (h : selectors (annotate bodyOf cs) ≠ []) (place : Place)
    (block : Annotated Body × Body) :
    ofItem place (.rule (annotate bodyOf cs) block) =
      .ofBlock (.style ((selectors (annotate bodyOf cs)).map String.ofList))
        block.2 := by
  obtain ⟨p, body⟩ := block
  rw [ofItem]
  split
  · next hnil => exact absurd hnil h
  · rfl

theorem ofItem_rule {cs : List Component} {sels : List (List Char)}
    (hsels : ∀ s ∈ sels, s ≠ []) (hne : sels ≠ [])
    (h : (splitCommas (annotate bodyOf cs)).map selectorText = sels)
    (place : Place) (block : Annotated Body × Body) :
    ofItem place (.rule (annotate bodyOf cs) block) =
      .ofBlock (.style (sels.map String.ofList)) block.2 := by
  have hselectors : selectors (annotate bodyOf cs) = sels := by
    rw [selectors, h, List.filter_eq_self]
    intro s hs
    simpa using hsels s hs
  rw [← hselectors] at hne ⊢
  exact ofItem_selectors hne place block

theorem reads_style {selectors : List String} (hne : selectors ≠ [])
    (h : ∀ s ∈ selectors, LegibleSelector s.toList) (layout : Layout)
    (x : List Char) :
    ∃ cs, Reads ((BlockKind.style selectors).written layout) cs
        ('\x7b' :: x) ∧
      ∀ place content closer,
        Says place (cs ++ [.block openingBrace content closer])
          (.ofBlock (.style selectors) (bodyOf (annotate bodyOf content))) := by
  have hsels : ∀ s ∈ selectors.map String.toList, LegibleSelector s := by
    intro s hs
    obtain ⟨t, ht, rfl⟩ := List.mem_map.1 hs
    exact h t ht
  have hbrace : StartsBreak ('\x7b' :: x) :=
    startsBreak_cons (by decide) (by decide) (by decide)
  obtain ⟨cs, hreads, hgoesOn, hsplit, hstarts⟩ :=
    reads_selectors layout (by simpa using hne) hsels (List.forall_mem_nil _)
      hbrace rfl
  refine ⟨cs, ?_, fun place content closer => ?_⟩
  · rw [selectorChars_eq layout hne, List.nil_append] at hreads
    exact hreads
  · obtain ⟨c, cs, rfl, hc⟩ := hstarts rfl
    have hyields : Yields bodyOf place
        (c :: cs ++ [.block openingBrace content closer]) _ :=
      yields_rule rfl hc
        (fun d hd => goesOn_of_goesOn_true (hgoesOn d hd) _) content closer
    have hitem := ofItem_rule
      (fun s hs => (hsels s hs).nonempty) (by simpa using hne) hsplit place
      (Syntax.curly bodyOf openingBrace content closer)
    have hlist : (selectors.map String.toList).map String.ofList = selectors := by
      simp
    have hsaid := Says.item hyields rfl
    rw [hitem, hlist] at hsaid
    exact hsaid

theorem atRule_written (layout : Layout) (name prelude : String) :
    ∃ lead, (lead = [] ∨ lead = [' ']) ∧
      (lead = [] → prelude.toList = []) ∧
      (BlockKind.atRule name prelude).written layout =
        '@' :: name.toList ++ (lead ++ (prelude.toList ++ layout.pad)) := by
  by_cases hprelude : prelude = ""
  · subst hprelude
    refine ⟨[], Or.inl rfl, fun _ => rfl, ?_⟩
    simp [BlockKind.written, BlockKind.header]
  · refine ⟨[' '], Or.inr rfl, ?_, ?_⟩
    · rintro ⟨⟩
    · simp [BlockKind.written, BlockKind.header, hprelude]

theorem atRuleName_kept {name : String}
    (hname : name = "media" ∨ name = "supports") :
    atRuleName ⟨.atKeyword name.toList, '@' :: name.toList⟩ = name := by
  rcases hname with rfl | rfl <;> decide

theorem ofItem_kept {keyword : Token}
    (h : isKept (atRuleName keyword) = true) (cs : List Component)
    (place : Place) (block : Annotated Body × Body) :
    ofItem place (.atRule keyword (annotate bodyOf cs) (some block)) =
      .ofBlock (.atRule (atRuleName keyword) (String.ofList (trim (textOf cs))))
        block.2 := by
  obtain ⟨p, body⟩ := block
  simp only [ofItem, h, if_true, componentsOf_annotate]

/-- A group with its block, under an at-rule that is kept. -/
theorem says_kept {place : Place} {keyword : Token} {name : List Char}
    {prelude : List Component} (hkeyword : keyword.kind = .atKeyword name)
    (hkept : isKept (atRuleName keyword) = true)
    (hflat : ∀ c ∈ prelude, c.goesOn true = true) (content : List Component)
    (closer : Option Token) :
    Says place (.token keyword :: prelude ++
        [.block openingBrace content closer])
      (.ofBlock (.atRule (atRuleName keyword)
          (String.ofList (trim (textOf prelude))))
        (bodyOf (annotate bodyOf content))) := by
  have hitem := ofItem_kept hkept prelude place
    (Syntax.curly bodyOf openingBrace content closer)
  have hcharset : (atRuleName keyword == "charset") = false := by
    refine beq_eq_false_iff_ne.2 fun hname => ?_
    rw [hname] at hkept
    cases hkept
  exact hitem ▸ Says.item (yields_atRule hkeyword rfl hflat content closer)
    hcharset

theorem reads_atRule {name prelude : String}
    (hname : name = "media" ∨ name = "supports")
    (h : LegibleText prelude.toList) (layout : Layout) (x : List Char) :
    ∃ cs, Reads ((BlockKind.atRule name prelude).written layout) cs
        ('\x7b' :: x) ∧
      ∀ place content closer,
        Says place (cs ++ [.block openingBrace content closer])
          (.ofBlock (.atRule name prelude)
            (bodyOf (annotate bodyOf content))) := by
  have hbrace : StartsBreak ('\x7b' :: x) :=
    startsBreak_cons (by decide) (by decide) (by decide)
  have hplain : isPlainName name.toList = true := by
    rcases hname with rfl | rfl <;> decide
  obtain ⟨lead, hlead, hnil, hheader⟩ := atRule_written layout name prelude
  have hspace : ∀ c ∈ lead, isSpace c = true := by
    rcases hlead with rfl | rfl <;> decide
  obtain ⟨blanks, middle, blanks', hreads, hlike, hblanks, -⟩ :=
    reads_padded h.closed h.trimmed hspace layout.isSpace_pad hbrace rfl
  have hnext : headIs extendsName
      (lead ++ (prelude.toList ++ layout.pad) ++ '\x7b' :: x) = false := by
    rcases hlead with rfl | rfl
    · rw [hnil rfl]
      cases layout <;> rfl
    · rfl
  have hkeyword := Reads.atKeyword hplain hnext
  refine ⟨_, by rw [hheader]; exact hkeyword.append hreads,
    fun place content closer => ?_⟩
  have hkept : isKept (atRuleName
      ⟨.atKeyword name.toList, '@' :: name.toList⟩) = true := by
    rw [atRuleName_kept hname]
    rcases hname with rfl | rfl <;> rfl
  have hblank : ∀ c ∈ lead, isBlank c = true :=
    fun c hc => isBlank_of_isSpace (hspace c hc)
  have htrim : String.ofList (trim (textOf (blanks ++ (middle ++ blanks')))) =
      prelude := by
    rw [hreads.text, trim_append h.trimmed hblank layout.isBlank_pad]
    simp
  have hsaid : Says place _ _ := says_kept rfl hkept
    (goesOn_padded h hlike hblanks) content closer
  rwa [atRuleName_kept hname, htrim] at hsaid

/-- A legible header, with a block behind it, says a block of its kind. -/
theorem BlockKind.Legible.reads {kind : BlockKind} (h : kind.Legible)
    (layout : Layout) (x : List Char) :
    ∃ cs, Reads (kind.written layout) cs ('\x7b' :: x) ∧
      ∀ place content closer,
        Says place (cs ++ [.block openingBrace content closer])
          (.ofBlock kind (bodyOf (annotate bodyOf content))) := by
  match kind, h with
  | .style selectors, h => exact reads_style h.1 h.2 layout x
  | .atRule name prelude, h => exact reads_atRule h.1 h.2 layout x

end CssVendor
