import CssVendor.Proofs.Header
import CssVendor.Proofs.SheetRules

/-!
# The text of a body, piece by piece

The body of a rule as it is written: declarations and rules one behind the
other, with white space, comments and further semicolons in between.

A piece ends with a mark, a semicolon or a closing brace, and so is read as
what it is read as alone. Between two pieces that is not so for every text,
as a name could go on; but white space and comments end by themselves, as long
as no white space follows (`tokenize_gap_append`). So a body reads as its
pieces do, whatever stands before and behind them.
-/

namespace CssVendor.Syntax

variable {s x : List Char}

/-! ## What only separates -/

/-- Whether a token of this kind only separates the items of a body. -/
def TokenKind.separates (kind : TokenKind) : Bool :=
  kind.isBlank || kind == .semicolon

theorem readKind_slash {t : List Char} (h : ¬ ['*'] <+: t) :
    readKind ('/' :: t) = (.delim '/', 1) := by
  have hnumber : numberLength ('/' :: t) = 0 := numberLength_eq_zero rfl
  have hident : startsIdent ('/' :: t) = false := by
    rw [startsIdent_cons]
    rfl
  rw [readKind_cons, if_neg (by simp [h]), if_neg (by simp), if_neg (by simp),
    readPlain, hnumber, hident]
  rfl

/-- A token that only separates does not depend on what follows, unless white
space goes on. -/
theorem readKind_gap_append (hs : s ≠ [])
    (hend : (readKind (s ++ [';'])).2 ≤ s.length)
    (hkind : (readKind s).1.separates = true)
    (hx : headIs isSpace x = false) : readKind (s ++ x) = readKind s := by
  cases s with
  | nil => exact absurd rfl hs
  | cons c t =>
      have hsuits := suits_readKind c t
      rw [List.cons_append]
      cases hread : (readKind (c :: t)).1 with
      | space =>
          rw [hread] at hsuits
          rw [readKind_blank hsuits, readKind_blank hsuits,
            takeWhile_append_of_head hx]
      | semicolon =>
          rw [hread] at hsuits
          obtain rfl : c = ';' := hsuits
          rw [readKind_mark (by decide), readKind_mark (by decide)]
      | comment =>
          rw [hread] at hsuits
          obtain rfl : c = '/' := hsuits
          by_cases hopen : ['*'] <+: t
          · obtain ⟨t, rfl⟩ := hopen
            have hclosed : commentLength (t ++ [';']) ≤ t.length :=
              Nat.le_of_add_le_add_right hend
            show (_, commentLength (t ++ x) + 2) = (_, commentLength t + 2)
            rw [commentLength_append x hclosed]
          · rw [readKind_slash hopen] at hread
            cases hread
      | _ => rw [hread] at hkind; cases hkind

/-- Behind a finished text that only separates begin new tokens, unless white
space goes on. -/
theorem tokenize_gap_append (h : Finished s)
    (hkinds : ∀ t ∈ tokenize s, t.kind.separates = true)
    (hx : headIs isSpace x = false) :
    tokenize (s ++ x) = tokenize s ++ tokenize x := by
  refine tokenize_append_of_readKind h fun b hb hsuffix hend => ?_
  refine readKind_gap_append hb hend ?_ hx
  rw [tokenize_eq hb] at hsuffix
  exact hkinds _ (hsuffix.subset (List.mem_cons_self ..))

/-- What reads as anything but white space does not begin with it. -/
theorem Reads.head_not_space {c : Component} {cs : List Component}
    (h : Reads s (c :: cs) x) (hc : c.kind ≠ .space) :
    headIs isSpace (s ++ x) = false := by
  obtain ⟨ts, hnests, htokens⟩ := h
  have hts : ts = c.tokens ++ tokensOf cs := by
    rw [← tokensOf_nest ts, hnests.nest, tokensOf_cons]
  obtain ⟨t, rest, hfirst, hkind⟩ : ∃ t rest, c.tokens = t :: rest ∧
      t.kind = c.kind := by
    cases c with
    | token t => exact ⟨t, [], rfl, rfl⟩
    | block opener content closer => exact ⟨opener, _, rfl, rfl⟩
  rw [hts, hfirst] at htokens
  cases hs : s ++ x with
  | nil => rfl
  | cons d b =>
      rw [hs, tokenize_eq (by simp)] at htokens
      have hread : (readKind (d :: b)).1 = t.kind :=
        congrArg Token.kind (List.cons.inj htokens).1
      refine Bool.eq_false_iff.2 fun hspace => hc ?_
      rw [← hkind, ← hread, readKind_blank hspace]

end CssVendor.Syntax

namespace CssVendor.Sheet

open Syntax Text

variable {x : List Char}

/-! ## Gaps -/

/-- What separates the pieces of a body: white space, comments and
semicolons. -/
structure Gap where
  text : List Char
  closed : Closed text
  separates : ∀ t ∈ tokenize text, t.kind.separates = true

theorem says_separators {ts : List Token}
    (h : ∀ t ∈ ts, t.kind.separates = true) :
    Nests ts (ts.map .token) ∧ Says .body (ts.map .token) .empty := by
  induction ts with
  | nil => exact ⟨Nests.nil, Says.nil .body⟩
  | cons t ts ih =>
      obtain ⟨ht, hts⟩ := List.forall_mem_cons.1 h
      obtain ⟨hnests, hsays⟩ := ih hts
      have hplain : t.kind.isPlain = true := by
        cases hkind : t.kind <;> rw [hkind] at ht <;> first | rfl | cases ht
      have hgap : Says .body [.token t] .empty := Says.gap ht
      exact ⟨(Nests.token hplain).append hnests, hgap.append hsays⟩

/-- A gap says nothing, and leaves what follows as it is. -/
theorem Gap.reads (g : Gap) (hx : headIs isSpace x = false) :
    ∃ cs, Reads g.text cs x ∧ Says .body cs .empty := by
  obtain ⟨hnests, hsays⟩ := says_separators g.separates
  exact ⟨_, ⟨_, hnests, tokenize_gap_append g.closed.finished g.separates hx⟩,
    hsays⟩

/-! ## Declarations -/

/-- A declaration as it is written, with its semicolon: the name has no
escapes, and the value is complete in itself and has neither a semicolon nor a
block in curly brackets outside other brackets. -/
structure WrittenDeclaration where
  name : List Char
  value : List Char
  plain : isPlainName name = true
  closed : Closed value
  flat : ∀ c ∈ components value, c.goesOn true = true

namespace WrittenDeclaration

def text (d : WrittenDeclaration) : List Char :=
  d.name ++ ([':'] ++ (d.value ++ [';']))

/-- What the declaration declares. -/
def declaration (d : WrittenDeclaration) : Declaration :=
  ⟨String.ofList d.name, String.ofList (splitImportant d.value).1,
    (splitImportant d.value).2⟩

theorem reads (d : WrittenDeclaration) (x : List Char) :
    Reads d.text (declarationParts d.name (components d.value) ++
      [.token ⟨.semicolon, [';']⟩]) x := by
  have hname : Reads d.name [.token ⟨.ident d.name, d.name⟩]
      ([':'] ++ (d.value ++ [';']) ++ x) :=
    Reads.name d.plain (startsBreak_cons (by decide) (by decide) (by decide))
  have hcolon : Reads [':'] [.token ⟨.colon, [':']⟩]
      (d.value ++ [';'] ++ x) := Reads.mark (by decide) rfl _
  have hvalue : Reads d.value (components d.value) ([';'] ++ x) :=
    Reads.closed d.closed
      (startsBreak_cons (by decide) (by decide) (by decide)) rfl
  have hsemicolon : Reads [';'] [.token ⟨.semicolon, [';']⟩] x :=
    Reads.mark (by decide) rfl x
  exact hname.append (hcolon.append (hvalue.append hsemicolon))

theorem adds (d : WrittenDeclaration) :
    Says .body (declarationParts d.name (components d.value) ++
      [.token ⟨.semicolon, [';']⟩]) (.ofDeclaration d.declaration) := by
  refine says_declaration (declaration?_parts ?_) d.flat
  rw [textOf_components]

end WrittenDeclaration

/-! ## Rules -/

/-- Whether the first selector of a prelude has text: in front of the first
comma stands something that is no comment and not all white space. -/
def showsSelector (prelude : List Component) : Bool :=
  (prelude.takeWhile fun c => !c.isToken .comma).any fun c =>
    !c.isBlank && c.openingText.any fun d => !Text.isBlank d

/-- The kind of block that a group with this name and prelude becomes, if it is
one under `@media` or `@supports`. -/
def groupKind? (name : String) (prelude : List Component) : Option BlockKind :=
  if isKept name then
    some (.atRule name (String.ofList (trim (textOf prelude))))
  else none

/-- The kind of block that a rule with this header becomes: a group, or a style
rule with the text of a selector. What only separates does not belong to the
header of a style rule. -/
def headerKind? : List Component → Option BlockKind
  | .token ⟨.atKeyword name, _⟩ :: prelude =>
      groupKind? (String.ofList (lower name)) prelude
  | c :: cs =>
      if !c.kind.separates && showsSelector (c :: cs) then
        some (.style (selectorsOf (c :: cs)))
      else none
  | [] => none

/-- A rule as it is written. What stands before the braces and what stands
between them are complete in themselves, and the header has neither a semicolon
nor a block in curly brackets outside other brackets. -/
structure WrittenRule where
  header : List Char
  body : List Char
  kind : BlockKind
  headed : headerKind? (components header) = some kind
  closedHeader : Closed header
  flat : ∀ c ∈ components header, c.goesOn true = true
  closedBody : Closed body

namespace WrittenRule

def text (r : WrittenRule) : List Char :=
  r.header ++ ('\x7b' :: (r.body ++ ['\x7d']))

/-- The rule, read by itself. -/
def rule (r : WrittenRule) : Rule :=
  ⟨r.kind, components r.header, components r.body, []⟩

/-- The block in curly brackets of the rule. -/
def braces (r : WrittenRule) : Component :=
  .block openingBrace (components r.body) (some ⟨.closeCurly, ['\x7d']⟩)

theorem reads (r : WrittenRule) (x : List Char) :
    Reads r.text (components r.header ++ [r.braces]) x := by
  have hbody : Reads r.body (components r.body) ('\x7d' :: x) :=
    Reads.closed r.closedBody
      (startsBreak_cons (by decide) (by decide) (by decide)) rfl
  have hheader : Reads r.header (components r.header)
      ('\x7b' :: (r.body ++ ['\x7d']) ++ x) :=
    Reads.closed r.closedHeader
      (startsBreak_cons (by decide) (by decide) (by decide)) rfl
  exact hheader.append hbody.curly

end WrittenRule

/-! ### Selectors with text -/

theorem exists_segment {α : Type} (parts : Parts α) :
    ∃ segment ∈ splitCommas parts, componentsOf segment =
      (componentsOf parts).takeWhile fun c => !c.isToken .comma := by
  cases hsplit : splitCommas parts with
  | nil => exact absurd hsplit (splitCommas_ne_nil parts)
  | cons segment segments =>
      refine ⟨segment, by simp, ?_⟩
      induction parts generalizing segment segments with
      | nil =>
          cases hsplit
          rfl
      | cons p parts ih =>
          have hcons : componentsOf (p :: parts) =
              p.component :: componentsOf parts := rfl
          rw [splitCommas, Annotated.isToken] at hsplit
          rw [hcons, List.takeWhile_cons]
          split at hsplit
          · next hcomma =>
              obtain ⟨rfl, -⟩ := List.cons.inj hsplit
              rw [hcomma]
              rfl
          · next hcomma =>
              split at hsplit
              · next segment' segments' hrest =>
                  obtain ⟨rfl, -⟩ := List.cons.inj hsplit
                  rw [if_pos (by simpa using hcomma), ← ih _ _ hrest]
                  rfl
              · next hnil => exact absurd hnil (splitCommas_ne_nil parts)

theorem openingText_subset (c : Component) : c.openingText ⊆ c.text := by
  cases c with
  | token t => exact List.Subset.refl _
  | block opener content closer =>
      rw [Component.text_block, List.append_assoc]
      exact List.subset_append_left ..

theorem mem_textOf {c : Component} {cs : List Component} {d : Char}
    (hc : c ∈ cs) (hd : d ∈ c.text) : d ∈ textOf cs := by
  obtain ⟨before, behind, rfl⟩ := List.append_of_mem hc
  rw [textOf_append, textOf_cons]
  exact List.mem_append_right _ (List.mem_append_left _ hd)

theorem trim_ne_nil {s : List Char} {d : Char} (hd : d ∈ s)
    (hblank : Text.isBlank d = false) : trim s ≠ [] := by
  intro hnil
  obtain ⟨lead, trail, hs, hlead, htrail⟩ := exists_append_trim s
  rw [hnil, List.nil_append] at hs
  rw [hs] at hd
  have hblank' : Text.isBlank d = true :=
    (List.mem_append.1 hd).elim (hlead d) (htrail d)
  rw [hblank] at hblank'
  cases hblank'

theorem selectorText_ne_nil {α : Type} {segment : Parts α} {c : Component}
    {d : Char} (hc : c ∈ componentsOf segment) (hblank : c.isBlank = false)
    (hd : d ∈ c.openingText) (hshown : Text.isBlank d = false) :
    selectorText segment ≠ [] := by
  have hall := List.rdropWhile_append_rtakeWhile (p := Component.isBlank)
    (l := componentsOf segment)
  have htrail : ∀ e ∈ (componentsOf segment).rtakeWhile Component.isBlank,
      e.isBlank = true := fun e he => List.mem_rtakeWhile_imp he
  have hkept : c ∈ (componentsOf segment).rdropWhile Component.isBlank := by
    rw [← hall] at hc
    refine (List.mem_append.1 hc).resolve_right fun hc => ?_
    rw [htrail c hc] at hblank
    cases hblank
  obtain ⟨before, last, hlast⟩ := List.eq_nil_or_concat
    ((componentsOf segment).rdropWhile Component.isBlank) |>.resolve_left
      (List.ne_nil_of_mem hkept)
  rw [List.concat_eq_append] at hlast
  have hlastShown : last.isBlank = false := by
    have hne := List.ne_nil_of_mem hkept
    have hnot := List.rdropWhile_last_not Component.isBlank _ hne
    simp only [hlast, List.getLast_append, List.getLast_singleton] at hnot
    simpa using hnot
  rw [hlast] at hkept
  rw [hlast, List.append_assoc, List.singleton_append] at hall
  rw [selectorText_concat hall.symm hlastShown htrail]
  refine trim_ne_nil (d := d) ?_ hshown
  rcases List.mem_append.1 hkept with hc | hc
  · exact List.mem_append_left _ (mem_textOf hc (openingText_subset c hd))
  · rw [List.mem_singleton.1 hc] at hd
    exact List.mem_append_right _ hd

/-- A prelude with the text of a selector has a selector. -/
theorem selectors_ne_nil {α : Type} {parts : Parts α}
    (h : showsSelector (componentsOf parts) = true) : selectors parts ≠ [] := by
  obtain ⟨segment, hsegment, hcomponents⟩ := exists_segment parts
  rw [showsSelector, ← hcomponents, List.any_eq_true] at h
  obtain ⟨c, hc, h⟩ := h
  rw [Bool.and_eq_true, List.any_eq_true] at h
  obtain ⟨hblank, d, hd, hshown⟩ := h
  refine List.ne_nil_of_mem (a := selectorText segment) ?_
  rw [selectors, List.mem_filter]
  refine ⟨List.mem_map_of_mem hsegment, ?_⟩
  simpa using selectorText_ne_nil hc (by simpa using hblank) hd
    (by simpa using hshown)

/-! ### What a rule adds -/

theorem ofItem_shown {cs : List Component} (h : showsSelector cs = true)
    (place : Place) (block : Annotated Body × Body) :
    ofItem place (.rule (annotate bodyOf cs) block) =
      .ofBlock (.style (selectorsOf cs)) block.2 := by
  have hcomponents := componentsOf_annotate bodyOf cs
  have hselectors := selectorsOf_componentsOf (annotate bodyOf cs)
  rw [hcomponents] at hselectors
  rw [← hcomponents] at h
  rw [hselectors]
  exact ofItem_selectors (selectors_ne_nil h) place block

theorem says_group {name text : List Char} {prelude : List Component}
    {kind : BlockKind}
    (h : groupKind? (String.ofList (lower name)) prelude = some kind)
    (hflat : ∀ c ∈ prelude, c.goesOn true = true) (content : List Component)
    (closer : Option Token) :
    Says .body (.token ⟨.atKeyword name, text⟩ :: prelude ++
        [.block openingBrace content closer])
      (.ofBlock kind (bodyOf (annotate bodyOf content))) := by
  rw [groupKind?] at h
  split at h
  · next hkept =>
      have hname : isKept (atRuleName ⟨.atKeyword name, text⟩) = true := hkept
      rw [← Option.some.inj h]
      exact says_kept rfl hname hflat content closer
  · cases h

theorem says_style {c : Component} {cs : List Component}
    (hkeyword : ∀ name text, c ≠ .token ⟨.atKeyword name, text⟩)
    (hseparates : c.kind.separates = false)
    (hshows : showsSelector (c :: cs) = true)
    (hflat : ∀ d ∈ c :: cs, d.goesOn true = true) (content : List Component)
    (closer : Option Token) :
    Says .body (c :: cs ++ [.block openingBrace content closer])
      (.ofBlock (.style (selectorsOf (c :: cs)))
        (bodyOf (annotate bodyOf content))) := by
  have hread : ∀ parts, Item.read .body (c.annotate bodyOf :: parts) =
      Item.readRule .body (c.annotate bodyOf :: parts) := by
    refine read_of_not_gap hseparates fun t name ht hkind => ?_
    exact hkeyword name t.text (by rw [ht, ← hkind])
  have hitem := ofItem_shown hshows .body
    (curly bodyOf openingBrace content closer)
  exact hitem ▸ Says.item (yields_rule_of_read rfl hread hflat content closer)
    rfl

theorem says_header {header : List Component} {kind : BlockKind}
    (h : headerKind? header = some kind)
    (hflat : ∀ c ∈ header, c.goesOn true = true) (content : List Component)
    (closer : Option Token) :
    Says .body (header ++ [.block openingBrace content closer])
      (.ofBlock kind (bodyOf (annotate bodyOf content))) := by
  unfold headerKind? at h
  split at h
  · exact says_group h (List.forall_mem_cons.1 hflat).2 content closer
  · next c cs hkeyword =>
      split at h
      · next hstyle =>
          rw [Bool.and_eq_true, Bool.not_eq_true'] at hstyle
          rw [← Option.some.inj h]
          exact says_style hkeyword hstyle.1 hstyle.2 hflat content closer
      · cases h
  · cases h

theorem exists_of_headerKind? {header : List Component} {kind : BlockKind}
    (h : headerKind? header = some kind) :
    ∃ c cs, header = c :: cs ∧ c.kind ≠ .space := by
  unfold headerKind? at h
  split at h
  · exact ⟨_, _, rfl, by simp [Component.kind]⟩
  · next c cs _ =>
      refine ⟨c, cs, rfl, fun hspace => ?_⟩
      rw [hspace] at h
      cases h
  · cases h

/-! ## Pieces in a row -/

/-- A piece of a body. -/
inductive Piece
  | declaration (d : WrittenDeclaration)
  | rule (r : WrittenRule)

namespace Piece

def text : Piece → List Char
  | .declaration d => d.text
  | .rule r => r.text

/-- The declaration that the piece is, if it is one. -/
def declaration? : Piece → Option Declaration
  | .declaration d => some d.declaration
  | .rule _ => none

/-- The block that the piece becomes, if it is a rule. -/
def block? : Piece → Option Block
  | .declaration _ => none
  | .rule r => some r.rule.block

/-- What the piece adds to the body it stands in. -/
def body : Piece → Body
  | .declaration d => .ofDeclaration d.declaration
  | .rule r => .ofBlock r.kind (bodyOf (annotate bodyOf (components r.body)))

/-- A piece says the same wherever it stands, and leaves what follows as it
is. -/
theorem reads (p : Piece) (x : List Char) :
    ∃ c cs, Reads p.text (c :: cs) x ∧ c.kind ≠ .space ∧
      Says .body (c :: cs) p.body := by
  cases p with
  | declaration d => exact ⟨_, _, d.reads x, by simp [Component.kind], d.adds⟩
  | rule r =>
      obtain ⟨c, cs, hheader, hc⟩ := exists_of_headerKind? r.headed
      have hreads := r.reads x
      have hsays := says_header r.headed r.flat (components r.body)
        (some ⟨.closeCurly, ['\x7d']⟩)
      rw [hheader] at hreads hsays
      exact ⟨c, cs ++ [r.braces], hreads, hc, hsays⟩

end Piece

/-- The body of a rule as it is written: pieces, with a gap before each of them
and one behind the last. -/
structure Passage where
  pieces : List (Gap × Piece)
  last : Gap

namespace Passage

def text (p : Passage) : List Char :=
  (p.pieces.flatMap fun x => x.1.text ++ x.2.text) ++ p.last.text

/-- The declarations among the pieces, in order. -/
def declarations (p : Passage) : List Declaration :=
  p.pieces.filterMap fun x => x.2.declaration?

/-- The blocks of the rules among the pieces, in order. -/
def blocks (p : Passage) : List Block :=
  p.pieces.filterMap fun x => x.2.block?

/-- What the passage says. -/
def body (p : Passage) : Body := .concat (p.pieces.map fun x => x.2.body)

theorem declarations_body (p : Passage) :
    p.body.declarations = p.declarations := by
  rw [body, declarations, Body.declarations_concat, List.flatMap_map,
    List.filterMap_eq_flatMap_toList]
  refine List.flatMap_congr fun x _ => ?_
  cases x.2 <;> rfl

theorem children_body (p : Passage) : p.body.children = p.blocks := by
  rw [body, blocks, Body.children_concat, List.flatMap_map,
    List.filterMap_eq_flatMap_toList]
  refine List.flatMap_congr fun x _ => ?_
  cases x.2 <;> rfl

/-- A passage says what its pieces say, one behind the other. -/
theorem reads (p : Passage) (hx : headIs isSpace x = false) :
    ∃ cs, Reads p.text cs x ∧ Says .body cs p.body := by
  obtain ⟨pieces, last⟩ := p
  induction pieces with
  | nil => exact last.reads hx
  | cons head pieces ih =>
      obtain ⟨gap, piece⟩ := head
      obtain ⟨cs, hreads, hsays⟩ := ih
      obtain ⟨c, cs', hpiece, hc, hsaysPiece⟩ :=
        piece.reads (text ⟨pieces, last⟩ ++ x)
      have hnext := hpiece.append hreads
      obtain ⟨cs'', hgap, hsaysGap⟩ := gap.reads (hnext.head_not_space hc)
      refine ⟨_, ?_, hsaysGap.append (hsaysPiece.append hsays)⟩
      have hall := hgap.append hnext
      simpa [text] using hall

end Passage

end CssVendor.Sheet
