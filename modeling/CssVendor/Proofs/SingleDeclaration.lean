import CssVendor.Proofs.Declared
import CssVendor.Proofs.RoundTrip
import CssVendor.Proofs.ValueText

/-!
# Declarations printed by themselves

A declaration of an accepted sheet is printed and put into a rule of its own.
The sheet that this makes is accepted again, and the declaration is read as
itself: what is printed says the same value as the text that it was cut out of,
and so the grammar, which took the one, takes the other
(`Stems.renders`, `Renders.fits`).

That is not so for all declarations. A name is kept without its escapes and
printed so; it must be one that needs none. A value is printed without what
ended it in the sheet, be it the end of the sheet, which stands for brackets and
quotes left open, or the blank behind a backslash; it must be complete in
itself. And what is cut off around it must be white space in CSS too, which not
all blanks are, and it must have been cut out where the grammar expected a
declaration, and not from the curly brackets in the value of a custom property;
so the bodies around it must be flat, and the one it stands in plain.

Acceptance is carried over from the sheet to the printed rule, and so this is
the one place where it matters what the validator accepts: it is the grammar.
-/

namespace CssVendor.Sheet

open Syntax Text Grammar

/-! ## The value in the sheet that it comes from -/

/-- A token of these kinds is the character that ends a value. -/
theorem startsBreak_of_token {s : List Char} {t : Token} (rest : List Token)
    (ht : t ∈ tokenize s) (hkind : t.kind = .semicolon ∨ t.kind = .closeCurly) :
    StartsBreak ((t :: rest).flatMap Token.text) ∧
      headIs isSpace ((t :: rest).flatMap Token.text) = false := by
  obtain ⟨c, b, htext, hsuits⟩ := suits_of_mem_tokenize ht
  have hc : c = ';' ∨ c = '\x7d' := by
    rcases hkind with hkind | hkind <;> rw [hkind] at hsuits
    · exact Or.inl hsuits
    · exact Or.inr hsuits
  rw [List.flatMap_cons, htext]
  rcases hc with rfl | rfl
  · exact ⟨startsBreak_cons (by decide) (by decide) (by decide), rfl⟩
  · exact ⟨startsBreak_cons (by decide) (by decide) (by decide), rfl⟩

/-- What components are, given what the text of their tokens reads as. -/
theorem eq_of_reads {s : List Char} {ends : Bool} {closer : Option TokenKind}
    {value cs : List Component} {rest : List Token}
    (hplace : tokensOf value ++ rest <:+ tokenize s)
    (hmatched : Matched ends closer value)
    (h : Reads (textOf value) cs (rest.flatMap Token.text)) : cs = value := by
  obtain ⟨before, hall⟩ := hplace
  have htokens := tokenize_flatMap hall.symm
  rw [List.flatMap_append, ← textOf_eq] at htokens
  rw [← List.append_assoc] at hall
  have hrest := tokenize_flatMap hall.symm
  obtain ⟨ts, hnests, hreads⟩ := h
  rw [htokens, hrest] at hreads
  rw [← hmatched.nest_tokensOf, List.append_cancel_right hreads, hnests.nest]

variable {s : List Char} {d : Declaration} {value : List Component}

theorem Stems.trimmed (h : Stems s d value) : Trimmed d.value.toList := by
  have htrim := trimmed_splitImportant (textOf value)
  rwa [h.split] at htrim

/-- The components that a closed value stems from say that value. -/
theorem Stems.renders (h : Stems s d value) (hvalue : Closed d.value.toList) :
    Renders d.value.toList d.important value := by
  obtain ⟨lead, tail, hraw, hlead, htail⟩ :=
    exists_of_keepsBlanks h.split h.kept
  obtain ⟨rest, hplace, hmatched, hhead⟩ := h.place
  have hread : ∃ cs, Reads (textOf value) cs (rest.flatMap Token.text) ∧
      Renders d.value.toList d.important cs := by
    rw [hraw]
    cases rest with
    | nil =>
        obtain ⟨cs, hreads, hrenders⟩ := reads_value hvalue h.trimmed hlead
          htail startsBreak_semicolon rfl
        exact ⟨cs, hreads.at_end, hrenders⟩
    | cons t rest =>
        obtain ⟨hbreak, hblank⟩ := startsBreak_of_token rest
          (hplace.subset (by simp)) (hhead t rfl)
        exact reads_value hvalue h.trimmed hlead htail hbreak hblank
  obtain ⟨cs, hreads, hrenders⟩ := hread
  rwa [eq_of_reads hplace hmatched hreads] at hrenders

/-- A declaration that stems from a sheet can be printed and read back. -/
theorem Stems.legible (h : Stems s d value)
    (hname : isPlainName d.name.toList = true)
    (hvalue : Closed d.value.toList) : d.Legible := by
  refine ⟨hname, ⟨hvalue, h.trimmed, (h.renders hvalue).flat.1 h.flat⟩,
    fun himportant => ?_⟩
  have hplain : (splitImportant (textOf value)).2 = false →
      ¬ EndsImportant (splitImportant (textOf value)).1 :=
    not_endsImportant_splitImportant
  rw [h.split] at hplain
  exact hplain himportant

end CssVendor.Sheet

namespace CssVendor

open Syntax Text Sheet Grammar

/-! ## A body with one declaration -/

/-- Components of a text that reads as them. -/
theorem Syntax.Reads.blanksAreTokens {s x : List Char} {cs : List Component}
    (h : Reads s cs x) : BlanksAreTokens cs := by
  obtain ⟨ts, hnests, -⟩ := h
  rw [← hnests.nest]
  exact blanksAreTokens_of_matched (matched_nest ts)

/-- Components are cut into one stretch and gaps around it, and hold no block
in curly brackets. -/
structure OneStretch (parts content : List Component) : Prop where
  items : ∃ (m n : Nat) (semicolon : Bool), ∀ {α : Type} (f : Parts α → α),
    Item.all .body (annotate f content) = List.replicate m .gap ++
      .stretch (annotate f parts) semicolon :: List.replicate n .gap
  bare : ∀ c ∈ content, c.isCurly = false

section OneStretch

variable {c : Component} {cs parts content blanks blanks' : List Component}

theorem yields_blanks {α : Type} (f : Parts α → α)
    (h : ∀ c ∈ blanks, c.IsSpace) :
    Yields f .body blanks (List.replicate blanks.length .gap) := by
  induction blanks with
  | nil => exact Yields.nil f .body
  | cons c blanks ih =>
      obtain ⟨w, rfl, -⟩ := h c (by simp)
      have hgap : Yields f .body [.token ⟨.space, w⟩] [.gap] := yields_gap rfl
      exact hgap.append (ih fun d hd => h d (by simp [hd]))

theorem isCurly_of_goesOn (h : c.goesOn true = true) : c.isCurly = false := by
  rw [Component.goesOn, Bool.and_eq_true] at h
  simpa using h.1

theorem oneStretch_semicolon (hblanks : ∀ c ∈ blanks, c.IsSpace)
    (hblanks' : ∀ c ∈ blanks', c.IsSpace) (hstarts : c.kind.startsRule = true)
    (hcs : ∀ d ∈ c :: cs, d.goesOn true = true) :
    OneStretch (c :: cs) (blanks ++
      (c :: cs ++ [.token ⟨.semicolon, [';']⟩] ++ blanks')) := by
  refine ⟨⟨blanks.length, blanks'.length, true, fun f => ?_⟩, ?_⟩
  · have hstretch : Yields f .body (c :: cs ++ [.token ⟨.semicolon, [';']⟩])
        [.stretch (annotate f (c :: cs)) true] :=
      yields_stretch rfl rfl hstarts hcs
    exact ((yields_blanks f hblanks).append
      (hstretch.append (yields_blanks f hblanks'))).all_eq
  · have hspace : ∀ {w : List Component}, (∀ c ∈ w, c.IsSpace) →
        ∀ c ∈ w, c.isCurly = false := fun hw c hc =>
      isCurly_of_goesOn (goesOn_of_space hw c hc)
    intro d hd
    rcases List.mem_append.1 hd with hd | hd
    · exact hspace hblanks d hd
    rcases List.mem_append.1 hd with hd | hd
    · rcases List.mem_append.1 hd with hd | hd
      · exact isCurly_of_goesOn (hcs d hd)
      · rw [List.mem_singleton.1 hd]
        rfl
    · exact hspace hblanks' d hd

theorem oneStretch_end (hstarts : c.kind.startsRule = true)
    (hcs : ∀ d ∈ c :: cs, d.goesOn true = true) :
    OneStretch (c :: cs) (c :: cs) :=
  ⟨⟨0, 0, false, fun _ => all_stretch hstarts hcs⟩,
    fun d hd => isCurly_of_goesOn (hcs d hd)⟩

theorem concat_gaps (n : Nat) :
    Body.concat ((List.replicate n .gap).map (ofItem .body)) = .empty := by
  induction n with
  | zero => rfl
  | succ n ih =>
      rw [List.replicate_succ, List.map_cons, Body.concat, ih]
      rfl

/-- The reader finds nothing but the declaration in it. -/
theorem OneStretch.bodyOf_eq {d : Declaration} (h : OneStretch parts content)
    (hd : declaration? (annotate bodyOf parts) = some d) :
    bodyOf (annotate bodyOf content) = .ofDeclaration d := by
  obtain ⟨m, n, semicolon, hitems⟩ := h.items
  rw [bodyOf, hitems, List.map_append, List.map_cons, Body.concat_append,
    concat_gaps, Body.concat, concat_gaps, ofItem_stretch hd, Body.append_empty]
  rfl

/-- The grammar takes it for a body if it takes the stretch for a
declaration. -/
theorem OneStretch.isBody (h : OneStretch parts content)
    (hd : isDeclaration (annotate Verdict.of parts) = true) :
    (Verdict.of (annotate Verdict.of content)).body = true := by
  obtain ⟨m, n, semicolon, hitems⟩ := h.items
  have hflat : (divide readInnerItem (annotate Verdict.of content)).all
      isFlatItem = true := by
    refine isFlatItem_of_bare (forall_mem_annotate fun c hc => ?_)
    rw [isNone_curly?_annotate, h.bare c hc]
    rfl
  show (divide readInnerItem (annotate Verdict.of content)).all isInnerItem =
    true
  rw [divide_readInnerItem hflat, hitems]
  simp [isInnerItem, hd]

theorem isDeclaration_parts {n : List Char} {value : List Component}
    (hblanks : BlanksAreTokens value)
    (hflat : ∀ c ∈ value, c.goesOn true = true)
    (hfits : fitsValue n (significant value) = true) :
    isDeclaration (annotate Verdict.of (declarationParts n value)) = true := by
  have hcomponents := componentsOf_annotate Verdict.of value
  have hname : nameAndValue? (annotate Verdict.of (declarationParts n value)) =
      some (n, annotate Verdict.of value) := rfl
  have hbare : (annotate Verdict.of value).all (fun p => p.curly?.isNone) =
      true := by
    refine List.all_eq_true.2 (forall_mem_annotate fun c hc => ?_)
    rw [isNone_curly?_annotate, isCurly_of_goesOn (hflat c hc)]
    rfl
  rw [← hcomponents] at hblanks
  rw [isDeclaration, hname]
  simp only [isValue_eq hblanks, hcomponents, hfits, hbare, Bool.or_true,
    Bool.and_self]

end OneStretch

/-! ## The printed rule -/

/-- What is printed of a declaration in a block that has no other. -/
def Declaration.printed (layout : Layout) (depth : Nat) (d : Declaration) :
    String :=
  match layout with
  | .pretty => indent depth ++ "  " ++ d.text ++ ";\n"
  | .compact => d.compactText

/-- A rule around a printed declaration. -/
def Declaration.wrapped (layout : Layout) (depth : Nat) (d : Declaration) :
    String :=
  "a\x7b" ++ d.printed layout depth ++ "\x7d"

/-- The printer prints just this in a block with one declaration. -/
theorem Block.prettyText_single (kind : BlockKind) (d : Declaration)
    (depth : Nat) : (Block.mk kind [d] []).prettyText depth =
      indent depth ++ kind.header .pretty ++ " \x7b\n" ++
        d.printed .pretty depth ++ (indent depth ++ "\x7d\n") := by
  simp [Block.prettyText, Block.prettyText.go, Declaration.printed,
    String.join, String.append_assoc]

theorem Block.compactText_single (kind : BlockKind) (d : Declaration)
    (depth : Nat) : (Block.mk kind [d] []).compactText =
      kind.header .compact ++ "\x7b" ++ d.printed .compact depth ++ "\x7d" := by
  have hone : String.intercalate ";" [d.compactText] = d.compactText := rfl
  simp [Block.compactText, Block.compactText.go, Declaration.printed, hone]

/-- What is printed reads as one stretch, of a name and of a value that says
what the declaration says. -/
theorem Declaration.Legible.reads_printed {d : Declaration} (h : d.Legible)
    (layout : Layout) (depth : Nat) (x : List Char) :
    ∃ value content,
      Reads (d.printed layout depth).toList content ('\x7d' :: x) ∧
      OneStretch (declarationParts d.name.toList value) content ∧
      Renders d.value.toList d.important value ∧
      BlanksAreTokens value ∧
      splitImportant (textOf value) = (d.value.toList, d.important) := by
  have hbrace : StartsBreak ('\x7d' :: x) :=
    startsBreak_cons (by decide) (by decide) (by decide)
  cases layout with
  | compact =>
      obtain ⟨value, hreads, hrenders, hsplit⟩ :=
        h.reads_payload .compact hbrace rfl
      have hgoesOn := hrenders.flat.2 h.value.flat
      refine ⟨value, _, ?_, oneStretch_end rfl (goesOn_declarationParts hgoesOn),
        hrenders, hreads.blanksAreTokens, hsplit⟩
      rw [Declaration.printed, compactText_eq_written]
      exact h.reads_written hreads
  | pretty =>
      have hsemicolon : StartsBreak (';' :: '\n' :: '\x7d' :: x) :=
        startsBreak_cons (by decide) (by decide) (by decide)
      obtain ⟨value, hreads, hrenders, hsplit⟩ :=
        h.reads_payload .pretty hsemicolon rfl
      have hgoesOn := hrenders.flat.2 h.value.flat
      have hwritten : Reads (d.written .pretty)
          (declarationParts d.name.toList value) (';' :: '\n' :: '\x7d' :: x) :=
        h.reads_written hreads
      have hend : Reads [';'] [.token ⟨.semicolon, [';']⟩]
          ('\n' :: '\x7d' :: x) := Reads.mark (by decide) rfl _
      obtain ⟨blanks', hblanks', hspace', -⟩ := reads_space (w := ['\n'])
        (x := '\x7d' :: x) (by decide) rfl
      have hindent : ∀ c ∈ (indent depth ++ "  ").toList, isSpace c = true := by
        rw [String.toList_append]
        exact List.forall_mem_append.2 ⟨isSpace_indent depth, by decide⟩
      have hnext : headIs isSpace
          (d.written .pretty ++ [';'] ++ ['\n'] ++ '\x7d' :: x) = false := by
        rw [List.append_assoc, List.append_assoc]
        exact h.head_not_space .pretty _
      obtain ⟨blanks, hblanks, hspace, -⟩ := reads_space hindent hnext
      refine ⟨value, _, ?_, oneStretch_semicolon hspace hspace' rfl
        (goesOn_declarationParts hgoesOn), hrenders, hreads.blanksAreTokens,
        hsplit⟩
      have hprinted : (d.printed .pretty depth).toList =
          (indent depth ++ "  ").toList ++
            (d.written .pretty ++ [';'] ++ ['\n']) := by
        rw [Declaration.printed, ← text_eq_written]
        simp
      rw [hprinted]
      exact hblanks.append ((hwritten.append hend).append hblanks')

/-! ## The sheet of one rule -/

/-- The name `a`. -/
def typeSelector : Component := .token ⟨.ident ['a'], ['a']⟩

theorem yields_typeRule {α : Type} (f : Parts α → α)
    (content : List Component) (closer : Option Token) :
    Yields f .sheet [typeSelector, .block openingBrace content closer]
      [.rule (annotate f [typeSelector])
        (curly f openingBrace content closer)] := by
  have hcs : ∀ c ∈ [typeSelector],
      c.goesOn Place.sheet.stopsAtSemicolon = true := by
    intro c hc
    rw [List.mem_singleton.1 hc]
    rfl
  exact yields_rule rfl rfl hcs content closer

theorem says_typeRule (content : List Component) (closer : Option Token) :
    Says .sheet [typeSelector, .block openingBrace content closer]
      (.ofBlock (.style ["a"]) (bodyOf (annotate bodyOf content))) :=
  Says.item (yields_typeRule bodyOf content closer) rfl

theorem isSheet_typeRule {content : List Component} (closer : Option Token)
    (h : (Verdict.of (annotate Verdict.of content)).body = true) :
    Grammar.isSheet [typeSelector, .block openingBrace content closer] =
      true := by
  have hprelude : isRulePrelude false [typeSelector] = true := by
    decide +kernel
  have hitem : isOuterItem (.rule (annotate Verdict.of [typeSelector])
      (curly Verdict.of openingBrace content closer)) = true := by
    show (isRulePrelude false
      (componentsOf (annotate Verdict.of [typeSelector])) && _) = true
    rw [componentsOf_annotate, hprelude, Bool.true_and]
    exact h
  have hafter : Phase.after? .opening (.rule (annotate Verdict.of [typeSelector])
      (curly Verdict.of openingBrace content closer)) = some .main := by
    show (if isOuterItem _ then some Phase.main else none) = some Phase.main
    rw [hitem]
    rfl
  rw [Grammar.isSheet, itemsOf,
    (yields_typeRule Verdict.of content closer).all_eq]
  show areSheetItems .opening [_] = true
  rw [areSheetItems, hafter]
  rfl

/-- The tree of a rule with one declaration. -/
def Declaration.alone (d : Declaration) : Block :=
  ⟨.root, [], [⟨.style ["a"], [d], []⟩]⟩

/-- A printed declaration is all there is in the rule around it. -/
theorem components_wrapped {d : Declaration} {layout : Layout} {depth : Nat}
    {content : List Component}
    (h : Reads (d.printed layout depth).toList content ['\x7d']) :
    components (d.wrapped layout depth).toList =
      [typeSelector, .block openingBrace content
        (some ⟨.closeCurly, ['\x7d']⟩)] := by
  have hname : Reads ['a'] [typeSelector] ('\x7b' ::
      ((d.printed layout depth).toList ++ ['\x7d']) ++ []) :=
    Reads.name (by decide) (startsBreak_cons (by decide) (by decide) (by decide))
  have hwrapped : (d.wrapped layout depth).toList = ['a'] ++
      '\x7b' :: ((d.printed layout depth).toList ++ ['\x7d']) := by
    simp [Declaration.wrapped]
  rw [hwrapped]
  exact (hname.append h.curly).components_eq

/-- A legible declaration is read as itself where it is printed alone. -/
theorem Declaration.Legible.tree_wrapped {d : Declaration} (h : d.Legible)
    (layout : Layout) (depth : Nat) :
    tree (components (d.wrapped layout depth).toList) =
      (d.alone, [.debug "parsed stylesheet into 2 blocks"]) := by
  obtain ⟨value, content, hreads, hone, -, -, hsplit⟩ :=
    h.reads_printed layout depth []
  have hsays := (says_typeRule content
    (some ⟨.closeCurly, ['\x7d']⟩)).bodyOfSheet_eq
  rw [hone.bodyOf_eq (declaration?_written hsplit)] at hsays
  have hmessage : "parsed stylesheet into " ++ Nat.repr d.alone.count ++
      " blocks" = "parsed stylesheet into 2 blocks" := by
    rw [show d.alone.count = 2 from rfl]
    decide
  rw [components_wrapped hreads, tree, hsays, ← hmessage]
  rfl

/-- If its value fits besides, the rule is accepted as a sheet. -/
theorem Declaration.Legible.parse_wrapped {d : Declaration} (h : d.Legible)
    {value : List Component}
    (hvalue : Renders d.value.toList d.important value)
    (hfits : fitsValue d.name.toList (significant value) = true)
    (layout : Layout) (depth : Nat) :
    parse (d.wrapped layout depth) =
      .ok (d.alone, [.debug "parsed stylesheet into 2 blocks"]) := by
  obtain ⟨value', content, hreads, hone, hrenders, hblanks, -⟩ :=
    h.reads_printed layout depth []
  have hbody := hone.isBody (isDeclaration_parts hblanks
    (hrenders.flat.2 h.value.flat)
    (hvalue.fits hrenders h.value.closed hfits))
  have haccepted : Validator.accepts (d.wrapped layout depth) = true := by
    show Grammar.isSheet (components (d.wrapped layout depth).toList) = true
    rw [components_wrapped hreads]
    exact isSheet_typeRule _ hbody
  rw [parse, if_pos haccepted, h.tree_wrapped]

/-- A plain rule that the grammar accepts. -/
theorem Sheet.Rule.Accepted.parse_wrapped {s : List Char} {rule : Rule}
    (h : rule.Accepted) (hstands : rule.Stands s)
    (hplain : PlainBody rule.content) {d : Declaration}
    (hd : d ∈ rule.block.declarations)
    (hname : isPlainName d.name.toList = true) (hvalue : Closed d.value.toList)
    (layout : Layout) (depth : Nat) :
    parse (d.wrapped layout depth) =
      .ok (d.alone, [.debug "parsed stylesheet into 2 blocks"]) := by
  obtain ⟨value, hstems⟩ := stemmed_of_accepted hstands h hplain d hd
  exact (hstems.legible hname hvalue).parse_wrapped (hstems.renders hvalue)
    hstems.fits layout depth

/-- What a declaration of a sheet is printed as says that declaration and
nothing else. Its name must be one that can be written without escapes, its
value must be complete in itself, the body that it stands in must be plain, and
those around that must be flat. At the level of the sheet there is none. -/
theorem Sheet.parse_wrapped_of_parse {css : String} {t : Block}
    {records : List Record} (h : parse css = .ok (t, records)) :
    t.declarations = [] ∧
      List.Forall₂ (fun rule b => rule.InFlat → PlainBody rule.content →
          ∀ d ∈ b.declarations, isPlainName d.name.toList = true →
            Closed d.value.toList → ∀ layout depth,
              parse (d.wrapped layout depth) =
                .ok (d.alone, [.debug "parsed stylesheet into 2 blocks"]))
        (rules (components css.toList)) t.preorder.tail := by
  have haccepted : Grammar.isSheet (components css.toList) = true :=
    (parse_eq_ok_iff.1 h).1
  refine ⟨(tidySheet_of_parse h).bare, ?_⟩
  rw [preorder_tail_of_parse h, List.forall₂_map_right_iff, List.forall₂_same]
  intro rule hrule hflat hplain d hd hname hvalue
  exact (accepted_of_isSheet haccepted rule hrule hflat).parse_wrapped
    ((follows_rules css.toList).stands rule hrule) hplain hd hname hvalue

/-- The blank behind the escape belongs to it where the value was written, and
where it is printed. Nothing is asked of the rules elsewhere in the sheet. -/
theorem Sheet.parse_wrapped_of_parse_escape :
    let css := "@media print\x7b.b\x7bcolor:red;x:\n\\31 \t! IMPORTANT\x7d\x7d" ++
      "c\x7b--x:\x7by:z\x7d\x7d"
    let d : Declaration := ⟨"x", "\\31", true⟩
    ∃ t records, parse css = .ok (t, records) ∧
      (∃ b ∈ t.preorder.tail, d ∈ b.declarations) ∧
      (∃ rule ∈ rules (components css.toList), ¬ PlainBody rule.content) ∧
      parse "a\x7b    x: \\31 !important;\n\x7d" =
        .ok (d.alone, [.debug "parsed stylesheet into 2 blocks"]) := by
  intro css d
  have haccepted : Validator.accepts css = true := by decide +kernel
  have hparse : parse css = .ok (tree (components css.toList)) :=
    if_pos haccepted
  have hrule : ∃ p ∈ (rules (components css.toList)).zip
      (tree (components css.toList)).1.preorder.tail,
      p.1.InFlat ∧ PlainBody p.1.content ∧ d ∈ p.2.declarations := by
    decide +kernel
  have hwrapped : d.wrapped .pretty 1 =
      "a\x7b    x: \\31 !important;\n\x7d" := by
    decide +kernel
  obtain ⟨⟨rule, b⟩, hmem, hflat, hplain, hd⟩ := hrule
  have hread := (List.forall₂_iff_zip.1 (parse_wrapped_of_parse hparse).2).2
    hmem hflat hplain d hd (by decide +kernel) (by decide +kernel) .pretty 1
  rw [hwrapped] at hread
  exact ⟨_, _, hparse, ⟨b, (List.of_mem_zip hmem).2, hd⟩, by decide +kernel,
    hread⟩

/-- Without the blank that it takes in, a backslash at the end of a value takes
in the bracket behind it. -/
example :
    let declarations := fun css : String =>
      (tree (components css.toList)).1.children.flatMap Block.declarations
    declarations "a\x7bx:y\\ \x7d" = [⟨"x", "y\\", false⟩] ∧
      Declaration.wrapped .compact 0 ⟨"x", "y\\", false⟩ = "a\x7bx:y\\\x7d" ∧
      declarations "a\x7bx:y\\\x7d" = [⟨"x", "y\\\x7d", false⟩] := by
  decide +kernel

end CssVendor
