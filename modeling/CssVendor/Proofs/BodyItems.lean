import CssVendor.Grammar.Sheet
import CssVendor.Proofs.ItemParts

/-!
# The items of a body, for the grammar and for the reader

The grammar and the reader cut a body into items by rules of their own. For the
grammar a declaration of a custom property reaches to the next semicolon; for
the reader every block in curly brackets ends an item. The two agree on a body
in which no custom property has such a block at the top level of its value.

Nor do they differ on a group outside style rules. There semicolons end nothing
for the grammar, but a prelude with a semicolon in it is no list of selectors.
No more is one that has nothing but blanks between two of its commas, at its
beginning or at its end.
-/

namespace CssVendor.Syntax

theorem mem_annotate {α : Type} (f : Parts α → α) {cs : List Component}
    {c : Component} (h : c ∈ cs) : c.annotate f ∈ annotate f cs := by
  obtain ⟨before, behind, rfl⟩ := List.append_of_mem h
  simp

end CssVendor.Syntax

namespace CssVendor.Grammar

open Syntax Text

/-! ## Custom properties with blocks -/

/-- Whether an item is no declaration with a block in curly brackets at the top
level of its value. -/
def isFlatItem : Item Verdict → Bool
  | .stretch parts _ => parts.all fun p => p.curly?.isNone
  | _ => true

theorem takeWhile_and {α : Type} {p q : α → Bool} {l : List α}
    (h : ∀ a ∈ l.takeWhile p, q a = true) :
    (l.takeWhile fun a => q a && p a) = l.takeWhile p := by
  induction l with
  | nil => rfl
  | cons a l ih =>
      rw [List.takeWhile_cons] at h ⊢
      rw [List.takeWhile_cons]
      cases hp : p a with
      | false => rw [Bool.and_false]; rfl
      | true =>
          simp only [hp, if_true] at h
          rw [h a (by simp), Bool.true_and, if_pos rfl, if_pos rfl,
            ih fun b hb => h b (by simp [hb])]

theorem ident?_eq_some {α : Type} {p : Annotated α} {name : List Char}
    (h : ident? p = some name) :
    ∃ text, p.component = .token ⟨.ident name, text⟩ := by
  unfold ident? at h
  split at h
  · next n text hcomponent =>
      obtain rfl := Option.some.inj h
      exact ⟨text, hcomponent⟩
  · cases h

theorem curly?_of_isToken {α : Type} {p : Annotated α} {kind : TokenKind}
    (h : p.isToken kind = true) : p.curly? = none := by
  obtain ⟨component, content⟩ := p
  cases component with
  | token t => rfl
  | block opener content closer => cases h

/-- Where a stretch has no block in curly brackets, it is what a rule would be
read up to. -/
theorem readRule_of_flat {parts : Parts Verdict}
    (h : isFlatItem (readStretch parts).1 = true) :
    (Item.readRule .body parts).1 = (readStretch parts).1 ∧
      parts.drop (Item.readRule .body parts).2 =
        parts.drop (readStretch parts).2 := by
  have hwhole : parts.takeWhile (Item.continues true) =
      parts.takeWhile fun p => !p.isToken .semicolon :=
    takeWhile_and fun p hp => List.all_eq_true.1 h p hp
  have hprefix := List.takeWhile_prefix (l := parts)
    fun p => !p.isToken .semicolon
  rw [Item.readRule, readStretch]
  simp only [Place.stopsAtSemicolon, hwhole]
  split
  · next hdrop =>
      have hlength := List.drop_eq_nil_iff.1 hdrop
      refine ⟨?_, ?_⟩
      · rw [decide_eq_false (by omega)]
      · rw [List.drop_eq_nil_of_le hlength, List.drop_eq_nil_of_le (by omega)]
  · next p rest hdrop =>
      have hsemicolon : p.isToken .semicolon = true := by
        have hhead := List.head?_dropWhile_not
          (fun p : Annotated Verdict => !p.isToken .semicolon) parts
        rw [← drop_length_takeWhile, hdrop] at hhead
        simpa using hhead
      have hlength : (parts.takeWhile fun p => !p.isToken .semicolon).length <
          parts.length := by
        refine Nat.lt_of_not_le fun hle => ?_
        rw [List.drop_eq_nil_of_le hle] at hdrop
        cases hdrop
      rw [curly?_of_isToken hsemicolon, decide_eq_true hlength]
      exact ⟨rfl, rfl⟩

theorem exists_of_isCustomDeclaration {parts : Parts Verdict}
    (h : isCustomDeclaration parts = true) :
    ∃ p rest name text, parts = p :: rest ∧
      p.component = .token ⟨.ident name, text⟩ := by
  cases parts with
  | nil => cases h
  | cons p rest =>
      rw [isCustomDeclaration, nameAndValue?] at h
      cases hname : ident? p with
      | none => simp [hname] at h
      | some name =>
          obtain ⟨text, hcomponent⟩ := ident?_eq_some hname
          exact ⟨p, rest, name, text, rfl, hcomponent⟩

/-- The item at the head of a body is the same for both, and so is what it
leaves. -/
theorem readInnerItem_of_flat {parts : Parts Verdict}
    (h : isFlatItem (readInnerItem parts).1 = true) :
    (readInnerItem parts).1 = (Item.read .body parts).1 ∧
      parts.drop (readInnerItem parts).2 =
        parts.drop (Item.read .body parts).2 := by
  unfold readInnerItem at h ⊢
  split
  · next whole semicolon length hstretch =>
      rw [hstretch] at h
      simp only [] at h
      split
      · next hcustom =>
          rw [if_pos hcustom] at h
          obtain ⟨p, rest, name, text, hparts, hcomponent⟩ :=
            exists_of_isCustomDeclaration hcustom
          have hhead : parts.head? = some p := by
            have hprefix := List.takeWhile_prefix (l := parts)
              fun p => !p.isToken .semicolon
            rw [show parts.takeWhile _ = whole from
              (Item.stretch.inj (Prod.mk.inj hstretch).1).1, hparts] at hprefix
            obtain ⟨behind, rfl⟩ := hprefix
            rfl
          obtain ⟨rest, rfl⟩ : ∃ rest, parts = p :: rest :=
            List.head?_eq_some_iff.1 hhead
          have hread : Item.read .body (p :: rest) =
              Item.readRule .body (p :: rest) := by
            rw [Item.read, Annotated.kind, hcomponent]
            simp [Component.kind, Place.isGap, TokenKind.isBlank]
          have hrule := readRule_of_flat (hstretch.symm ▸ h)
          rw [hstretch] at hrule
          rw [hread]
          exact ⟨hrule.1.symm, hrule.2.symm⟩
      · exact ⟨rfl, rfl⟩
  · exact ⟨rfl, rfl⟩

theorem readRule_pos {α : Type} (place : Place) (p : Annotated α)
    (rest : Parts α) : 0 < (Item.readRule place (p :: rest)).2 := by
  rw [Item.readRule]
  split
  · next hdrop =>
      have hlength := List.drop_eq_nil_iff.1 hdrop
      exact Nat.lt_of_lt_of_le (Nat.succ_pos _) hlength
  · split <;> exact Nat.succ_pos _

theorem read_pos {α : Type} (place : Place) (p : Annotated α)
    (rest : Parts α) : 0 < (Item.read place (p :: rest)).2 := by
  rcases read_cases place p with hgap | ⟨t, name, -, -, hatRule⟩ | hrule
  · rw [hgap]
    exact Nat.one_pos
  · rw [hatRule, Item.readAtRule]
    split <;> exact Nat.succ_pos _
  · rw [hrule]
    exact readRule_pos place p rest

theorem readInnerItem_pos (p : Annotated Verdict) (rest : Parts Verdict) :
    0 < (readInnerItem (p :: rest)).2 := by
  unfold readInnerItem
  split
  · next hstretch =>
      split
      · rw [← (Prod.mk.inj hstretch).2]
        exact Nat.succ_pos _
      · exact read_pos .body p rest
  · exact read_pos .body p rest

theorem drop_cons_of_pos {α : Type} {n : Nat} (h : 0 < n) (a : α)
    (l : List α) : (a :: l).drop n = l.drop (n - 1) := by
  obtain ⟨n, rfl⟩ := Nat.exists_eq_succ_of_ne_zero (Nat.pos_iff_ne_zero.1 h)
  rfl

/-- Both find the same items in a body in which no custom property has a block
in curly brackets. -/
theorem divide_readInnerItem {parts : Parts Verdict}
    (h : (divide readInnerItem parts).all isFlatItem = true) :
    divide readInnerItem parts = Item.all .body parts := by
  match parts with
  | [] => rfl
  | p :: rest =>
      rw [divide_cons, List.all_cons, Bool.and_eq_true] at h
      obtain ⟨hitem, hbehind⟩ := readInnerItem_of_flat h.1
      rw [drop_cons_of_pos (readInnerItem_pos p rest),
        drop_cons_of_pos (read_pos .body p rest)] at hbehind
      rw [Item.all, divide_cons, divide_cons, hitem, ← hbehind]
      refine congrArg _ ?_
      exact divide_readInnerItem h.2
termination_by parts.length
decreasing_by
  simp only [List.length_drop, List.length_cons]
  omega

theorem within_readInnerItem (parts : Parts Verdict) :
    (readInnerItem parts).1.Within parts := by
  unfold readInnerItem
  split
  · next whole semicolon length hstretch =>
      split
      · have hwhole : parts.takeWhile (fun p => !p.isToken .semicolon) = whole :=
          (Item.stretch.inj (Prod.mk.inj hstretch).1).1
        rw [← hwhole]
        exact takeWhile_within _ parts
      · exact within_read .body parts
  · exact within_read .body parts

/-- There is no custom property with a block where there are no blocks. -/
theorem isFlatItem_of_bare {parts : Parts Verdict}
    (h : ∀ p ∈ parts, p.curly?.isNone = true) :
    (divide readInnerItem parts).all isFlatItem = true := by
  refine List.all_eq_true.2 fun item hitem => ?_
  obtain ⟨ys, -, hys, rfl⟩ := exists_of_mem_divide hitem
  have hwithin := (within_readInnerItem ys).mono hys.isInfix
  generalize (readInnerItem ys).1 = item at hwithin ⊢
  match item, hwithin with
  | .stretch whole _, hwithin =>
      exact List.all_eq_true.2 fun p hp => h p (hwithin.subset hp)
  | .gap, _ => rfl
  | .atRule _ _ _, _ => rfl
  | .rule _ _, _ => rfl

/-! ## Preludes -/

/-! ### Semicolons -/

section Selectors

variable {parts rest : Parts Arguments} {p : Annotated Arguments}

theorem kind_of_isToken {α : Type} {p : Annotated α} {kind : TokenKind}
    (h : p.isToken kind = true) : p.component.kind = kind := by
  obtain ⟨component, content⟩ := p
  cases component with
  | token t => exact eq_of_beq h
  | block opener content closer => cases h

theorem not_semicolon_of_kind {α : Type} {p : Annotated α}
    (h : p.component.kind ≠ .semicolon) : p.isToken .semicolon = false :=
  Bool.eq_false_iff.2 fun hsemicolon => h (kind_of_isToken hsemicolon)

theorem not_semicolon_of_isDelim {α : Type} {p : Annotated α} {c : Char}
    (h : isDelim c p = true) : p.isToken .semicolon = false := by
  refine not_semicolon_of_kind ?_
  rw [kind_of_isToken h]
  simp

theorem not_semicolon_of_isIdent {α : Type} {p : Annotated α}
    (h : isIdent p = true) : p.isToken .semicolon = false := by
  obtain ⟨name, hname⟩ := Option.isSome_iff_exists.1 h
  obtain ⟨text, hcomponent⟩ := ident?_eq_some hname
  refine not_semicolon_of_kind ?_
  rw [hcomponent]
  simp [Component.kind]

theorem not_semicolon_of_isLocalName (h : Simple.isLocalName p = true) :
    p.isToken .semicolon = false := by
  rw [Simple.isLocalName, Bool.or_eq_true] at h
  exact h.elim not_semicolon_of_isIdent not_semicolon_of_isDelim

theorem not_semicolon_of_function? {a : List Char × Arguments}
    (h : function? p = some a) : p.isToken .semicolon = false := by
  refine not_semicolon_of_kind fun hkind => ?_
  rw [function?, hkind] at h
  cases h

/-- A piece of a selector has no semicolon in it, unless it is wrong. -/
def IsClear (parts : Parts Arguments) (r : Simple × Nat) : Prop :=
  r.1 = .wrong ∨
    0 < r.2 ∧ ∀ p ∈ parts.take r.2, p.isToken .semicolon = false

theorem clear_readNamespaced {before : Parts Arguments} {n : Nat}
    (hn : n + 1 = before.length)
    (h : ∀ p ∈ before, p.isToken .semicolon = false) :
    IsClear (before ++ rest) (Simple.readNamespaced n rest) := by
  cases rest with
  | nil =>
      refine Or.inr ⟨Nat.succ_pos _, fun p hp => h p ?_⟩
      rw [List.append_nil] at hp
      exact List.mem_of_mem_take hp
  | cons p rest =>
      rw [Simple.readNamespaced]
      split
      · next hlocal =>
          refine Or.inr ⟨Nat.succ_pos _, fun q hq => ?_⟩
          have htake : (before ++ p :: rest).take (n + 2) = before ++ [p] := by
            rw [List.append_cons, List.take_left' (by simp; omega)]
          simp only [htake] at hq
          rcases List.mem_append.1 hq with hq | hq
          · exact h q hq
          · rw [List.mem_singleton.1 hq]
            exact not_semicolon_of_isLocalName hlocal
      · exact Or.inl rfl

theorem clear_readType (h : p.isToken .semicolon = false) :
    IsClear (p :: rest) (Simple.readType rest) := by
  cases rest with
  | nil => exact Or.inr (by simpa [Simple.readType] using h)
  | cons bar rest =>
      rw [Simple.readType]
      split
      · next hbar =>
          have hbefore : ∀ q ∈ [p, bar], q.isToken .semicolon = false := by
            simpa using ⟨h, not_semicolon_of_isDelim hbar⟩
          exact clear_readNamespaced rfl hbefore
      · exact Or.inr (by simpa using h)

theorem clear_readPseudo (h : p.isToken .semicolon = false) :
    IsClear (p :: rest) (Simple.readPseudo rest) := by
  cases rest with
  | nil => exact Or.inl rfl
  | cons q rest =>
      rw [Simple.readPseudo]
      split
      · next hcolon =>
          have hq : q.isToken .semicolon = false := by
            refine not_semicolon_of_kind ?_
            rw [kind_of_isToken hcolon]
            simp
          cases rest with
          | nil => exact Or.inl rfl
          | cons r rest =>
              rw [Simple.readPseudoElement]
              split
              · next name hname =>
                  have hr : r.isToken .semicolon = false :=
                    not_semicolon_of_isIdent (by rw [isIdent, hname]; rfl)
                  exact Or.inr (by simpa using ⟨h, hq, hr⟩)
              · next name a hname ha =>
                  have hr := not_semicolon_of_function? ha
                  exact Or.inr (by simpa using ⟨h, hq, hr⟩)
              · exact Or.inl rfl
      · rw [Simple.readPseudoClass]
        split
        · next name hname =>
            have hq : q.isToken .semicolon = false :=
              not_semicolon_of_isIdent (by rw [isIdent, hname]; rfl)
            exact Or.inr (by simpa using ⟨h, hq⟩)
        · next name a hname ha =>
            have hq := not_semicolon_of_function? ha
            exact Or.inr (by simpa using ⟨h, hq⟩)
        · exact Or.inl rfl

theorem clear_readClass (h : p.isToken .semicolon = false) :
    IsClear (p :: rest) (Simple.readClass rest) := by
  cases rest with
  | nil => exact Or.inl rfl
  | cons q rest =>
      rw [Simple.readClass]
      split
      · next hident =>
          exact Or.inr (by simpa using ⟨h, not_semicolon_of_isIdent hident⟩)
      · exact Or.inl rfl

theorem clear_read (p : Annotated Arguments) (rest : Parts Arguments) :
    IsClear (p :: rest) (Simple.read (p :: rest)) := by
  by_cases h : p.isToken .semicolon = true
  · refine Or.inl ?_
    rw [Simple.read, kind_of_isToken h]
  · have h : p.isToken .semicolon = false := by simpa using h
    have hone : ∀ s : Simple, IsClear (p :: rest) (s, 1) :=
      fun s => Or.inr (by simpa using h)
    rw [Simple.read]
    split
    · exact hone _
    · exact clear_readType h
    · exact hone _
    · exact clear_readPseudo h
    · split <;> exact hone _
    · exact clear_readType h
    · have hbefore : ∀ q ∈ [p], q.isToken .semicolon = false := by
        simpa using h
      exact clear_readNamespaced rfl hbefore
    · exact clear_readClass h
    · exact hone _
    · exact hone _
    · exact hone _
    · exact hone _
    · exact hone _

/-- Where a semicolon stands, a selector has a piece that is wrong. -/
theorem wrong_mem_all {parts : Parts Arguments} (hp : p ∈ parts)
    (h : p.isToken .semicolon = true) : Simple.wrong ∈ Simple.all parts := by
  match parts with
  | [] => cases hp
  | q :: rest =>
      rw [Simple.all, divide_cons]
      rcases clear_read q rest with hwrong | ⟨hpos, hclear⟩
      · rw [hwrong]
        exact List.mem_cons_self ..
      · refine List.mem_cons_of_mem _ (wrong_mem_all ?_ h)
        rw [← drop_cons_of_pos hpos]
        rw [← List.take_append_drop (Simple.read (q :: rest)).2 (q :: rest)]
          at hp
        refine (List.mem_append.1 hp).resolve_left fun htake => ?_
        rw [hclear p htake] at h
        cases h
termination_by parts.length
decreasing_by
  simp only [List.length_drop, List.length_cons]
  omega

/-- Nothing makes good for a piece that is wrong. -/
theorem stage_next_wrong (relative : Bool) (p : Progress) :
    (p.next relative .wrong).stage = .failed := by
  obtain ⟨stage, setting, nesting⟩ := p
  cases stage with
  | behind =>
      show (if setting.combinators then _ else _ : Progress).stage = .failed
      split <;> rfl
  | _ => rfl

theorem stage_foldl_next {relative : Bool} {p : Progress}
    (h : p.stage = .failed) (pieces : List Simple) :
    (pieces.foldl (Progress.next relative) p).stage = .failed := by
  induction pieces generalizing p with
  | nil => exact h
  | cons s pieces ih =>
      obtain ⟨stage, setting, nesting⟩ := p
      obtain rfl : stage = .failed := h
      exact ih rfl

theorem not_complete_of_wrong {relative : Bool} {setting : Setting}
    {parts : Parts Arguments}
    (h : Simple.wrong ∈ Simple.all (withoutComments parts)) :
    (readSelector relative setting parts).complete = false := by
  obtain ⟨before, behind, hall⟩ := List.append_of_mem h
  have hfailed : ∀ p : Progress, ((Simple.all (withoutComments parts)).foldl
      (Progress.next relative) p).stage = .failed := by
    intro p
    rw [hall, List.foldl_append, List.foldl_cons]
    exact stage_foldl_next (stage_next_wrong _ _) behind
  show Progress.isComplete _ = false
  rw [Progress.isComplete, hfailed]
  rfl

theorem exists_segment {α : Type} {parts : Parts α} {p : Annotated α}
    (hp : p ∈ parts) (h : p.isToken .comma = false) :
    ∃ segment ∈ splitCommas parts, p ∈ segment := by
  induction parts with
  | nil => cases hp
  | cons q parts ih =>
      rw [splitCommas]
      split
      · next hcomma =>
          rcases List.mem_cons.1 hp with rfl | hp
          · rw [hcomma] at h
            cases h
          · obtain ⟨segment, hsegment, hmem⟩ := ih hp
            exact ⟨segment, List.mem_cons_of_mem _ hsegment, hmem⟩
      · split
        · next segment segments hrest =>
            rcases List.mem_cons.1 hp with rfl | hp
            · exact ⟨p :: segment, by simp, by simp⟩
            · obtain ⟨segment', hsegment, hmem⟩ := ih hp
              rw [hrest] at hsegment
              rcases List.mem_cons.1 hsegment with rfl | hsegment
              · exact ⟨q :: segment', by simp, by simp [hmem]⟩
              · exact ⟨segment', by simp [hsegment], hmem⟩
        · next hnil =>
            rcases List.mem_cons.1 hp with rfl | hp
            · exact ⟨[p], by simp, by simp⟩
            · obtain ⟨segment', hsegment, hmem⟩ := ih hp
              rw [hnil] at hsegment
              cases hsegment

/-- The prelude of a style rule has no semicolon outside brackets. -/
theorem not_semicolon_of_isRulePrelude {nested : Bool} {cs : List Component}
    (h : isRulePrelude nested cs = true) :
    ∀ c ∈ cs, c.isToken .semicolon = false := by
  intro c hc
  refine Bool.eq_false_iff.2 fun hsemicolon => ?_
  have hpart : c.annotate Arguments.of ∈ annotate Arguments.of cs :=
    mem_annotate Arguments.of hc
  have htoken : (c.annotate Arguments.of).isToken .semicolon = true := by
    rw [Annotated.isToken, component_annotate]
    exact hsemicolon
  have hkind := kind_of_isToken htoken
  have hcomma : (c.annotate Arguments.of).isToken .comma = false := by
    refine Bool.eq_false_iff.2 fun hcomma => ?_
    rw [kind_of_isToken hcomma] at hkind
    cases hkind
  obtain ⟨segment, hsegment, hmem⟩ := exists_segment hpart hcomma
  have hcomplete := List.all_eq_true.1 h _
    (List.mem_map_of_mem (f := readSelector nested .outer) hsegment)
  rw [not_complete_of_wrong (wrong_mem_all ?_ htoken)] at hcomplete
  · cases hcomplete
  · refine List.mem_filter.2 ⟨hmem, ?_⟩
    rw [Annotated.kind, hkind]
    rfl

/-! ### Blanks -/

theorem eq_space_of_mem_all {s : Simple}
    (h : ∀ p ∈ parts, p.component.kind = .space) (hs : s ∈ Simple.all parts) :
    s = .space := by
  obtain ⟨ys, hne, hys, rfl⟩ := exists_of_mem_divide hs
  cases ys with
  | nil => exact absurd rfl hne
  | cons p rest =>
      rw [Simple.read, h p (hys.subset (List.mem_cons_self ..))]

/-- Blanks do not begin a selector. -/
theorem foldl_next_spaces {relative : Bool} {p : Progress}
    (hp : p.stage = .start) {pieces : List Simple}
    (h : ∀ s ∈ pieces, s = .space) :
    pieces.foldl (Progress.next relative) p = p := by
  induction pieces with
  | nil => rfl
  | cons s pieces ih =>
      obtain ⟨rfl, hpieces⟩ := List.forall_mem_cons.1 h
      have hnext : p.next relative .space = p := by
        obtain ⟨stage, setting, nesting⟩ := p
        obtain rfl : stage = .start := hp
        rfl
      rw [List.foldl_cons, hnext, ih hpieces]

theorem not_complete_of_blanks {relative : Bool} {setting : Setting}
    (h : ∀ p ∈ parts, p.isBlank = true) :
    (readSelector relative setting parts).complete = false := by
  have hspace : ∀ p ∈ withoutComments parts, p.component.kind = .space := by
    intro p hp
    obtain ⟨hmem, hcomment⟩ := List.mem_filter.1 hp
    have hblank : p.component.kind.isBlank = true := h p hmem
    have hcomment : p.kind ≠ .comment := by simpa using hcomment
    unfold TokenKind.isBlank at hblank
    split at hblank
    · next hkind => exact hkind
    · next hkind => exact absurd hkind hcomment
    · cases hblank
  show Progress.isComplete _ = false
  rw [foldl_next_spaces rfl fun s => eq_space_of_mem_all hspace]
  rfl

/-- No selector of a style rule is blank. -/
theorem exists_shown_of_isRulePrelude {nested : Bool} {cs : List Component}
    (h : isRulePrelude nested cs = true) :
    ∀ segment ∈ splitCommas (annotate Arguments.of cs),
      ∃ p ∈ segment, p.isBlank = false := by
  intro segment hsegment
  by_contra hblank
  have hcomplete := List.all_eq_true.1 h _
    (List.mem_map_of_mem (f := readSelector nested .outer) hsegment)
  rw [not_complete_of_blanks (by simpa using hblank)] at hcomplete
  cases hcomplete

end Selectors

/-! ## Groups outside style rules -/

theorem readRule_group {parts before : Parts Verdict}
    {block : Annotated Verdict × Verdict}
    (hread : (Item.readRule .group parts).1 = .rule before block)
    (h : ∀ p ∈ before, p.isToken .semicolon = false) :
    Item.readRule .body parts = Item.readRule .group parts := by
  have hbefore : parts.takeWhile (Item.continues false) = before := by
    rw [Item.readRule] at hread
    split at hread
    · cases hread
    · split at hread
      · exact (Item.rule.inj hread).1
      · cases hread
  have hwhole : parts.takeWhile (Item.continues true) =
      parts.takeWhile (Item.continues false) := by
    have hcontinues : Item.continues true = fun p : Annotated Verdict =>
        !p.isToken .semicolon && Item.continues false p := by
      funext p
      simp [Item.continues, Bool.and_comm]
    rw [hcontinues]
    refine takeWhile_and fun p hp => ?_
    rw [hbefore] at hp
    rw [h p hp]
    rfl
  simp only [Item.readRule, Place.stopsAtSemicolon, hwhole]

theorem read_group {p : Annotated Verdict} {rest : Parts Verdict}
    (h : isOuterItem (Item.read .group (p :: rest)).1 = true) :
    Item.read .body (p :: rest) = Item.read .group (p :: rest) := by
  have hrule : isOuterItem (Item.readRule .group (p :: rest)).1 = true →
      Item.readRule .body (p :: rest) = Item.readRule .group (p :: rest) := by
    intro h
    cases hitem : (Item.readRule .group (p :: rest)).1 with
    | rule before block =>
        refine readRule_group hitem fun q hq => ?_
        rw [hitem, isOuterItem, Bool.and_eq_true] at h
        exact not_semicolon_of_isRulePrelude h.1 q.component
          (List.mem_map_of_mem hq)
    | stretch parts semicolon =>
        rw [hitem] at h
        cases h
    | gap | atRule _ _ _ =>
        rw [Item.readRule] at hitem
        split at hitem
        · cases hitem
        · split at hitem <;> cases hitem
  have hplace : Place.body.isGap p.kind = Place.group.isGap p.kind := rfl
  rw [Item.read] at h ⊢
  rw [Item.read, hplace]
  split at h
  · next hgap => rw [if_pos hgap, if_pos hgap]
  · next hgap =>
      rw [if_neg hgap, if_neg hgap]
      split at h
      · split at h
        · rfl
        · exact hrule h
      · exact hrule h

/-- A well-formed group outside style rules has the items that the reader finds
in it. -/
theorem all_group {parts : Parts Verdict}
    (h : (Item.all .group parts).all isOuterItem = true) :
    Item.all .group parts = Item.all .body parts := by
  match parts with
  | [] => rfl
  | p :: rest =>
      rw [Item.all, divide_cons, List.all_cons, Bool.and_eq_true] at h
      rw [Item.all, Item.all, divide_cons, divide_cons, read_group h.1]
      refine congrArg _ ?_
      exact all_group h.2
termination_by parts.length
decreasing_by
  simp only [List.length_drop, List.length_cons]
  omega

end CssVendor.Grammar
