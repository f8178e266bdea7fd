import CssVendor.Proofs.Items
import CssVendor.Proofs.SingleToken
import Mathlib.Data.List.TakeWhile

/-!
# What a token begins with

Every token of a text has a first character, and for some kinds of token this
character is known: blanks, comments and punctuation. What begins with a blank
is a blank. An identifier has a name with something in it.
-/

namespace CssVendor.Syntax

variable {s : List Char} {c : Char}

/-- A token of this kind can begin with the character, and has a name that is
not empty if it is an identifier. -/
def TokenKind.Suits (c : Char) : TokenKind → Prop
  | .space => isSpace c = true
  | .comment => c = '/'
  | .comma => c = ','
  | .semicolon => c = ';'
  | .openCurly => c = '\x7b'
  | .closeCurly => c = '\x7d'
  | .ident name => name ≠ []
  | _ => True

theorem unescape_ne_nil (hs : s ≠ []) : unescape s ≠ [] := by
  cases s with
  | nil => exact absurd rfl hs
  | cons c s =>
      rw [unescape, unescapeFrom]
      split
      · simp
      · simp

theorem suits_readString (quote : Char) (s : List Char) :
    (readString quote s).1.Suits c := by
  simp only [readString]
  split <;> trivial

theorem suits_readNumber (s : List Char) (n : Nat) :
    (readNumber s n).1.Suits c := by
  simp only [readNumber]
  split
  · trivial
  · split <;> trivial

theorem suits_readIdentLike (h : startsIdent (c :: s) = true) :
    (readIdentLike (c :: s)).1.Suits c := by
  rw [readIdentLike_eq]
  unfold behindName
  split
  · split
    · simp only []
      split <;> trivial
    · trivial
  · show unescape _ ≠ []
    refine unescape_ne_nil fun hnil => ?_
    have hpos := nameLength_pos h
    rw [List.take_eq_nil_iff] at hnil
    rcases hnil with hnil | hnil
    · omega
    · cases hnil

theorem suits_punctuation? {kind : TokenKind}
    (h : punctuation? c = some kind) : kind.Suits c := by
  unfold punctuation? at h
  split at h <;> cases h <;> trivial

theorem suits_readPlain (c : Char) (s : List Char) :
    (readPlain c s).1.Suits c := by
  simp only [readPlain]
  split
  · next hspace => exact hspace
  split
  · exact suits_readString c s
  split
  · exact suits_readNumber _ _
  split
  · next hname => exact suits_readIdentLike hname
  split
  · simp only [readHash]
    split <;> trivial
  split
  · simp only [readAtKeyword]
    split <;> trivial
  split
  · trivial
  split
  · next kind hkind => exact suits_punctuation? hkind
  · trivial

theorem suits_readKind (c : Char) (s : List Char) :
    (readKind (c :: s)).1.Suits c := by
  rw [readKind_cons]
  split
  · next hcomment => exact hcomment.1
  split
  · trivial
  split
  · trivial
  · exact suits_readPlain c s

/-! ## Tokens of a text -/

variable {t : Token}

/-- A token of a text is what is read at some place of it. -/
theorem exists_of_mem_tokenize (h : t ∈ tokenize s) :
    ∃ c b n, readKind (c :: b) = (t.kind, n + 1) ∧ t.text = c :: b.take n := by
  obtain ⟨ys, hys, -, rfl⟩ := Text.exists_of_mem_divide h
  obtain ⟨n, hn⟩ := Nat.exists_eq_succ_of_ne_zero
    (Nat.pos_iff_ne_zero.1 (readKind_pos hys))
  cases ys with
  | nil => exact absurd rfl hys
  | cons c b =>
      refine ⟨c, b, n, Prod.ext rfl hn, ?_⟩
      show (c :: b).take (readKind (c :: b)).2 = c :: b.take n
      rw [hn, List.take_succ_cons]

theorem suits_of_mem_tokenize (h : t ∈ tokenize s) :
    ∃ c b, t.text = c :: b ∧ t.kind.Suits c := by
  obtain ⟨c, b, n, hread, htext⟩ := exists_of_mem_tokenize h
  have hc := suits_readKind c b
  rw [hread] at hc
  exact ⟨c, b.take n, htext, hc⟩

theorem text_ne_nil_of_mem (h : t ∈ tokenize s) : t.text ≠ [] := by
  obtain ⟨c, b, htext, -⟩ := suits_of_mem_tokenize h
  simp [htext]

/-- White space is what is written in white space. -/
theorem kind_eq_space_iff (h : t ∈ tokenize s) :
    t.kind = .space ↔ ∀ c ∈ t.text, isSpace c = true := by
  obtain ⟨c, b, n, hread, htext⟩ := exists_of_mem_tokenize h
  rw [htext, List.forall_mem_cons]
  refine ⟨fun hkind => ?_, fun hspace => ?_⟩
  · have hc := suits_readKind c b
    rw [hread, hkind] at hc
    rw [readKind_blank hc] at hread
    obtain rfl := Nat.succ.inj (Prod.mk.inj hread).2
    rw [← List.prefix_iff_eq_take.1 (List.takeWhile_prefix isSpace)]
    exact ⟨hc, fun d hd => List.mem_takeWhile_imp hd⟩
  · rw [readKind_blank hspace.1] at hread
    exact (Prod.mk.inj hread).1.symm

/-- If a token is an identifier, its name is not empty. -/
def Token.Named (t : Token) : Prop := ∀ name, t.kind = .ident name → name ≠ []

theorem named_of_mem_tokenize (h : t ∈ tokenize s) : t.Named := by
  intro name hname
  obtain ⟨c, b, -, hsuits⟩ := suits_of_mem_tokenize h
  rw [hname] at hsuits
  exact hsuits

end CssVendor.Syntax
