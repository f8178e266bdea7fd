import CssVendor.Proofs.CutOff
import CssVendor.Syntax.Component

/-!
# Brackets that match

Tokens of which no bracket is left open, and none closes anything that it did
not open, make up the same components wherever they stand. The fold that
matches brackets then works above whatever it has been given: `Over` says that
one stage of it is another one with blocks open around it, and a step keeps
that, as no closing token reaches below.

Nothing is lost when brackets are matched: the components are made of the
tokens in their order, and so have their text.
-/

namespace CssVendor.Syntax

/-- Whether a token of this kind closes a block. -/
def TokenKind.isCloser : TokenKind → Bool
  | .closeRound | .closeSquare | .closeCurly => true
  | _ => false

/-- Whether a token of this kind neither opens nor closes a block. -/
def TokenKind.isPlain (kind : TokenKind) : Bool :=
  kind.closer?.isNone && !kind.isCloser

theorem isCloser_of_closer? {kind closer : TokenKind}
    (h : kind.closer? = some closer) : closer.isCloser = true := by
  unfold TokenKind.closer? at h
  split at h
  · cases h
    rfl
  · cases h
    rfl
  · cases h
    rfl
  · cases h
    rfl
  · cases h

theorem isPlain_of_isNamed {kind : TokenKind} (h : kind.isNamed = true) :
    kind.isPlain = true := by
  unfold TokenKind.isNamed at h
  split at h
  · rfl
  · rfl
  · rfl
  · rfl
  · cases h

theorem not_isCloser {kind : TokenKind} (h : kind.isError = false) :
    kind.isCloser = false := by
  cases kind with
  | closeRound | closeSquare | closeCurly => cases h
  | _ => rfl

/-- Tokens that make up components wherever they stand. -/
def Nests (ts : List Token) (cs : List Component) : Prop :=
  ∀ n : Nesting,
    ts.foldl Nesting.push n = ⟨cs.reverse ++ n.level, n.frames⟩

variable {ts ts' : List Token} {cs cs' : List Component} {t : Token}

theorem push_opener {closer : TokenKind} (ht : t.kind.closer? = some closer)
    (n : Nesting) : n.push t = ⟨[], ⟨t, n.level⟩ :: n.frames⟩ := by
  rw [Nesting.push, ht]

theorem push_top (ht : t.kind.closer? = none) (level : List Component) :
    Nesting.push ⟨level, []⟩ t = ⟨.token t :: level, []⟩ := by
  rw [Nesting.push, ht]

theorem push_inside (ht : t.kind.closer? = none) (level : List Component)
    (f : Frame) (frames : List Frame) :
    Nesting.push ⟨level, f :: frames⟩ t =
      if f.opener.kind.closer? == some t.kind then
        ⟨.block f.opener level.reverse (some t) :: f.before, frames⟩
      else ⟨.token t :: level, f :: frames⟩ := by
  rw [Nesting.push, ht]

theorem push_plain (ht : t.kind.isPlain = true) (n : Nesting) :
    n.push t = ⟨.token t :: n.level, n.frames⟩ := by
  rw [TokenKind.isPlain, Bool.and_eq_true, Option.isNone_iff_eq_none] at ht
  obtain ⟨hopens, hcloses⟩ := ht
  obtain ⟨level, frames⟩ := n
  cases frames with
  | nil => rw [push_top hopens]
  | cons f frames =>
      rw [push_inside hopens, if_neg]
      intro hcloser
      rw [isCloser_of_closer? (eq_of_beq hcloser)] at hcloses
      cases hcloses

theorem Nests.nil : Nests [] [] := fun _ => rfl

theorem Nests.append (h : Nests ts cs) (h' : Nests ts' cs') :
    Nests (ts ++ ts') (cs ++ cs') := by
  intro n
  rw [List.foldl_append, h n, h', List.reverse_append, List.append_assoc]

theorem Nests.token (ht : t.kind.isPlain = true) : Nests [t] [.token t] :=
  fun n => push_plain ht n

/-- Tokens between a token that opens a block and the one that closes it. -/
theorem Nests.block {opener closer : Token}
    (hopener : opener.kind.closer? = some closer.kind)
    (hcloser : closer.kind.closer? = none) (h : Nests ts cs) :
    Nests (opener :: (ts ++ [closer])) [.block opener cs (some closer)] := by
  intro n
  rw [List.foldl_cons, push_opener hopener, List.foldl_append, h,
    List.foldl_cons, List.foldl_nil, push_inside hcloser,
    if_pos (by simp [hopener])]
  simp

theorem Nests.nest (h : Nests ts cs) : nest ts = cs := by
  rw [Syntax.nest, h]
  simp [Nesting.close]

/-- The last token, if it is no bracket, is the last component. -/
theorem Nests.of_append_token (ht : t.kind.isPlain = true)
    (h : Nests (ts ++ [t]) cs) :
    ∃ before, cs = before ++ [.token t] ∧ Nests ts before := by
  have hpush : ∀ n : Nesting,
      .token t :: (ts.foldl Nesting.push n).level = cs.reverse ++ n.level ∧
        (ts.foldl Nesting.push n).frames = n.frames := by
    intro n
    have hn := h n
    rw [List.foldl_append, List.foldl_cons, List.foldl_nil,
      push_plain ht] at hn
    exact Nesting.mk.inj hn
  have hlast := (hpush ⟨[], []⟩).1
  rw [List.append_nil] at hlast
  refine ⟨(ts.foldl Nesting.push ⟨[], []⟩).level.reverse, ?_, fun n => ?_⟩
  · rw [← List.reverse_cons, hlast, List.reverse_reverse]
  · obtain ⟨hlevel, hframes⟩ := hpush n
    rw [← hlast, List.cons_append] at hlevel
    rw [List.reverse_reverse, ← (List.cons.inj hlevel).2, ← hframes]

/-! ## Tokens of components -/

/-- The tokens that a component is made of, in order. -/
def Component.tokens : Component → List Token
  | .token t => [t]
  | .block opener content closer =>
      opener :: (tokensOfAll content ++ closer.toList)
where
  /-- The tokens that the components of a list are made of. -/
  tokensOfAll : List Component → List Token
    | [] => []
    | c :: cs => tokens c ++ tokensOfAll cs

/-- The tokens that components are made of, in order. -/
def tokensOf (cs : List Component) : List Token :=
  Component.tokens.tokensOfAll cs

@[simp] theorem tokensOf_nil : tokensOf [] = [] := rfl

@[simp] theorem tokensOf_cons (c : Component) (cs : List Component) :
    tokensOf (c :: cs) = c.tokens ++ tokensOf cs := rfl

theorem tokensOf_append (cs ds : List Component) :
    tokensOf (cs ++ ds) = tokensOf cs ++ tokensOf ds := by
  induction cs with
  | nil => rfl
  | cons c cs ih => simp [ih]

theorem mem_tokensOf {cs : List Component} {t : Token} :
    t ∈ tokensOf cs ↔ ∃ c ∈ cs, t ∈ c.tokens := by
  induction cs with
  | nil => simp
  | cons c cs ih => simp [ih]

@[simp] theorem Component.tokens_token (t : Token) :
    (Component.token t).tokens = [t] := rfl

@[simp] theorem Component.tokens_block (opener : Token)
    (content : List Component) (closer : Option Token) :
    (Component.block opener content closer).tokens =
      opener :: (tokensOf content ++ closer.toList) := rfl

/-- The tokens that have been read at a stage of matching brackets. -/
def Nesting.tokens (n : Nesting) : List Token :=
  go n.frames ++ tokensOf n.level.reverse
where
  go : List Frame → List Token
    | [] => []
    | f :: frames => go frames ++ tokensOf f.before.reverse ++ [f.opener]

theorem tokens_push (n : Nesting) (t : Token) :
    (n.push t).tokens = n.tokens ++ [t] := by
  obtain ⟨level, frames⟩ := n
  cases ht : t.kind.closer? with
  | some closer =>
      rw [push_opener ht]
      simp [Nesting.tokens, Nesting.tokens.go]
  | none =>
      cases frames with
      | nil =>
          rw [push_top ht]
          simp [Nesting.tokens, tokensOf_append]
      | cons f frames =>
          rw [push_inside ht]
          split
          · simp [Nesting.tokens, Nesting.tokens.go, tokensOf_append]
          · simp [Nesting.tokens, Nesting.tokens.go, tokensOf_append]

theorem tokens_foldl_push (ts : List Token) (n : Nesting) :
    (ts.foldl Nesting.push n).tokens = n.tokens ++ ts := by
  induction ts generalizing n with
  | nil => simp
  | cons t ts ih =>
      rw [List.foldl_cons, ih, tokens_push, List.append_assoc]
      rfl

theorem tokensOf_close (level : List Component) (frames : List Frame) :
    tokensOf (Nesting.close level frames) =
      (Nesting.mk level frames).tokens := by
  induction frames generalizing level with
  | nil => rfl
  | cons f frames ih =>
      rw [Nesting.close, ih]
      simp [Nesting.tokens, Nesting.tokens.go, tokensOf_append]

/-- Matching brackets loses no token and moves none. -/
theorem tokensOf_nest (ts : List Token) : tokensOf (nest ts) = ts := by
  rw [nest, tokensOf_close]
  exact tokens_foldl_push ts ⟨[], []⟩

/-- The components of a text are made of its tokens. -/
theorem tokensOf_components (s : List Char) :
    tokensOf (components s) = tokenize s :=
  tokensOf_nest (tokenize s)

/-! ## Openers -/

/-- Only blocks are opened: no component is an opening token by itself, at any
depth, and every block begins with one. -/
inductive Component.Formed : Component → Prop
  | token {t : Token} (h : t.kind.closer? = none) : Formed (.token t)
  | block {opener : Token} {content : List Component} {closer : Option Token}
      (h : opener.kind.closer? ≠ none) (hcontent : ∀ c ∈ content, c.Formed) :
      Formed (.block opener content closer)

/-- A blank is a token of its own. -/
theorem Component.Formed.token_of_isBlank {c : Component} (h : c.Formed)
    (hc : c.isBlank = true) : ∃ t, c = .token t ∧ t.kind.isBlank = true := by
  cases h with
  | token h => exact ⟨_, rfl, hc⟩
  | @block opener content closer h hcontent =>
      have hkind : opener.kind.isBlank = true := hc
      unfold TokenKind.isBlank at hkind
      split at hkind
      · next hspace => rw [hspace] at h; exact absurd rfl h
      · next hcomment => rw [hcomment] at h; exact absurd rfl h
      · cases hkind

/-! ## Texts of components -/

@[simp] theorem Component.text_token (t : Token) :
    (Component.token t).text = t.text := rfl

@[simp] theorem Component.text_block (opener : Token)
    (content : List Component) (closer : Option Token) :
    (Component.block opener content closer).text =
      opener.text ++ textOf content ++ (closer.map Token.text).getD [] := rfl

/-- What holds of the tokens, and of a block whenever it holds of the components
in it, holds of every component. -/
theorem Component.inductionOn {P : Component → Prop} (c : Component)
    (token : ∀ t, P (.token t))
    (block : ∀ opener content closer, (∀ d ∈ content, P d) →
      P (.block opener content closer)) : P c := by
  match c with
  | .token t => exact token t
  | .block opener content closer =>
      exact block opener content closer fun d (hd : d ∈ content) =>
        inductionOn d token block
termination_by sizeOf c
decreasing_by
  have := List.sizeOf_lt_of_mem hd
  simp only [Component.block.sizeOf_spec]
  omega

/-- The text of a component is that of its tokens. -/
theorem Component.text_eq (c : Component) :
    c.text = c.tokens.flatMap Token.text := by
  induction c using Component.inductionOn with
  | token t => simp
  | block opener content closer ih =>
      have hcontent : textOf content =
          (tokensOf content).flatMap Token.text := by
        induction content with
        | nil => rfl
        | cons d content ihcontent =>
            rw [textOf_cons, tokensOf_cons, List.flatMap_append,
              ih d (by simp), ihcontent fun e he => ih e (by simp [he])]
      cases closer <;> simp [hcontent]

theorem textOf_eq (cs : List Component) :
    textOf cs = (tokensOf cs).flatMap Token.text := by
  induction cs with
  | nil => rfl
  | cons c cs ih =>
      rw [textOf_cons, tokensOf_cons, List.flatMap_append, c.text_eq, ih]

theorem textOf_nest (ts : List Token) :
    textOf (nest ts) = ts.flatMap Token.text := by
  rw [textOf_eq, tokensOf_nest]

/-- Nothing of a text is lost in its components. -/
theorem textOf_components (s : List Char) : textOf (components s) = s := by
  rw [components, textOf_nest, flatMap_text_tokenize]

/-! ## Closed texts -/

/-- Whether no error has been met at a stage of matching brackets. -/
def Nesting.Clean (n : Nesting) : Prop :=
  (∀ c ∈ n.level, c.isClean = true) ∧
    ∀ f ∈ n.frames, ∀ c ∈ f.before, c.isClean = true

theorem allClean_iff :
    Component.isClean.allClean cs = true ↔ ∀ c ∈ cs, c.isClean = true := by
  induction cs with
  | nil => simp [Component.isClean.allClean]
  | cons c cs ih => simp [Component.isClean.allClean, ih]

/-- An error stays. -/
theorem clean_of_push {n : Nesting} (h : (n.push t).Clean) : n.Clean := by
  obtain ⟨level, frames⟩ := n
  cases ht : t.kind.closer? with
  | some closer =>
      rw [push_opener ht] at h
      exact ⟨h.2 ⟨t, level⟩ (by simp), fun f hf => h.2 f (by simp [hf])⟩
  | none =>
      cases frames with
      | nil =>
          rw [push_top ht] at h
          exact ⟨fun c hc => h.1 c (by simp [hc]), h.2⟩
      | cons f frames =>
          rw [push_inside ht] at h
          split at h
          · have hblock := h.1 _ (List.mem_cons_self ..)
            rw [Component.isClean, allClean_iff] at hblock
            refine ⟨fun c hc => hblock c (by simpa using hc), ?_⟩
            intro g hg c hc
            rcases List.mem_cons.1 hg with rfl | hg
            · exact h.1 c (by simp [hc])
            · exact h.2 g hg c hc
          · exact ⟨fun c hc => h.1 c (by simp [hc]), h.2⟩

theorem clean_of_foldl_push {n : Nesting}
    (h : (ts.foldl Nesting.push n).Clean) : n.Clean := by
  induction ts generalizing n with
  | nil => exact h
  | cons t ts ih => exact clean_of_push (ih h)

/-- One stage of matching brackets is another, begun in the middle of a third
stage `m` instead of at the top. -/
inductive Over (m : Nesting) : Nesting → Nesting → Prop
  | top (level : List Component) :
      Over m ⟨level, []⟩ ⟨level ++ m.level, m.frames⟩
  | inside {before before' : List Component} {frames frames' : List Frame}
      (level : List Component) (opener : Token)
      (h : Over m ⟨before, frames⟩ ⟨before', frames'⟩) :
      Over m ⟨level, ⟨opener, before⟩ :: frames⟩
        ⟨level, ⟨opener, before'⟩ :: frames'⟩

theorem Over.cons {m : Nesting} {level level' : List Component}
    {frames frames' : List Frame} (h : Over m ⟨level, frames⟩ ⟨level', frames'⟩)
    (c : Component) : Over m ⟨c :: level, frames⟩ ⟨c :: level', frames'⟩ := by
  cases h with
  | top => exact .top (c :: level)
  | inside _ opener h => exact .inside (c :: level) opener h

theorem Over.push {m n n' : Nesting} (h : Over m n n')
    (hclean : (n.push t).Clean) : Over m (n.push t) (n'.push t) := by
  cases ht : t.kind.closer? with
  | some closer =>
      rw [push_opener ht, push_opener ht]
      exact .inside [] t h
  | none =>
      cases h with
      | top level =>
          rw [push_top ht] at hclean ⊢
          -- A closing token at the top would reach below.
          have herror : (!t.kind.isError) = true :=
            hclean.1 (.token t) (List.mem_cons_self ..)
          have hplain : t.kind.isPlain = true := by
            rw [TokenKind.isPlain, ht, not_isCloser (by simpa using herror)]
            rfl
          rw [push_plain hplain]
          exact .top (.token t :: level)
      | inside level opener h =>
          rw [push_inside ht, push_inside ht]
          split
          · exact h.cons _
          · exact .inside (.token t :: level) opener h

theorem Over.foldl_push {m n n' : Nesting} (h : Over m n n')
    (hclean : (ts.foldl Nesting.push n).Clean) :
    Over m (ts.foldl Nesting.push n) (ts.foldl Nesting.push n') := by
  induction ts generalizing n n' with
  | nil => exact h
  | cons t ts ih => exact ih (h.push (clean_of_foldl_push hclean)) hclean

/-- A text that is complete in itself: no token is cut off at its end, no
bracket is open there, and there is no error in it. -/
structure Closed (s : List Char) : Prop where
  ended : ∀ t ∈ (tokenize s).getLast?, t.isEnded = true
  balanced :
    ((tokenize s).foldl Nesting.push ⟨[], []⟩).frames.isEmpty = true
  clean : Component.isClean.allClean (components s) = true

instance (s : List Char) : Decidable (Closed s) :=
  decidable_of_iff (_ ∧ _ ∧ _)
    ⟨fun h => ⟨h.1, h.2.1, h.2.2⟩, fun h => ⟨h.ended, h.balanced, h.clean⟩⟩

theorem Closed.finished {s : List Char} (h : Closed s) : Finished s :=
  finished_of_isEnded h.ended

example : Closed "url(a\\)b) '/*' /* '( */".toList := by decide +kernel

example : ¬ Closed "calc(1px) 'a\\'".toList := by decide +kernel

/-- The tokens of a closed text make up its components wherever it stands. -/
theorem Closed.nests {s : List Char} (h : Closed s) :
    Nests (tokenize s) (components s) := by
  have hframes := List.isEmpty_iff.1 h.balanced
  have hclean := h.clean
  rw [components, nest, hframes, Nesting.close, allClean_iff] at hclean
  rw [components, nest, hframes, Nesting.close]
  intro n
  have hover : Over n ((tokenize s).foldl Nesting.push ⟨[], []⟩)
      ((tokenize s).foldl Nesting.push n) := by
    refine Over.foldl_push (.top []) ⟨fun c hc => ?_, ?_⟩
    · exact hclean c (List.mem_reverse.2 hc)
    · rw [hframes]
      intro f hf
      cases hf
  generalize (tokenize s).foldl Nesting.push ⟨[], []⟩ = r at hframes hover ⊢
  obtain ⟨level, frames⟩ := r
  subst hframes
  rw [List.reverse_reverse]
  generalize (tokenize s).foldl Nesting.push n = r' at hover ⊢
  cases hover
  rfl

end CssVendor.Syntax
