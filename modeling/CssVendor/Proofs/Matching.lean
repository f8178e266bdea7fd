import CssVendor.Proofs.Brackets

/-!
# Brackets that have been matched

What matching brackets makes of a text could have been written down by its
rules: a block ends with the token that closes it, nothing inside it would have
closed it earlier, and a block that nothing closes is the last of all.
`Matched` says so of a list of components, and of every part of it.

For such components matching is undone by listing their tokens and done again
by folding over these (`nest_tokensOf`). Components that stand somewhere in a
sheet are thus known from their tokens alone.
-/

namespace CssVendor.Syntax

/-- Components that could stand in a block that a token of kind `closer`
closes, or at the top level. Only where the text ends, and so only if `ends`,
may the last of them be a block without a closing token. -/
inductive Matched :
    (ends : Bool) → (closer : Option TokenKind) → List Component → Prop
  | nil {ends : Bool} {closer : Option TokenKind} : Matched ends closer []
  | token {ends : Bool} {closer : Option TokenKind} {t : Token}
      {cs : List Component} (hopens : t.kind.closer? = none)
      (hcloses : closer ≠ some t.kind) (h : Matched ends closer cs) :
      Matched ends closer (.token t :: cs)
  | block {ends : Bool} {closer : Option TokenKind} {opener t : Token}
      {content cs : List Component}
      (hopener : opener.kind.closer? = some t.kind)
      (hopens : t.kind.closer? = none)
      (hcontent : Matched false (some t.kind) content)
      (h : Matched ends closer cs) :
      Matched ends closer (.block opener content (some t) :: cs)
  | openBlock {closer : Option TokenKind} {opener : Token} {kind : TokenKind}
      {content : List Component} (hopener : opener.kind.closer? = some kind)
      (hcontent : Matched true (some kind) content) :
      Matched true closer [.block opener content none]

namespace Matched

variable {ends : Bool} {closer : Option TokenKind} {cs ds : List Component}
  {c : Component}

theorem append (h : Matched false closer cs) (h' : Matched ends closer ds) :
    Matched ends closer (cs ++ ds) := by
  generalize hfalse : false = e at h
  induction h with
  | nil => exact h'
  | token hopens hcloses _ ih => exact .token hopens hcloses (ih h' hfalse)
  | block hopener hopens hcontent _ _ ih =>
      exact .block hopener hopens hcontent (ih h' hfalse)
  | openBlock => cases hfalse

theorem of_suffix (h : Matched ends closer (cs ++ ds)) :
    Matched ends closer ds := by
  induction cs with
  | nil => exact h
  | cons c cs ih =>
      refine ih ?_
      rw [List.cons_append] at h
      generalize cs ++ ds = rest at h ⊢
      cases h with
      | token _ _ h => exact h
      | block _ _ _ h => exact h
      | openBlock => exact .nil

/-- In front of other components no block is open. -/
theorem of_prefix (h : Matched ends closer (cs ++ ds)) (hds : ds ≠ []) :
    Matched false closer cs := by
  induction cs with
  | nil => exact .nil
  | cons c cs ih =>
      rw [List.cons_append] at h
      generalize hrest : cs ++ ds = rest at h ih
      cases h with
      | token hopens hcloses h => exact .token hopens hcloses (ih h)
      | block hopener hopens hcontent h =>
          exact .block hopener hopens hcontent (ih h)
      | openBlock => exact absurd (List.append_eq_nil_iff.1 hrest).2 hds

theorem weaken (h : Matched false closer cs) : Matched ends closer cs := by
  have hnil : Matched ends closer (cs ++ []) := h.append .nil
  rwa [List.append_nil] at hnil

/-- At the top level nothing needs to stay open. -/
theorem top (h : Matched ends closer cs) : Matched ends none cs := by
  induction h with
  | nil => exact .nil
  | token hopens _ _ ih => exact .token hopens (by simp) ih
  | block hopener hopens hcontent _ _ ih =>
      exact .block hopener hopens hcontent ih
  | openBlock hopener hcontent => exact .openBlock hopener hcontent

theorem formed (h : Matched ends closer cs) : ∀ c ∈ cs, c.Formed := by
  induction h with
  | nil => exact List.forall_mem_nil _
  | token hopens _ _ ih => exact List.forall_mem_cons.2 ⟨.token hopens, ih⟩
  | block hopener _ _ _ ihcontent ih =>
      exact List.forall_mem_cons.2 ⟨.block (by simp [hopener]) ihcontent, ih⟩
  | openBlock hopener _ ih =>
      exact List.forall_mem_singleton.2 (.block (by simp [hopener]) ih)

end Matched

/-! ## Matching gives matched components -/

/-- The kind of token that closes the innermost of the open blocks. -/
def Nesting.awaits : List Frame → Option TokenKind
  | [] => none
  | f :: _ => f.opener.kind.closer?

/-- All that has been read at a stage of matching brackets is matched. -/
structure Nesting.Matched (n : Nesting) : Prop where
  level : Syntax.Matched false (awaits n.frames) n.level.reverse
  frames : ∀ f frames, f :: frames <:+ n.frames →
    f.opener.kind.closer? ≠ none ∧
      Syntax.Matched false (awaits frames) f.before.reverse

theorem matched_push {n : Nesting} (h : n.Matched) (t : Token) :
    (n.push t).Matched := by
  obtain ⟨level, frames⟩ := n
  obtain ⟨hlevel, hframes⟩ := h
  cases ht : t.kind.closer? with
  | some closer =>
      rw [push_opener ht]
      refine ⟨.nil, fun f fs hsuffix => ?_⟩
      rcases List.suffix_cons_iff.1 hsuffix with heq | hsuffix
      · obtain ⟨rfl, rfl⟩ := List.cons.inj heq
        exact ⟨by simp [ht], hlevel⟩
      · exact hframes f fs hsuffix
  | none =>
      have hadd : Nesting.awaits frames ≠ some t.kind →
          Nesting.Matched ⟨.token t :: level, frames⟩ := by
        intro hcloses
        refine ⟨?_, hframes⟩
        rw [List.reverse_cons]
        exact hlevel.append (.token ht hcloses .nil)
      cases frames with
      | nil =>
          rw [push_top ht]
          exact hadd (by simp [Nesting.awaits])
      | cons f frames =>
          rw [push_inside ht]
          obtain ⟨-, hbefore⟩ := hframes f frames (List.suffix_refl _)
          split
          · next hcloses =>
              have hopener : f.opener.kind.closer? = some t.kind :=
                eq_of_beq hcloses
              refine ⟨?_, fun g gs hsuffix => hframes g gs
                (hsuffix.trans (List.suffix_cons f frames))⟩
              have hcontent : Matched false f.opener.kind.closer? level.reverse :=
                hlevel
              rw [hopener] at hcontent
              rw [List.reverse_cons]
              exact hbefore.append (.block hopener ht hcontent .nil)
          · next hcloses =>
              exact hadd fun heq => hcloses (by simp [← heq, Nesting.awaits])

theorem matched_foldl_push {n : Nesting} (h : n.Matched) (ts : List Token) :
    (ts.foldl Nesting.push n).Matched := by
  induction ts generalizing n with
  | nil => exact h
  | cons t ts ih => exact ih (matched_push h t)

theorem matched_close {level : List Component} {frames : List Frame}
    (hlevel : Matched true (Nesting.awaits frames) level.reverse)
    (hframes : ∀ f fs, f :: fs <:+ frames → f.opener.kind.closer? ≠ none ∧
      Matched false (Nesting.awaits fs) f.before.reverse) :
    Matched true none (Nesting.close level frames) := by
  induction frames generalizing level with
  | nil => exact hlevel
  | cons f frames ih =>
      obtain ⟨hopener, hbefore⟩ := hframes f frames (List.suffix_refl _)
      obtain ⟨kind, hkind⟩ := Option.ne_none_iff_exists'.1 hopener
      refine ih ?_ fun g gs hsuffix =>
        hframes g gs (hsuffix.trans (List.suffix_cons f frames))
      have hcontent : Matched true f.opener.kind.closer? level.reverse := hlevel
      rw [hkind] at hcontent
      rw [List.reverse_cons]
      exact hbefore.append (.openBlock hkind hcontent)

theorem matched_nest (ts : List Token) : Matched true none (nest ts) := by
  have hnil : Nesting.Matched ⟨[], []⟩ :=
    ⟨.nil, fun f fs hsuffix => absurd hsuffix (by simp)⟩
  obtain ⟨hlevel, hframes⟩ := matched_foldl_push hnil ts
  exact matched_close hlevel.weaken hframes

/-! ## Matching once more -/

variable {ends : Bool} {closer : Option TokenKind} {cs : List Component}

/-- Folding over the tokens of matched components brings them back. -/
theorem Matched.foldl_push (h : Matched false closer cs)
    {frames : List Frame} (hframes : Nesting.awaits frames = closer)
    (level : List Component) :
    (tokensOf cs).foldl Nesting.push ⟨level, frames⟩ =
      ⟨cs.reverse ++ level, frames⟩ := by
  generalize hfalse : false = e at h
  induction h generalizing level frames with
  | nil => rfl
  | @token _ closer t cs hopens hcloses _ ih =>
      have hpush : Nesting.push ⟨level, frames⟩ t =
          ⟨.token t :: level, frames⟩ := by
        cases frames with
        | nil => exact push_top hopens level
        | cons f frames =>
            rw [push_inside hopens, if_neg]
            intro heq
            exact hcloses (hframes.symm.trans (eq_of_beq heq))
      rw [tokensOf_cons, Component.tokens_token, List.singleton_append,
        List.foldl_cons, hpush, ih hframes _ hfalse]
      simp
  | @block _ closer opener t content cs hopener hopens _ _ ihcontent ih =>
      have hawaits : Nesting.awaits (⟨opener, level⟩ :: frames) =
          opener.kind.closer? := rfl
      have hcontent := ihcontent (hawaits.trans hopener) [] rfl
      rw [tokensOf_cons, Component.tokens_block, List.cons_append,
        List.foldl_cons, push_opener hopener, List.append_assoc,
        List.foldl_append, hcontent, Option.toList_some, List.singleton_append,
        List.foldl_cons, push_inside hopens, if_pos (by simp [hopener]),
        ih hframes _ hfalse]
      simp
  | openBlock => cases hfalse

/-- What has been read at the end of a text, with what is open closed. -/
def Nesting.finish (n : Nesting) : List Component := close n.level n.frames

/-- The same, up to the end of the text. -/
theorem Matched.finish_foldl_push (h : Matched ends closer cs)
    {frames : List Frame} (hframes : Nesting.awaits frames = closer)
    (level : List Component) :
    ((tokensOf cs).foldl Nesting.push ⟨level, frames⟩).finish =
      Nesting.finish ⟨cs.reverse ++ level, frames⟩ := by
  induction h generalizing level frames with
  | nil => rfl
  | @token ends closer t cs hopens hcloses _ ih =>
      have hone := (Matched.token hopens hcloses .nil).foldl_push hframes level
      rw [tokensOf_cons, List.foldl_append,
        show Component.tokens (.token t) = tokensOf [.token t] by simp, hone,
        ih hframes]
      simp
  | @block ends closer opener t content cs hopener hopens hcontent _ _ ih =>
      have hblock : Matched false closer [.block opener content (some t)] :=
        .block hopener hopens hcontent .nil
      have hone := hblock.foldl_push hframes level
      rw [tokensOf_cons, List.foldl_append,
        show Component.tokens (.block opener content (some t)) =
          tokensOf [.block opener content (some t)] by simp, hone, ih hframes]
      simp
  | @openBlock closer opener kind content hopener _ ih =>
      have hawaits : Nesting.awaits (⟨opener, level⟩ :: frames) =
          opener.kind.closer? := rfl
      have hcontent := ih (hawaits.trans hopener) []
      rw [tokensOf_cons, Component.tokens_block, tokensOf_nil, List.append_nil,
        List.foldl_cons, push_opener hopener, Option.toList_none,
        List.append_nil, hcontent]
      simp [Nesting.finish, Nesting.close]

theorem Matched.nest_tokensOf (h : Matched ends closer cs) :
    nest (tokensOf cs) = cs := by
  have hawaits : Nesting.awaits [] = none := rfl
  have hfinish := h.top.finish_foldl_push hawaits []
  have hnest : nest (tokensOf cs) =
      ((tokensOf cs).foldl Nesting.push ⟨[], []⟩).finish := rfl
  rw [hnest, hfinish]
  simp [Nesting.finish, Nesting.close]

end CssVendor.Syntax
