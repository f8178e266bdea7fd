import CssVendor.Filler
import CssVendor.Proofs.Completion
import Mathlib.Data.List.Forall2

/-!
# One pass over the blocks of a tree

A walk of the filler recurses through a tree and changes it on the way. Seen
from outside it is a pass over a list, the blocks of the tree parents first:
each block is expanded in turn, the tally grows by what its expansion says, and
the first block that cannot be expanded ends the pass and leaves itself and all
that follow as they were. `Pass` is that description, one constructor for each
thing that can happen, and `pass_walk` says that every walk fits it. What a run
does to a tree is then a matter of induction over a list.
-/

namespace CssVendor

namespace Block

/-- The blocks of a tree, each before the blocks nested in it. -/
def preorder : Block → List Block
  | ⟨kind, declarations, children⟩ =>
      ⟨kind, declarations, children⟩ :: go children
where
  go : List Block → List Block
    | [] => []
    | c :: cs => preorder c ++ go cs

theorem preorder_eq (b : Block) : b.preorder = b :: preorder.go b.children := by
  cases b
  rfl

@[simp] theorem preorder_go_nil : preorder.go [] = [] := rfl

@[simp] theorem preorder_go_cons (c : Block) (cs : List Block) :
    preorder.go (c :: cs) = c.preorder ++ preorder.go cs := rfl

theorem preorder_go_append (bs cs : List Block) :
    preorder.go (bs ++ cs) = preorder.go bs ++ preorder.go cs := by
  induction bs with
  | nil => rfl
  | cons b bs ih => rw [List.cons_append, preorder_go_cons, ih]; simp

theorem mem_preorder_go {bs : List Block} {c : Block} :
    c ∈ preorder.go bs ↔ ∃ b ∈ bs, c ∈ b.preorder := by
  induction bs with
  | nil => simp
  | cons b bs ih => simp [ih]

theorem mem_preorder {b c : Block} :
    c ∈ b.preorder ↔ c = b ∨ ∃ d ∈ b.children, c ∈ d.preorder := by
  rw [preorder_eq, List.mem_cons, mem_preorder_go]

/-- What holds of a block whenever it holds of its children holds of every
block. -/
theorem inductionOn {P : Block → Prop} (b : Block)
    (h : ∀ b : Block, (∀ c ∈ b.children, P c) → P b) : P b := by
  match b with
  | ⟨kind, declarations, children⟩ =>
      exact h _ fun c (hc : c ∈ children) => inductionOn c h
termination_by sizeOf b
decreasing_by
  have := List.sizeOf_lt_of_mem hc
  simp only [Block.mk.sizeOf_spec]
  omega

/-- Two blocks that differ at most in what their children are. -/
structure Agrees (b b' : Block) : Prop where
  kind : b.kind = b'.kind
  declarations : b.declarations = b'.declarations
  children : b.children.length = b'.children.length

theorem agrees_with_children {b : Block} {cs : List Block}
    (h : cs.length = b.children.length) :
    b.Agrees { b with children := cs } :=
  ⟨rfl, rfl, h.symm⟩

/-- Expanding a block keeps its kind and its children. -/
theorem expand_keeps {b : Block} {e : Expansion} (h : b.expand = .ok e) :
    e.block.kind = b.kind ∧ e.block.children = b.children := by
  rw [expand] at h
  split at h
  · cases h
    exact ⟨rfl, rfl⟩
  · split at h
    · cases h
    · cases h
      exact ⟨rfl, rfl⟩

/-- The number returned is the number of declarations appended. -/
theorem expand_added {b : Block} {e : Expansion} (h : b.expand = .ok e) :
    e.block.declarations.length = b.declarations.length + e.added := by
  rw [expand] at h
  split at h
  · cases h
    rfl
  · split at h
    · cases h
    · cases h
      rw [List.length_append]

/-- A list of trees is determined by its blocks in order, as every block says
how many of the following ones are its own. -/
theorem eq_of_agrees_go {bs bs' rest rest' : List Block}
    (h : ∀ b ∈ bs, ∀ b' rest rest',
      List.Forall₂ Agrees (b.preorder ++ rest) (b'.preorder ++ rest') →
      b = b' ∧ List.Forall₂ Agrees rest rest')
    (hlength : bs.length = bs'.length)
    (hagrees : List.Forall₂ Agrees (preorder.go bs ++ rest)
      (preorder.go bs' ++ rest')) :
    bs = bs' ∧ List.Forall₂ Agrees rest rest' := by
  induction bs generalizing bs' with
  | nil =>
      obtain rfl := List.eq_nil_of_length_eq_zero hlength.symm
      exact ⟨rfl, hagrees⟩
  | cons b bs ih =>
      cases bs' with
      | nil => cases hlength
      | cons b' bs' =>
          rw [preorder_go_cons, preorder_go_cons, List.append_assoc,
            List.append_assoc] at hagrees
          obtain ⟨rfl, hbs⟩ := h b (by simp) b' _ _ hagrees
          obtain ⟨rfl, hrest⟩ := ih (fun c hc => h c (by simp [hc]))
            (Nat.succ.inj hlength) hbs
          exact ⟨rfl, hrest⟩

theorem eq_of_agrees_append (b : Block) : ∀ (b' : Block)
    (rest rest' : List Block),
    List.Forall₂ Agrees (b.preorder ++ rest) (b'.preorder ++ rest') →
    b = b' ∧ List.Forall₂ Agrees rest rest' := by
  induction b using inductionOn with
  | h b ih =>
      intro b' rest rest' h
      rw [preorder_eq b, preorder_eq b', List.cons_append, List.cons_append,
        List.forall₂_cons] at h
      obtain ⟨hb, hchildren⟩ := h
      obtain ⟨heq, hrest⟩ := eq_of_agrees_go ih hb.children hchildren
      cases b
      cases b'
      obtain ⟨hkind, hdeclarations, -⟩ := hb
      simp only at hkind hdeclarations heq
      exact ⟨by rw [hkind, hdeclarations, heq], hrest⟩

/-- Trees are equal if their blocks agree one by one. -/
theorem eq_of_agrees {b b' : Block}
    (h : List.Forall₂ Agrees b.preorder b'.preorder) : b = b' := by
  refine (eq_of_agrees_append b b' [] [] ?_).1
  rw [List.append_nil, List.append_nil]
  exact h

end Block

/-- The number of declarations in the blocks of a list. -/
def declarationCount (bs : List Block) : Nat :=
  (bs.map fun b => b.declarations.length).sum

/-- A walk over a list keeps its length. -/
theorem Walk.length_overAll {σ ε : Type} (walk : σ → Block → Walk σ ε Block)
    (s : σ) (bs : List Block) :
    (Walk.overAll walk s bs).tree.length = bs.length := by
  induction bs generalizing s with
  | nil => rfl
  | cons b bs ih =>
      rw [Walk.overAll]
      rcases walk s b with ⟨s', b', _ | ⟨⟩⟩
      · rfl
      · simp only [List.length_cons, ih]

/-- Expanding blocks one after another: `Pass t bs t' bs' r` says that the
blocks `bs`, met with the tally `t`, become `bs'`, leave the tally `t'` and end
with the result `r`. A block's children are only counted, as they are met later
in the pass. -/
inductive Pass : Tally → List Block → Tally → List Block → Except Fault Unit →
    Prop
  | done {t : Tally} : Pass t [] t [] (.ok ())
  | expand {t t' : Tally} {b b' : Block} {bs bs' : List Block} {e : Expansion}
      {r : Except Fault Unit} (he : b.expand = .ok e)
      (hagrees : e.block.Agrees b')
      (hrest : Pass ⟨t.added + e.added, t.records ++ e.records⟩ bs t' bs' r) :
      Pass t (b :: bs) t' (b' :: bs') r
  | stop {t : Tally} {b : Block} {bs : List Block} {fault : Fault}
      (hfault : b.expand = .error fault) :
      Pass t (b :: bs) t (b :: bs) (.error fault)

namespace Pass

/-- A pass that came to its end goes on with more blocks. -/
theorem append {t t' t'' : Tally} {bs bs' cs cs' : List Block}
    {r r' : Except Fault Unit} (h : Pass t bs t' bs' r) (hr : r = .ok ())
    (h' : Pass t' cs t'' cs' r') : Pass t (bs ++ cs) t'' (bs' ++ cs') r' := by
  induction h with
  | done => exact h'
  | expand he hagrees _ ih => exact .expand he hagrees (ih hr h')
  | stop hfault => cases hr

/-- A pass that was stopped does not reach more blocks. -/
theorem append_of_error {t t' : Tally} {bs bs' : List Block}
    {r : Except Fault Unit} {fault : Fault} (h : Pass t bs t' bs' r)
    (hr : r = .error fault) (cs : List Block) :
    Pass t (bs ++ cs) t' (bs' ++ cs) r := by
  induction h with
  | done => cases hr
  | expand he hagrees _ ih => exact .expand he hagrees (ih hr)
  | stop hfault => exact .stop hfault

/-- The tally counts what is appended, whether or not the pass came to its
end. -/
theorem added_add {t t' : Tally} {bs bs' : List Block} {r : Except Fault Unit}
    (h : Pass t bs t' bs' r) :
    t'.added + declarationCount bs = t.added + declarationCount bs' := by
  induction h with
  | done => rfl
  | expand he hagrees _ ih =>
      have hadded := Block.expand_added he
      rw [hagrees.declarations] at hadded
      simp only [declarationCount, List.map_cons, List.sum_cons] at ih ⊢
      omega
  | stop hfault => rfl

/-- Two passes over the same blocks end alike and make the same of them. -/
theorem agrees {s s' t t' : Tally} {bs bs' bs'' : List Block}
    {r r' : Except Fault Unit} (h : Pass s bs s' bs' r)
    (h' : Pass t bs t' bs'' r') :
    r = r' ∧ List.Forall₂ Block.Agrees bs' bs'' := by
  induction h generalizing t bs'' with
  | done =>
      cases h'
      exact ⟨rfl, .nil⟩
  | expand he hagrees _ ih =>
      cases h' with
      | expand he' hagrees' hrest' =>
          rw [he] at he'
          cases he'
          obtain ⟨hr, hbs⟩ := ih hrest'
          refine ⟨hr, .cons ⟨?_, ?_, ?_⟩ hbs⟩
          · exact hagrees.kind.symm.trans hagrees'.kind
          · exact hagrees.declarations.symm.trans hagrees'.declarations
          · exact hagrees.children.symm.trans hagrees'.children
      | stop hfault =>
          rw [he] at hfault
          cases hfault
  | stop hfault =>
      cases h' with
      | expand he' _ _ =>
          rw [hfault] at he'
          cases he'
      | stop hfault' =>
          rw [hfault] at hfault'
          cases hfault'
          exact ⟨rfl, List.forall₂_same.2 fun _ _ => ⟨rfl, rfl, rfl⟩⟩

end Pass

/-! ## Walks are passes -/

/-- The walk over a list passes over the blocks of its trees, if the walk over
each tree of the list does. -/
theorem pass_overAll {bs : List Block}
    (h : ∀ b ∈ bs, ∀ t : Tally, Pass t b.preorder
      (Tally.visitor.walk t b).state (Tally.visitor.walk t b).tree.preorder
      (Tally.visitor.walk t b).result) (t : Tally) :
    Pass t (Block.preorder.go bs)
      (Walk.overAll Tally.visitor.walk t bs).state
      (Block.preorder.go (Walk.overAll Tally.visitor.walk t bs).tree)
      (Walk.overAll Tally.visitor.walk t bs).result := by
  induction bs generalizing t with
  | nil => exact .done
  | cons b bs ih =>
      have hb := h b (by simp) t
      have hbs := ih fun c hc => h c (by simp [hc])
      rw [Walk.overAll]
      rcases hw : Tally.visitor.walk t b with ⟨t', b', fault | ⟨⟩⟩ <;>
        rw [hw] at hb
      · exact hb.append_of_error rfl _
      · exact hb.append rfl (hbs t')

/-- Every walk is a pass over the blocks of the tree. -/
theorem pass_walk (t : Tally) (b : Block) :
    Pass t b.preorder (Tally.visitor.walk t b).state
      (Tally.visitor.walk t b).tree.preorder
      (Tally.visitor.walk t b).result := by
  induction b using Block.inductionOn generalizing t with
  | h b ih =>
      have hvisit : Tally.visitor.visit t b = t.visit b := rfl
      rw [Visitor.walk_eq, hvisit, Tally.visit, Block.preorder_eq b]
      cases he : b.expand with
      | error fault =>
          simp only []
          rw [Block.preorder_eq b]
          exact .stop he
      | ok e =>
          have hchildren := (Block.expand_keeps he).2
          simp only []
          rw [Block.preorder_eq { e.block with children := _ }, ← hchildren]
          refine .expand he (Block.agrees_with_children ?_) ?_
          · exact Walk.length_overAll _ _ _
          · refine pass_overAll (fun c hc => ih c ?_) _
            rw [← hchildren]
            exact hc

end CssVendor
