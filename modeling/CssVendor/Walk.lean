import CssVendor.Block

/-!
# Walks over a tree

A walk visits a block and then its children in order, as they are after the
visit. A visitor carries a state from visit to visit, may change the block it
visits, may ask that the block's children be passed over, and may fail; a
failure ends the walk and leaves the rest of the tree as it is.

A visitor may also graft blocks onto the tree, which the walk then visits in
turn. So that a walk comes to an end, a visitor states a budget: the number of
blocks it can still add. A visit never raises the budget and the number of
blocks taken together, and every visit leaves one block behind.
-/

namespace CssVendor

/-- What the walk does after a visit. -/
inductive Onward
  | descend
  | pass
  deriving DecidableEq, Repr, Inhabited

/-- The outcome of one visit. -/
structure Visit (σ ε : Type) where
  state : σ
  block : Block
  outcome : Except ε Onward

/-- Something that is shown every block of a tree. -/
structure Visitor (σ ε : Type) where
  visit : σ → Block → Visit σ ε
  /-- How many blocks may still be added to the tree. -/
  budget : σ → Nat
  budget_visit : ∀ s b,
    budget (visit s b).state + (visit s b).block.count ≤ budget s + b.count

/-- The outcome of a walk over `α`, a block or a list of blocks. -/
structure Walk (σ ε α : Type) where
  state : σ
  tree : α
  result : Except ε Unit

namespace Block

theorem count_eq (b : Block) : b.count = 1 + count.go b.children := by
  cases b; rfl

theorem count_pos (b : Block) : 0 < b.count := by
  rw [count_eq]; omega

@[simp] theorem count_go_nil : count.go [] = 0 := rfl

@[simp] theorem count_go_cons (b : Block) (bs : List Block) :
    count.go (b :: bs) = b.count + count.go bs := rfl

theorem count_go_append (bs cs : List Block) :
    count.go (bs ++ cs) = count.go bs + count.go cs := by
  induction bs with
  | nil => simp
  | cons b bs ih => simp [ih]; omega

end Block

/-- Walks over the blocks of a list in order. A failure leaves the blocks after
it alone. -/
def Walk.overAll {σ ε : Type} (walk : σ → Block → Walk σ ε Block) (s : σ) :
    List Block → Walk σ ε (List Block)
  | [] => ⟨s, [], .ok ()⟩
  | b :: bs =>
      match walk s b with
      | ⟨s', b', .error e⟩ => ⟨s', b' :: bs, .error e⟩
      | ⟨s', b', .ok ()⟩ =>
          let w := overAll walk s' bs
          ⟨w.state, b' :: w.tree, w.result⟩

namespace Visitor

variable {σ ε : Type}

/-- The walk over a block that goes at most `depth` blocks deep. -/
def walkTo (V : Visitor σ ε) : (depth : Nat) → σ → Block → Walk σ ε Block
  | 0, s, b => ⟨s, b, .ok ()⟩
  | depth + 1, s, b =>
      match V.visit s b with
      | ⟨s', b', .error e⟩ => ⟨s', b', .error e⟩
      | ⟨s', b', .ok .pass⟩ => ⟨s', b', .ok ()⟩
      | ⟨s', b', .ok .descend⟩ =>
          let w := Walk.overAll (V.walkTo depth) s' b'.children
          ⟨w.state, { b' with children := w.tree }, w.result⟩

/-- The walk over a block and all below it. The budget and the number of
blocks bound how deep it can go. -/
def walk (V : Visitor σ ε) (s : σ) (b : Block) : Walk σ ε Block :=
  V.walkTo (V.budget s + b.count) s b

/-! ## The bound on the depth is never felt -/

/-- A list keeps within its budget if each block of it does. -/
theorem budget_overAll (V : Visitor σ ε) {walk : σ → Block → Walk σ ε Block}
    (h : ∀ s b, V.budget (walk s b).state + (walk s b).tree.count ≤
      V.budget s + b.count) (s : σ) (bs : List Block) :
    V.budget (Walk.overAll walk s bs).state +
        Block.count.go (Walk.overAll walk s bs).tree ≤
      V.budget s + Block.count.go bs := by
  induction bs generalizing s with
  | nil => simp [Walk.overAll]
  | cons b bs ih =>
      have hb := h s b
      rw [Walk.overAll]
      rcases hw : walk s b with ⟨s', b', _ | ⟨⟩⟩ <;> simp only [hw] at hb
      · simp only [Block.count_go_cons] at hb ⊢; omega
      · have := ih s'
        simp only [Block.count_go_cons] at hb ⊢; omega

/-- A walk never raises the budget and the number of blocks taken
together. -/
theorem budget_walkTo (V : Visitor σ ε) (depth : Nat) (s : σ) (b : Block) :
    V.budget (V.walkTo depth s b).state + (V.walkTo depth s b).tree.count ≤
      V.budget s + b.count := by
  induction depth generalizing s b with
  | zero => simp [walkTo]
  | succ depth ih =>
      have hv := V.budget_visit s b
      rw [walkTo]
      rcases hw : V.visit s b with ⟨s', b', _ | _ | _⟩ <;> simp only [hw] at hv
      · exact hv
      · have := V.budget_overAll ih s' b'.children
        simp only [Block.count_eq] at hv ⊢; omega
      · exact hv

/-- Two walks that agree on every block small enough for the budget agree on a
list of such blocks. -/
theorem overAll_congr (V : Visitor σ ε) (size : Nat)
    {f g : σ → Block → Walk σ ε Block}
    (hf : ∀ s b, V.budget (f s b).state + (f s b).tree.count ≤
      V.budget s + b.count)
    (hfg : ∀ s b, V.budget s + b.count ≤ size → f s b = g s b)
    (s : σ) (bs : List Block) (hs : V.budget s + Block.count.go bs ≤ size) :
    Walk.overAll f s bs = Walk.overAll g s bs := by
  induction bs generalizing s with
  | nil => rfl
  | cons b bs ih =>
      rw [Block.count_go_cons] at hs
      have hb := hf s b
      rw [Walk.overAll, Walk.overAll, ← hfg s b (by omega)]
      rcases hw : f s b with ⟨s', b', _ | ⟨⟩⟩
      · rfl
      · rw [hw] at hb
        have := b'.count_pos
        simp only [ih s' (by simp only at hb; omega)]

/-- Any depth that the budget and the number of blocks allow gives the same
walk. -/
theorem walkTo_eq_walk (V : Visitor σ ε) {depth : Nat} {s : σ} {b : Block}
    (h : V.budget s + b.count ≤ depth) : V.walkTo depth s b = V.walk s b := by
  suffices ∀ d e, V.budget s + b.count ≤ d → V.budget s + b.count ≤ e →
      V.walkTo d s b = V.walkTo e s b from this _ _ h (Nat.le_refl _)
  clear h
  intro d
  induction d generalizing s b with
  | zero => intro _ hd; have := b.count_pos; omega
  | succ d ih =>
      intro e hd he
      obtain ⟨e, rfl⟩ : ∃ k, e = k + 1 :=
        ⟨e - 1, by have := b.count_pos; omega⟩
      have hv := V.budget_visit s b
      rw [walkTo, walkTo]
      rcases hw : V.visit s b with ⟨s', b', _ | _ | _⟩ <;> simp only [hw] at hv
      · rfl
      · simp only [Block.count_eq b'] at hv
        have := V.overAll_congr (min d e) (V.budget_walkTo d)
          (fun s b hsb => ih (s := s) (b := b) e (by omega) (by omega))
          s' b'.children (by omega)
        simp only [this]
      · rfl

/-- A walk visits the block; it goes on to the children unless the visit
failed or passed them over. -/
theorem walk_eq (V : Visitor σ ε) (s : σ) (b : Block) :
    V.walk s b =
      match V.visit s b with
      | ⟨s', b', .error e⟩ => ⟨s', b', .error e⟩
      | ⟨s', b', .ok .pass⟩ => ⟨s', b', .ok ()⟩
      | ⟨s', b', .ok .descend⟩ =>
          let w := Walk.overAll V.walk s' b'.children
          ⟨w.state, { b' with children := w.tree }, w.result⟩ := by
  have hv := V.budget_visit s b
  rw [← walkTo_eq_walk V (Nat.le_succ (V.budget s + b.count)), walkTo]
  rcases hw : V.visit s b with ⟨s', b', _ | _ | _⟩ <;> simp only [hw] at hv
  · rfl
  · simp only [Block.count_eq b'] at hv
    have := V.overAll_congr (V.budget s + b.count)
      (V.budget_walkTo (V.budget s + b.count))
      (fun s b hsb => walkTo_eq_walk V hsb)
      s' b'.children (by omega)
    simp only [this]
  · rfl

end Visitor

end CssVendor
