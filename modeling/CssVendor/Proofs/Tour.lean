import CssVendor.Walk

/-!
# What happens on a walk

A walk is bounded by a depth so that it is a function at all, and
`Visitor.walkTo_eq_walk` says that the bound is never felt. `Visitor.Tour` says
what is left without it: one rule for each thing that can happen to the first
of the blocks still to be walked. It is written over a list of blocks, as the
children of a block are walked one after another and a visit may have added to
them.

Every walk is a tour. Each rule leaves fewer blocks to walk, counting those
that the visitor may still add, and this is the induction of `tour_overAll`. A
property of walks is then an induction over tours, in which no bound occurs.
-/

namespace CssVendor

namespace Visitor

variable {σ ε : Type}

/-- Walking a list of blocks: `V.Tour s bs w` says that from the state `s` the
walk over `bs` comes to `w`. -/
inductive Tour (V : Visitor σ ε) :
    σ → List Block → Walk σ ε (List Block) → Prop
  | done {s : σ} : Tour V s [] ⟨s, [], .ok ()⟩
  /-- The visit fails. -/
  | stop {s s' : σ} {b b' : Block} {bs : List Block} {e : ε}
      (hvisit : V.visit s b = ⟨s', b', .error e⟩) :
      Tour V s (b :: bs) ⟨s', b' :: bs, .error e⟩
  /-- The visit passes over the children. -/
  | pass {s s' : σ} {b b' : Block} {bs : List Block} {w : Walk σ ε (List Block)}
      (hvisit : V.visit s b = ⟨s', b', .ok .pass⟩) (hrest : Tour V s' bs w) :
      Tour V s (b :: bs) ⟨w.state, b' :: w.tree, w.result⟩
  /-- The children, as the visit left them, are walked to the end. -/
  | descend {s s' : σ} {b b' : Block} {bs : List Block}
      {below w : Walk σ ε (List Block)}
      (hvisit : V.visit s b = ⟨s', b', .ok .descend⟩)
      (hbelow : Tour V s' b'.children below) (hok : below.result = .ok ())
      (hrest : Tour V below.state bs w) :
      Tour V s (b :: bs)
        ⟨w.state, { b' with children := below.tree } :: w.tree, w.result⟩
  /-- The walk over the children fails. -/
  | stopBelow {s s' : σ} {b b' : Block} {bs : List Block} {e : ε}
      {below : Walk σ ε (List Block)}
      (hvisit : V.visit s b = ⟨s', b', .ok .descend⟩)
      (hbelow : Tour V s' b'.children below)
      (herror : below.result = .error e) :
      Tour V s (b :: bs)
        ⟨below.state, { b' with children := below.tree } :: bs, .error e⟩

/-- A walk over a list never raises the budget and the number of blocks taken
together. -/
theorem budget_overAll_walk (V : Visitor σ ε) (s : σ) (bs : List Block) :
    V.budget (Walk.overAll V.walk s bs).state +
        Block.count.go (Walk.overAll V.walk s bs).tree ≤
      V.budget s + Block.count.go bs :=
  V.budget_overAll (fun s b => V.budget_walkTo _ s b) s bs

/-- Every walk over a list is a tour. -/
theorem tour_overAll (V : Visitor σ ε) (s : σ) (bs : List Block) :
    V.Tour s bs (Walk.overAll V.walk s bs) := by
  induction hsize : V.budget s + Block.count.go bs using Nat.strongRecOn
    generalizing s bs with
  | ind size ih =>
      cases bs with
      | nil => exact .done
      | cons b bs =>
          have hcount := b.count_pos
          have hbudget := V.budget_visit s b
          rw [Block.count_go_cons] at hsize
          rw [Walk.overAll, walk_eq]
          rcases hvisit : V.visit s b with ⟨s', b', e | _ | _⟩ <;>
            simp only [hvisit] at hbudget
          · exact .stop hvisit
          · rw [Block.count_eq b'] at hbudget
            have hbelow := ih _ (by omega) s' b'.children rfl
            have hspent := V.budget_overAll_walk s' b'.children
            rcases hw : Walk.overAll V.walk s' b'.children with
              ⟨s'', cs, e | ⟨⟩⟩ <;> simp only [hw] at hbelow hspent ⊢
            · exact .stopBelow hvisit hbelow rfl
            · exact .descend hvisit hbelow rfl (ih _ (by omega) s'' bs rfl)
          · have hleft := b'.count_pos
            exact .pass hvisit (ih _ (by omega) s' bs rfl)

/-- Every walk over a tree is a tour. -/
theorem tour_walk (V : Visitor σ ε) (s : σ) (b : Block) :
    V.Tour s [b]
      ⟨(V.walk s b).state, [(V.walk s b).tree], (V.walk s b).result⟩ := by
  have h := V.tour_overAll s [b]
  rw [Walk.overAll] at h
  rcases hw : V.walk s b with ⟨s', b', e | ⟨⟩⟩ <;> rw [hw] at h <;> exact h

end Visitor

end CssVendor
