import CssVendor.Walk.Script
import Mathlib.Algebra.GroupWithZero.Nat
import Mathlib.Data.List.TakeWhile

/-!
# Routes through a tree

A block of a tree is named by its position, the list of places to go down from
the root, and parents first is the lexicographic order of positions. The route
of a walk that never fails takes in every block but those below a block whose
children are passed over. A failure cuts the route off: `Script.passed` is the
part before it and `Script.stop?` the block at which it happens.

Which grafts have been used is known from the route too. The labels passed draw
on the grafts one after another, and each takes the first that is meant for
it.
-/

namespace CssVendor

/-! ## Positions in a tree -/

namespace Block

/-- The block at a position of the tree. -/
def at? (b : Block) : List Nat → Option Block
  | [] => some b
  | i :: pos => b.children[i]?.bind fun c => c.at? pos

/-- The block at a position of a list of trees. -/
def atIn? (bs : List Block) : List Nat → Option Block
  | [] => none
  | i :: pos => bs[i]?.bind fun b => b.at? pos

/-- Whether a position is `pos` or comes after it, parents first. -/
def NotBefore (later pos : List Nat) : Prop :=
  later = pos ∨ List.Lex (· < ·) pos later

/-- A block of a tree, seen from where the tree is the child in place `i`. -/
def under (i : Nat) (v : List Nat × Block) : List Nat × Block :=
  (i :: v.1, v.2)

/-- The blocks of a tree with their positions, each before those nested in it,
where nothing nested in a block of a label of `skip` counts. -/
def visits (skip : List String) : Block → List (List Nat × Block)
  | ⟨kind, declarations, children⟩ =>
      ([], ⟨kind, declarations, children⟩) ::
        if skip.contains kind.label then [] else go 0 children
where
  go : Nat → List Block → List (List Nat × Block)
    | _, [] => []
    | i, c :: cs =>
        (visits skip c).map (under i) ++ go (i + 1) cs

theorem notBefore_cons {k : Nat} {pos later : List Nat}
    (h : NotBefore later (k :: pos)) :
    ∃ j below, later = j :: below ∧ (k < j ∨ k = j ∧ NotBefore below pos) := by
  rcases h with rfl | hlex
  · exact ⟨k, pos, rfl, Or.inr ⟨rfl, Or.inl rfl⟩⟩
  · cases hlex with
    | rel hlt => exact ⟨_, _, rfl, Or.inl hlt⟩
    | cons hlex => exact ⟨_, _, rfl, Or.inr ⟨rfl, Or.inr hlex⟩⟩

theorem NotBefore.cons {pos later : List Nat} (h : NotBefore later pos)
    (i : Nat) : NotBefore (i :: later) (i :: pos) := by
  rcases h with rfl | hlex
  · exact Or.inl rfl
  · exact Or.inr (.cons hlex)

/-- What comes after a child other than the first is in or after a child that
is not the first. -/
theorem notBefore_succ {k : Nat} {pos later : List Nat}
    (h : NotBefore later ((k + 1) :: pos)) :
    ∃ j below, later = (j + 1) :: below ∧
      NotBefore (j :: below) (k :: pos) := by
  rcases h with rfl | hlex
  · exact ⟨k, pos, rfl, Or.inl rfl⟩
  · cases hlex with
    | @rel _ j _ below hlt =>
        obtain ⟨j, rfl⟩ := Nat.exists_eq_add_one_of_ne_zero
          (Nat.ne_of_gt (Nat.lt_of_le_of_lt (Nat.zero_le _) hlt))
        exact ⟨j, below, rfl, Or.inr (.rel (Nat.lt_of_succ_lt_succ hlt))⟩
    | cons hlex => exact ⟨k, _, rfl, Or.inr (.cons hlex)⟩

theorem visits_eq (skip : List String) (b : Block) :
    b.visits skip =
      ([], b) ::
        if skip.contains b.label then [] else visits.go skip 0 b.children := by
  cases b
  rfl

theorem exists_visits_go_cons (skip : List String) (i : Nat) (c : Block)
    (cs : List Block) :
    ∃ vs, visits.go skip i (c :: cs) = ([i], c) :: vs := by
  rw [visits.go, visits_eq]
  exact ⟨_, rfl⟩

/-- A block whose children are passed over is followed by its siblings. -/
theorem visits_go_of_skip {skip : List String} {c : Block} (i : Nat)
    (cs : List Block) (h : skip.contains c.label = true) :
    visits.go skip i (c :: cs) = ([i], c) :: visits.go skip (i + 1) cs := by
  rw [visits.go, visits_eq, if_pos h]
  rfl

theorem visits_go_of_not_skip {skip : List String} {c : Block} (i : Nat)
    (cs : List Block) (h : ¬ skip.contains c.label = true) :
    visits.go skip i (c :: cs) =
      ([i], c) :: ((visits.go skip 0 c.children).map (under i) ++
        visits.go skip (i + 1) cs) := by
  rw [visits.go, visits_eq, if_neg h]
  rfl

/-- The labels of blocks, their positions forgotten. -/
def labels (vs : List (List Nat × Block)) : List String :=
  vs.map fun v => v.2.label

@[simp] theorem labels_nil : labels [] = [] := rfl

@[simp] theorem labels_cons (v : List Nat × Block)
    (vs : List (List Nat × Block)) :
    labels (v :: vs) = v.2.label :: labels vs := rfl

@[simp] theorem labels_append (us vs : List (List Nat × Block)) :
    labels (us ++ vs) = labels us ++ labels vs :=
  List.map_append

@[simp] theorem labels_map_under (i : Nat) (vs : List (List Nat × Block)) :
    labels (vs.map (under i)) = labels vs := by
  rw [labels, List.map_map]
  rfl

theorem count_go_eq_sum (bs : List Block) :
    count.go bs = (bs.map count).sum := by
  induction bs with
  | nil => rfl
  | cons b bs ih => rw [count_go_cons, ih, List.map_cons, List.sum_cons]

end Block

/-! ## Grafts in the order of labels -/

namespace Graft

/-- What is grafted onto a block of a label, one block at most, and the grafts
that remain. -/
def draw (label : String) (gs : List Graft) : List Block × List Graft :=
  match take? label gs with
  | none => ([], gs)
  | some (b, rest) => ([b], rest)

theorem draw_eq_of_take? {label : String} {gs rest : List Graft} {b : Block}
    (h : take? label gs = some (b, rest)) : draw label gs = ([b], rest) := by
  rw [draw, h]

/-- What is grafted onto blocks of the given labels, one after another, and
the grafts that remain. -/
def drawAll : List String → List Graft → List Block × List Graft
  | [], gs => ([], gs)
  | label :: labels, gs =>
      let (bs, rest) := draw label gs
      let (cs, rest) := drawAll labels rest
      (bs ++ cs, rest)

/-- No block is lost or made by drawing. -/
theorem total_draw (label : String) (gs : List Graft) :
    total (draw label gs).2 + Block.count.go (draw label gs).1 = total gs := by
  rw [draw]
  split
  · rfl
  · next htake =>
      simpa only [Block.count_go_cons, Block.count_go_nil, Nat.add_zero]
        using total_take? htake

theorem total_drawAll (ls : List String) (gs : List Graft) :
    total (drawAll ls gs).2 + Block.count.go (drawAll ls gs).1 = total gs := by
  induction ls generalizing gs with
  | nil => rfl
  | cons l ls ih =>
      have hdraw := total_draw l gs
      have hrest := ih (draw l gs).2
      simp only [drawAll, Block.count_go_append]
      omega

theorem drawAll_append (ls ms : List String) (gs : List Graft) :
    drawAll (ls ++ ms) gs =
      ((drawAll ls gs).1 ++ (drawAll ms (drawAll ls gs).2).1,
        (drawAll ms (drawAll ls gs).2).2) := by
  induction ls generalizing gs with
  | nil => rfl
  | cons l ls ih => simp only [List.cons_append, drawAll, ih, List.append_assoc]

end Graft

namespace Script

/-! ## The part of a route before the first failure -/

/-- Whether a visit to the block fails. -/
def failsAt (script : Script) (b : Block) : Bool :=
  script.fail.contains b.label

/-- The blocks before the first at which a visit fails. -/
def passed (script : Script) (vs : List (List Nat × Block)) :
    List (List Nat × Block) :=
  vs.takeWhile fun v => !script.failsAt v.2

/-- The first block at which a visit fails. -/
def stop? (script : Script) (vs : List (List Nat × Block)) :
    Option (List Nat × Block) :=
  vs.find? fun v => script.failsAt v.2

section

variable {script : Script} {q : List Nat} {b : Block}
  {v : List Nat × Block} {us vs : List (List Nat × Block)}

theorem passed_cons (h : script.failsAt b = false) :
    script.passed ((q, b) :: vs) = (q, b) :: script.passed vs := by
  rw [passed, List.takeWhile_cons_of_pos (by simp [h])]
  rfl

theorem stop?_cons (h : script.failsAt b = false) :
    script.stop? ((q, b) :: vs) = script.stop? vs :=
  List.find?_cons_of_neg (by simp [h])

theorem passed_of_failsAt (h : script.failsAt b = true) :
    script.passed ((q, b) :: vs) = [] :=
  List.takeWhile_cons_of_neg (by simp [h])

theorem stop?_of_failsAt (h : script.failsAt b = true) :
    script.stop? ((q, b) :: vs) = some (q, b) :=
  List.find?_cons_of_pos h

theorem stop?_append (us vs : List (List Nat × Block)) :
    script.stop? (us ++ vs) = (script.stop? us).or (script.stop? vs) :=
  List.find?_append

theorem passed_eq_self (h : script.stop? us = none) :
    script.passed us = us := by
  rw [stop?, List.find?_eq_none] at h
  exact List.takeWhile_eq_self_iff.2 fun v hv => by simpa using h v hv

theorem passed_append (h : script.stop? us = none) :
    script.passed (us ++ vs) = us ++ script.passed vs := by
  rw [stop?, List.find?_eq_none] at h
  exact List.takeWhile_append_of_pos fun v hv => by simpa using h v hv

theorem passed_append_of_stop (h : script.stop? us = some v)
    (vs : List (List Nat × Block)) :
    script.passed (us ++ vs) = script.passed us := by
  rw [passed, List.takeWhile_append, if_neg]
  · rfl
  · intro hlength
    have hall := List.takeWhile_eq_self_iff.1
      ((List.takeWhile_prefix _).eq_of_length hlength)
    have hfails := List.find?_some h
    have := hall v (List.mem_of_find?_eq_some h)
    simp [hfails] at this

theorem stop?_map_under (i : Nat) :
    script.stop? (us.map (Block.under i)) =
      (script.stop? us).map (Block.under i) := by
  rw [stop?, List.find?_map]
  rfl

theorem passed_map_under (i : Nat) :
    script.passed (us.map (Block.under i)) =
      (script.passed us).map (Block.under i) := by
  rw [passed, List.takeWhile_map]
  rfl

end

/-- What is grafted in the course of a walk and what remains, for the blocks
that it came to. -/
def drawn (script : Script) (vs : List (List Nat × Block))
    (grafts : List Graft) : List Block × List Graft :=
  Graft.drawAll (Block.labels (script.passed vs)) grafts

theorem drawn_cons {script : Script} {q : List Nat} {b : Block}
    (h : script.failsAt b = false) (vs : List (List Nat × Block))
    (gs : List Graft) :
    (script.drawn ((q, b) :: vs) gs).1 =
      (Graft.draw b.label gs).1 ++
        (script.drawn vs (Graft.draw b.label gs).2).1 := by
  rw [drawn, passed_cons h]
  rfl

theorem drawn_append {script : Script} {us : List (List Nat × Block)}
    (h : script.stop? us = none) (vs : List (List Nat × Block))
    (gs : List Graft) :
    (script.drawn (us ++ vs) gs).1 =
      (script.drawn us gs).1 ++ (script.drawn vs (script.drawn us gs).2).1 := by
  rw [drawn, drawn, drawn, passed_append h, passed_eq_self h,
    Block.labels_append, Graft.drawAll_append]

theorem drawn_map_under (script : Script) (us : List (List Nat × Block))
    (i : Nat) (gs : List Graft) :
    script.drawn (us.map (Block.under i)) gs = script.drawn us gs := by
  rw [drawn, drawn, passed_map_under, Block.labels_map_under]

/-- How a walk ends that came to the given blocks. -/
def outcome (script : Script) (vs : List (List Nat × Block)) :
    Except Fault Unit :=
  match script.stop? vs with
  | none => .ok ()
  | some v => .error (.malformedSheet v.2.label)

end Script

end CssVendor
