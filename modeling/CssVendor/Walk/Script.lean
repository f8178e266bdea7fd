import CssVendor.Fault
import CssVendor.Walk

/-!
# Scripted walks

A visitor that follows a script written in terms of labels: it keeps a list of
the labels it has seen, fails at some, passes over the children of others, and
grafts prepared blocks onto the blocks they are meant for, each graft once.
The grafts left over are its budget.
-/

namespace CssVendor

/-- A block to be added below the first visited block of a given label. -/
structure Graft where
  label : String
  block : Block
  deriving Repr, Inhabited

namespace Graft

/-- The number of blocks in a list of grafts. -/
def total : List Graft → Nat
  | [] => 0
  | g :: gs => g.block.count + total gs

/-- The first graft for a label, and the others. -/
def take? (label : String) : List Graft → Option (Block × List Graft)
  | [] => none
  | g :: gs =>
      if g.label == label then some (g.block, gs)
      else (take? label gs).map fun (b, rest) => (b, g :: rest)

theorem total_take? {label : String} {gs rest : List Graft} {b : Block}
    (h : take? label gs = some (b, rest)) :
    total rest + b.count = total gs := by
  induction gs generalizing rest with
  | nil => simp [take?] at h
  | cons g gs ih =>
      rw [take?] at h
      split at h
      · cases h; simp only [total]; omega
      · obtain ⟨⟨b', rest'⟩, h', heq⟩ := Option.map_eq_some_iff.1 h
        cases heq
        have := ih h'
        simp only [total]; omega

end Graft

/-- The labels at which a scripted visitor passes children over or fails. -/
structure Script where
  skip : List String
  fail : List String
  deriving Repr, Inhabited

/-- How far a scripted walk has come. -/
structure Script.Progress where
  /-- The labels seen, in order. -/
  seen : List String
  /-- The grafts not used yet. -/
  grafts : List Graft
  deriving Repr, Inhabited

namespace Script

/-- What follows a visit that did not fail. -/
def onward (script : Script) (label : String) : Onward :=
  if script.skip.contains label then .pass else .descend

/-- Notes the label, then fails, or grafts and goes on. -/
def visit (script : Script) (p : Progress) (b : Block) :
    Visit Progress Fault :=
  let seen := p.seen ++ [b.label]
  if script.fail.contains b.label then
    ⟨⟨seen, p.grafts⟩, b, .error (.malformedSheet b.label)⟩
  else
    match Graft.take? b.label p.grafts with
    | none => ⟨⟨seen, p.grafts⟩, b, .ok (script.onward b.label)⟩
    | some (graft, rest) =>
        ⟨⟨seen, rest⟩, { b with children := b.children ++ [graft] },
          .ok (script.onward b.label)⟩

/-- The visitor that follows a script. -/
def visitor (script : Script) : Visitor Progress Fault where
  visit := script.visit
  budget p := Graft.total p.grafts
  budget_visit p b := by
    simp only [visit]
    split
    · exact Nat.le_refl _
    · split
      · exact Nat.le_refl _
      · next graft rest h =>
          have := Graft.total_take? h
          simp only [Block.count_eq b, Block.count_eq { b with children := _ },
            Block.count_go_append, Block.count_go_cons, Block.count_go_nil]
          omega

end Script

end CssVendor
