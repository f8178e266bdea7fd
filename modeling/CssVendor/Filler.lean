import CssVendor.Expand
import CssVendor.Options
import CssVendor.Walk

/-!
# Filling in a tree

The filler walks over a tree and expands every block but the roots. It counts
the declarations it has appended over its whole life, failed runs included.
-/

namespace CssVendor

/-- What a walk of the filler has done so far. -/
structure Tally where
  /-- The number of declarations appended. -/
  added : Nat
  records : List Record
  deriving Repr, Inhabited

namespace Tally

/-- Expands one block. A block that cannot be expanded ends the walk. -/
def visit (t : Tally) (b : Block) : Visit Tally Fault :=
  match b.expand with
  | .error fault => ⟨t, b, .error fault⟩
  | .ok e =>
      ⟨⟨t.added + e.added, t.records ++ e.records⟩, e.block, .ok .descend⟩

/-- Expanding a block keeps the blocks below it. -/
theorem count_visit (t : Tally) (b : Block) :
    (t.visit b).block.count = b.count := by
  rw [visit]
  split
  · rfl
  · next e h =>
      rw [Block.expand] at h
      split at h
      · cases h; rfl
      · split at h
        · cases h
        · cases h; simp [Block.count_eq]

/-- The visitor that expands blocks. -/
def visitor : Visitor Tally Fault where
  visit := visit
  budget _ := 0
  budget_visit t b := by simp [count_visit]

end Tally

/-- The outcome of one run of a plugin: the plugin afterwards, the tree as the
run left it, what was reported, and whether the run came to its end. -/
structure Run (α : Type) where
  plugin : α
  tree : Block
  records : List Record
  result : Except Fault Unit

/-- The plugin that fills in missing forms. -/
structure Filler where
  options : Options
  /-- The number of declarations appended so far. -/
  added : Nat
  deriving Inhabited

namespace Filler

/-- A filler that has not run yet. -/
def new (options : Options) : Filler := ⟨options, 0⟩

/-- The filler's name. -/
def name : String := "prefixly"

/-- What a walk of the filler starts from. -/
def start (f : Filler) : Tally := ⟨f.added, []⟩

/-- The filler after a walk or a visit. -/
def after (f : Filler) (t : Tally) : Filler := { f with added := t.added }

/-- One visit on its own, outside a walk. -/
def visit (f : Filler) (b : Block) : Visit Tally Fault := f.start.visit b

/-- The closing record of a run that came to its end. -/
def closing (appended : Nat) (tree : Block) : Record :=
  .debug (name ++ ": " ++ Nat.repr appended ++ " declarations added across " ++
    Nat.repr tree.count ++ " blocks")

/-- One walk over a tree. -/
def run (f : Filler) (root : Block) : Run Filler :=
  let w := Tally.visitor.walk f.start root
  let closed := match w.result with
    | .error _ => []
    | .ok () => [closing (w.state.added - f.added) w.tree]
  ⟨f.after w.state, w.tree, w.state.records ++ closed,
    w.result⟩

end Filler

end CssVendor
