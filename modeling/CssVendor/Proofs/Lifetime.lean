import CssVendor.Proofs.EarlyStop
import Mathlib.Algebra.Ring.Int.Defs

/-!
# The count of a filler over its lifetime

A filler lives through any number of runs over trees and visits to single
blocks. It counts as it goes, block by block, so a run that fails half-way has
already counted what it appended before it failed, and nothing is counted
twice or taken back. One call therefore moves the count by as much as its tree
has grown (`added_call`), failed or not, and a history of calls by the sum of
these growths.

The closing record of a run names the difference between two counts. As the
count never falls, that is a difference without a remainder, and it is what
the tree of this run has gained.
-/

namespace CssVendor

theorem Block.count_eq_length_preorder (b : Block) :
    b.count = b.preorder.length := by
  have hgo : ∀ bs : List Block, (∀ c ∈ bs, c.count = c.preorder.length) →
      count.go bs = (preorder.go bs).length := by
    intro bs h
    induction bs with
    | nil => rfl
    | cons c bs ih =>
        rw [count_go_cons, preorder_go_cons, List.length_append,
          h c (by simp), ih fun d hd => h d (by simp [hd])]
  induction b using Block.inductionOn with
  | h b ih =>
      rw [count_eq, preorder_eq, List.length_cons, hgo _ ih, Nat.add_comm]

theorem Pass.added_le {t t' : Tally} {bs bs' : List Block}
    {r : Except Fault Unit} (h : Pass t bs t' bs' r) : t.added ≤ t'.added := by
  induction h with
  | done => exact Nat.le_refl _
  | expand _ _ _ ih => exact Nat.le_trans (Nat.le_add_right _ _) ih
  | stop _ => exact Nat.le_refl _

theorem Pass.length_eq {t t' : Tally} {bs bs' : List Block}
    {r : Except Fault Unit} (h : Pass t bs t' bs' r) :
    bs'.length = bs.length := by
  induction h with
  | done => rfl
  | expand _ _ _ ih => rw [List.length_cons, List.length_cons, ih]
  | stop _ => rfl

/-- A visit on its own counts what it appends, or nothing if it fails. -/
theorem Tally.added_visit (t : Tally) (b : Block) :
    t.added ≤ (t.visit b).state.added ∧
      (t.visit b).state.added + declarationCount b.preorder =
        t.added + declarationCount (t.visit b).block.preorder := by
  rw [visit]
  cases he : b.expand with
  | error fault => exact ⟨Nat.le_refl _, rfl⟩
  | ok e =>
      refine ⟨Nat.le_add_right _ _, ?_⟩
      have hadded := Block.expand_added he
      have hchildren := (Block.expand_keeps he).2
      simp only [Block.preorder_eq, declarationCount, List.map_cons,
        List.sum_cons, hchildren]
      omega

namespace Filler

/-! ## Calls -/

/-- A use of a filler: a run over a tree, or a visit to one block. -/
inductive Call
  | run (root : Block)
  | visit (block : Block)

/-- The tree that a call is given. -/
def Call.tree : Call → Block
  | .run root => root
  | .visit block => block

/-- The outcome of a call, told as that of a run. -/
def call (f : Filler) : Call → Run Filler
  | .run root => f.run root
  | .visit block =>
      let v := f.visit block
      ⟨f.after v.state, v.block, v.state.records, v.outcome.map fun _ => ()⟩

/-- The filler after some calls, whatever came of them. -/
def afterCalls (f : Filler) (calls : List Call) : Filler :=
  calls.foldl (fun f c => (f.call c).plugin) f

/-- Some calls in a row, each with its outcome. -/
def history (f : Filler) : List Call → List (Call × Run Filler)
  | [] => []
  | c :: calls => (c, f.call c) :: history (f.call c).plugin calls

/-- By how many declarations the tree of a call has grown when the call has
ended. -/
def growth : Call × Run Filler → Int
  | (c, r) =>
      (declarationCount r.tree.preorder : Int) -
        declarationCount c.tree.preorder

/-! ## The count -/

/-- A call moves the count by as much as its tree grows, and never back. -/
theorem added_call (f : Filler) (c : Call) :
    f.added ≤ (f.call c).plugin.added ∧
      ((f.call c).plugin.added : Int) = f.added + growth (c, f.call c) := by
  have hcall : f.added ≤ (f.call c).plugin.added ∧
      (f.call c).plugin.added + declarationCount c.tree.preorder =
        f.added + declarationCount (f.call c).tree.preorder := by
    cases c with
    | run root => exact ⟨(f.pass_run root).added_le, (f.pass_run root).added_add⟩
    | visit block => exact f.start.added_visit block
  refine ⟨hcall.1, ?_⟩
  rw [growth]
  omega

theorem added_afterCalls (f : Filler) (calls : List Call) :
    ((f.afterCalls calls).added : Int) =
      f.added + ((f.history calls).map growth).sum := by
  induction calls generalizing f with
  | nil => simp [afterCalls, history]
  | cons c calls ih =>
      have hrest := ih (f.call c).plugin
      have hcall := (f.added_call c).2
      rw [history, List.map_cons, List.sum_cons]
      rw [afterCalls, List.foldl_cons, ← afterCalls]
      omega

/-- Behind the records of its blocks, a run that comes to its end makes one
more. -/
theorem records_run_of_ok {f : Filler} {root : Block}
    (h : (f.run root).result = .ok ()) :
    (f.run root).records = (Tally.visitor.walk f.start root).state.records ++
      [.debug ("prefixly: " ++ Nat.repr ((f.run root).plugin.added - f.added) ++
        " declarations added across " ++
        Nat.repr (f.run root).tree.preorder.length ++ " blocks")] := by
  have hresult : (Tally.visitor.walk f.start root).result = .ok () := h
  rw [← Block.count_eq_length_preorder]
  simp only [run, hresult, closing, name, String.append_assoc]
  rfl

/-- What a run reports at its end, if it comes to it: its own growth and the
number of blocks. -/
theorem records_run {f : Filler} {root : Block}
    (h : (f.run root).result = .ok ()) :
    ∃ (walked : List Record) (n : Nat),
      (f.run root).records = walked ++
        [.debug ("prefixly: " ++ Nat.repr n ++
          " declarations added across " ++
          Nat.repr (f.run root).tree.preorder.length ++ " blocks")] ∧
      (n : Int) = growth (.run root, f.run root) := by
  refine ⟨_, _, records_run_of_ok h, ?_⟩
  obtain ⟨hle, hadded⟩ := f.added_call (.run root)
  have hle : f.added ≤ (f.run root).plugin.added := hle
  have hadded : ((f.run root).plugin.added : Int) =
      f.added + growth (.run root, f.run root) := hadded
  omega

/-- After any calls on a new filler, failed ones included, the count is the sum
of what the trees have grown by in each of them. No further call lowers it, and
a further run that comes to its end closes with a record of what its own tree
has grown by and of the number of blocks in it. -/
theorem added_is_growth (options : Options) (calls : List Call) :
    let f := (new options).afterCalls calls
    (f.added : Int) = (((new options).history calls).map growth).sum ∧
    (∀ c, f.added ≤ (f.call c).plugin.added) ∧
    ∀ root, (f.run root).result = .ok () →
      ∃ (walked : List Record) (n : Nat),
        (f.run root).records = walked ++
          [.debug ("prefixly: " ++ Nat.repr n ++
            " declarations added across " ++
            Nat.repr (f.run root).tree.preorder.length ++ " blocks")] ∧
        (n : Int) = growth (.run root, f.run root) ∧
        (f.run root).tree.preorder.length = root.preorder.length := by
  intro f
  refine ⟨?_, fun c => (f.added_call c).1, fun root h => ?_⟩
  · have hadded := (new options).added_afterCalls calls
    have hzero : (new options).added = 0 := rfl
    rw [hadded, hzero]
    omega
  · obtain ⟨walked, n, hrecords, hn⟩ := records_run h
    exact ⟨walked, n, hrecords, hn, (f.pass_run root).length_eq⟩

/-- A run that fails behind the first of two rules, a visit to a block, and then
a run that comes to its end. -/
theorem added_is_growth_failed :
    let transform : Block := ⟨.style ["a"], [⟨"transform", "1", false⟩], []⟩
    let calls : List Call :=
      [.run ⟨.root, [],
        [transform, ⟨.style ["b"], [⟨"", "2", false⟩], [transform]⟩]⟩,
        .visit ⟨.style ["c"], [⟨"-o-x", "3", true⟩, ⟨"x", "4", true⟩], []⟩]
    let f := (new .default).afterCalls calls
    let root : Block := ⟨.root, [], [transform]⟩
    ((new .default).history calls).map growth = [4, 3] ∧ (f.added : Int) = 7 ∧
      (f.run root).result = .ok () ∧ ∃ walked, (f.run root).records = walked ++
        [.debug "prefixly: 4 declarations added across 2 blocks"] := by
  intro transform calls f root
  have hgrowth : ((new .default).history calls).map growth = [4, 3] := by
    decide +kernel
  have hresult : (f.run root).result = .ok () := by decide +kernel
  obtain ⟨hadded, -, hrun⟩ := added_is_growth .default calls
  obtain ⟨walked, n, hrecords, hn, hblocks⟩ := hrun root hresult
  have hfour : growth (.run root, f.run root) = 4 := by decide +kernel
  obtain rfl : n = 4 := by
    rw [hfour] at hn
    omega
  have htext : "prefixly: " ++ Nat.repr 4 ++ " declarations added across " ++
      Nat.repr root.preorder.length ++ " blocks" =
      "prefixly: 4 declarations added across 2 blocks" := by decide +kernel
  rw [hblocks, htext] at hrecords
  exact ⟨hgrowth, hadded.trans (by rw [hgrowth]; rfl), hresult, walked, hrecords⟩

end Filler

end CssVendor
