import CssVendor.Proofs.EarlyStop
import CssVendor.Proofs.Nesting
import CssVendor.Proofs.Pointwise

/-!
# Runs in a row

A run over a tree without unnamed properties expands every block that is no
root, and each block by itself; so a number of runs in a row expands each block
that number of times. As many runs as the most deeply nested name has marks,
and one run at least, therefore complete every block, and a run over complete
blocks changes nothing. The bound is met: a name of `n` marks alone in a block
gives each of the first `n` runs something to append.
-/

namespace CssVendor

namespace Block

/-- Whether a run can pass every block of the tree. -/
def Named (t : Block) : Prop := ∀ b ∈ t.preorder, ¬ b.Unnamed

instance (t : Block) : Decidable t.Named :=
  inferInstanceAs (Decidable (∀ b ∈ t.preorder, _))

/-- The largest number of marks that a declared name bears, roots left
out. -/
def nesting (t : Block) : Nat :=
  (((t.preorder.filter fun b => !b.isRoot).flatMap Block.declarations).map
    fun d => CssVendor.nesting d.name).foldr max 0

/-- Whether `b'` is `b` with, unless it is a root, the names of the least
closed set around those of `b`. -/
structure Closure (b b' : Block) : Prop where
  kind : b'.kind = b.kind
  root : b.isRoot = true → b'.declarations = b.declarations
  names : b.isRoot = false →
    IsLeast {S | declaredNames b.declarations ⊆ S ∧ FormClosed S}
      (declaredNames b'.declarations)

/-- The block after a number of expansions. -/
def filledTimes (k : Nat) (b : Block) : Block :=
  if b.isRoot then b else { b with declarations := fill^[k] b.declarations }

theorem le_foldr_max {n : Nat} {ns : List Nat} (h : n ∈ ns) :
    n ≤ ns.foldr max 0 := by
  induction ns with
  | nil => cases h
  | cons m ns ih =>
      rw [List.foldr_cons]
      rcases List.mem_cons.1 h with rfl | h
      · exact Nat.le_max_left _ _
      · exact Nat.le_trans (ih h) (Nat.le_max_right _ _)

theorem foldr_max_le {m : Nat} {ns : List Nat} (h : ∀ n ∈ ns, n ≤ m) :
    ns.foldr max 0 ≤ m := by
  induction ns with
  | nil => exact Nat.zero_le m
  | cons n ns ih =>
      rw [List.foldr_cons]
      exact Nat.max_le.2
        ⟨h n (by simp), ih fun k hk => h k (List.mem_cons_of_mem n hk)⟩

theorem nesting_le_of_forall {t : Block} {m : Nat}
    (h : ∀ b ∈ t.preorder, b.isRoot = false → ∀ d ∈ b.declarations,
      CssVendor.nesting d.name ≤ m) : t.nesting ≤ m := by
  refine foldr_max_le fun n hn => ?_
  obtain ⟨d, hd, rfl⟩ := List.mem_map.1 hn
  obtain ⟨b, hb, hd⟩ := List.mem_flatMap.1 hd
  obtain ⟨hb, hroot⟩ := List.mem_filter.1 hb
  exact h b hb (by simpa using hroot) d hd

theorem nesting_le {t b : Block} {d : Declaration} (hb : b ∈ t.preorder)
    (hroot : b.isRoot = false) (hd : d ∈ b.declarations) :
    CssVendor.nesting d.name ≤ t.nesting := by
  refine le_foldr_max (List.mem_map_of_mem (List.mem_flatMap.2 ⟨b, ?_, hd⟩))
  exact List.mem_filter.2 ⟨hb, by simp [hroot]⟩

theorem isRoot_eq_of_kind {b b' : Block} (h : b.kind = b'.kind) :
    b.isRoot = b'.isRoot := by
  rw [isRoot, isRoot, h]

theorem named_of_not_unnamed {b : Block} (h : ¬ b.Unnamed)
    (hroot : b.isRoot = false) : ∀ d ∈ b.declarations, d.name ≠ "" :=
  fun d hd hempty => h ⟨hroot, d, hd, hempty⟩

theorem isRoot_filledTimes (k : Nat) (b : Block) :
    (b.filledTimes k).isRoot = b.isRoot := by
  rw [filledTimes]
  split <;> rfl

/-- Passing a block expands it once more. -/
theorem agrees_filledTimes_succ {k : Nat} {b b' b'' : Block}
    (h : (b.filledTimes k).Agrees b') (hnamed : ¬ b'.Unnamed)
    (hfilled : b'.Filled b'') : (b.filledTimes (k + 1)).Agrees b'' := by
  have hroot : b'.isRoot = b.isRoot := by
    rw [← isRoot_eq_of_kind h.kind, isRoot_filledTimes]
  rw [Filled, hroot] at hfilled
  split at hfilled
  · next hb =>
      rw [filledTimes, if_pos hb] at h ⊢
      exact ⟨h.kind.trans hfilled.kind,
        h.declarations.trans hfilled.declarations,
        h.children.trans hfilled.children⟩
  · next hb =>
      obtain ⟨e, he, hagrees⟩ := hfilled
      have hb' : b'.isRoot = false := by simpa [hroot] using hb
      rw [expand_of_named hb' (named_of_not_unnamed hnamed hb')] at he
      cases he
      rw [filledTimes, if_neg hb] at h ⊢
      refine ⟨h.kind.trans hagrees.kind, ?_, h.children.trans hagrees.children⟩
      rw [← hagrees.declarations, ← h.declarations,
        Function.iterate_succ_apply']
      rfl

/-- Passing a block leaves it without unnamed properties. -/
theorem not_unnamed_of_filled {b b' : Block} (hnamed : ¬ b.Unnamed)
    (hfilled : b.Filled b') : ¬ b'.Unnamed := by
  rintro ⟨hroot', d, hd, hempty⟩
  rw [Filled] at hfilled
  split at hfilled
  · next hroot =>
      rw [← isRoot_eq_of_kind hfilled.kind, hroot] at hroot'
      cases hroot'
  · next hroot =>
      obtain ⟨e, he, hagrees⟩ := hfilled
      have hroot : b.isRoot = false := by simpa using hroot
      have hb := named_of_not_unnamed hnamed hroot
      rw [expand_of_named hroot hb] at he
      cases he
      rw [← hagrees.declarations] at hd
      exact fill_named hb d hd hempty

end Block

namespace Filler

/-- The filler and the tree after a number of runs in a row. -/
def runs (f : Filler) (t : Block) : Nat → Filler × Block
  | 0 => (f, t)
  | k + 1 =>
      let r := (f.runs t k).1.run (f.runs t k).2
      (r.plugin, r.tree)

/-- A run over a tree without unnamed properties passes all of it. -/
theorem run_of_named {f : Filler} {t : Block} (h : t.Named) :
    (f.run t).result = .ok () ∧
      List.Forall₂ Block.Filled t.preorder (f.run t).tree.preorder := by
  have hpass := f.pass_run t
  cases hr : (f.run t).result with
  | ok u => exact ⟨rfl, hpass.filled hr⟩
  | error fault =>
      obtain ⟨before, b, after, before', hbs, -, -, -, hb⟩ := hpass.split hr
      exact absurd (Block.unnamed_of_expand hb).1 (h b (by rw [hbs]; simp))

/-- The tally grows by what a run appends. -/
theorem added_runs_succ (f : Filler) (t : Block) (k : Nat) :
    (f.runs t (k + 1)).1.added + declarationCount (f.runs t k).2.preorder =
      (f.runs t k).1.added +
        declarationCount (f.runs t (k + 1)).2.preorder :=
  ((f.runs t k).1.pass_run (f.runs t k).2).added_add

theorem named_runs {f : Filler} {t : Block} (h : t.Named) (k : Nat) :
    (f.runs t k).2.Named := by
  induction k with
  | zero => exact h
  | succ k ih =>
      refine forall₂_mem_right (fun b b' hb hfilled => ?_) (run_of_named ih).2 ih
      exact Block.not_unnamed_of_filled hb hfilled

/-- Runs in a row expand every block as often. -/
theorem agrees_runs {f : Filler} {t : Block} (h : t.Named) (k : Nat) :
    List.Forall₂ (fun b b' => (b.filledTimes k).Agrees b') t.preorder
      (f.runs t k).2.preorder := by
  induction k with
  | zero =>
      refine List.forall₂_same.2 fun b _ => ?_
      rw [Block.filledTimes]
      split
      · exact ⟨rfl, rfl, rfl⟩
      · exact ⟨rfl, rfl, rfl⟩
  | succ k ih =>
      have hk := named_runs (f := f) h k
      refine forall₂_trans (fun b' hb' b b'' hagrees hfilled => ?_) ih
        (run_of_named hk).2
      exact Block.agrees_filledTimes_succ hagrees (hk b' hb') hfilled

/-! ## The runs after which nothing changes -/

theorem settledBelow_runs {t b : Block} (hb : b ∈ t.preorder)
    (hroot : b.isRoot = false) {k : Nat} (hk : max 1 t.nesting ≤ k) :
    SettledBelow 0 (fill^[k] b.declarations) :=
  settledBelow_iterate
    (settledBelow_of_nesting_le fun _ hd => Block.nesting_le hb hroot hd) hk

theorem filledTimes_succ {t b : Block} (hb : b ∈ t.preorder) {k : Nat}
    (hk : max 1 t.nesting ≤ k) : b.filledTimes (k + 1) = b.filledTimes k := by
  rw [Block.filledTimes, Block.filledTimes]
  split
  · rfl
  · next hroot =>
      have hsettled := settledBelow_runs hb (by simpa using hroot) hk
      rw [Function.iterate_succ_apply', fill_of_settledBelow_zero hsettled]

theorem tree_runs_succ {f : Filler} {t : Block} (h : t.Named) {k : Nat}
    (hk : max 1 t.nesting ≤ k) :
    (f.runs t (k + 1)).2 = (f.runs t k).2 := by
  refine (Block.eq_of_agrees (forall₂_join (fun b hb b' b'' hagrees hagrees' => ?_)
    (agrees_runs h k) (agrees_runs h (k + 1)))).symm
  rw [filledTimes_succ hb hk] at hagrees'
  exact ⟨hagrees.kind.symm.trans hagrees'.kind,
    hagrees.declarations.symm.trans hagrees'.declarations,
    hagrees.children.symm.trans hagrees'.children⟩

theorem runs_stable {f : Filler} {t : Block} (h : t.Named) {k : Nat}
    (hk : max 1 t.nesting ≤ k) :
    (f.runs t k).2 = (f.runs t (max 1 t.nesting)).2 ∧
      (f.runs t k).1.added = (f.runs t (max 1 t.nesting)).1.added := by
  induction k, hk using Nat.le_induction with
  | base => exact ⟨rfl, rfl⟩
  | succ k hk ih =>
      have htree := tree_runs_succ (f := f) h hk
      have hadded := added_runs_succ f t k
      rw [htree] at hadded ⊢
      refine ⟨ih.1, ?_⟩
      omega

/-- What the blocks have become by then. -/
theorem closure_runs {f : Filler} {t : Block} (h : t.Named) {k : Nat}
    (hk : max 1 t.nesting ≤ k) :
    List.Forall₂ Block.Closure t.preorder (f.runs t k).2.preorder := by
  refine forall₂_imp (fun b hb b' hagrees => ?_) (agrees_runs h k)
  rw [Block.filledTimes] at hagrees
  split at hagrees
  · next hroot =>
      exact ⟨hagrees.kind.symm, fun _ => hagrees.declarations.symm,
        fun hother => absurd hroot (by simp [hother])⟩
  · next hroot =>
      have hroot : b.isRoot = false := by simpa using hroot
      refine ⟨hagrees.kind.symm, fun hother => absurd hother (by simp [hroot]),
        fun _ => ?_⟩
      rw [← hagrees.declarations]
      exact isLeast_declaredNames (settledBelow_runs hb hroot hk)

/-! ## A block that needs all of them -/

/-- A style rule with one declaration, whose name bears `m` marks. -/
def nestedBlock (m : Nat) : Block :=
  ⟨.style ["a"], [⟨nestedName m, "", false⟩], []⟩

theorem preorder_nestedBlock (m : Nat) :
    (nestedBlock m).preorder = [nestedBlock m] := rfl

theorem named_nestedBlock (m : Nat) : (nestedBlock m).Named := by
  intro b hb
  rw [preorder_nestedBlock, List.mem_singleton] at hb
  subst hb
  rintro ⟨-, d, hd, hempty⟩
  rw [List.mem_singleton.1 hd] at hempty
  exact nestedName_ne_empty m hempty

theorem nesting_nestedBlock (m : Nat) : (nestedBlock m).nesting = m := by
  show max (nesting (nestedName m)) 0 = m
  rw [nesting_nestedName, Nat.max_zero]

theorem nestedFrom_nestedBlock (m : Nat) :
    NestedFrom m (nestedBlock m).declarations := by
  refine ⟨by simp [declares, nestedBlock], fun d hd => ?_⟩
  rw [List.mem_singleton.1 hd, nesting_nestedName]

/-- The declarations of the block after `k` runs. -/
theorem declarationCount_runs_nestedBlock (f : Filler) (m k : Nat) :
    declarationCount (f.runs (nestedBlock m) k).2.preorder =
      (fill^[k] (nestedBlock m).declarations).length := by
  have h := agrees_runs (f := f) (named_nestedBlock m) k
  rw [preorder_nestedBlock] at h
  obtain ⟨b, bs, hagrees, hrest, hbs⟩ := List.forall₂_cons_left_iff.1 h
  rw [List.forall₂_nil_left_iff.1 hrest] at hbs
  rw [hbs]
  show b.declarations.length + 0 = _
  rw [← Block.Agrees.declarations hagrees]
  rfl

theorem added_runs_lt (f : Filler) {m k : Nat} (hk : k < m) :
    (f.runs (nestedBlock m) k).1.added <
      (f.runs (nestedBlock m) (k + 1)).1.added := by
  -- Each run takes one mark off the least marked name.
  have hnested : NestedFrom (m - k - 1 + 1)
      (fill^[k] (nestedBlock m).declarations) := by
    refine nestedFrom_iterate ?_
    rw [show m - k - 1 + 1 + k = m by omega]
    exact nestedFrom_nestedBlock m
  have hmissing := List.length_pos_of_ne_nil
    (missingForms_ne_nil_of_nestedFrom hnested)
  have hadded := added_runs_succ f (nestedBlock m) k
  have hcount := declarationCount_runs_nestedBlock f m k
  have hcount' := declarationCount_runs_nestedBlock f m (k + 1)
  rw [Function.iterate_succ_apply', fill, List.length_append] at hcount'
  omega

/-- Runs over a tree without unnamed properties go through. As many as the most
deeply nested name has marks, and one at least, make of each block the least
closure of its names, and from there on nothing changes; fewer are not enough
in general. -/
theorem runs_reach_least_closure :
    (∀ (f : Filler) (t : Block), t.Named →
      (∀ k, ((f.runs t k).1.run (f.runs t k).2).result = .ok ()) ∧
      (∀ k, max 1 t.nesting ≤ k →
        (f.runs t k).2 = (f.runs t (max 1 t.nesting)).2 ∧
          (f.runs t k).1.added = (f.runs t (max 1 t.nesting)).1.added) ∧
      ((∀ b ∈ t.preorder, b.isRoot = false →
        ∀ c ∈ canonicalNames b.declarations, nesting c = 0) →
        t.nesting ≤ 1 ∧ (f.runs t 2).2 = (f.runs t 1).2) ∧
      List.Forall₂ Block.Closure t.preorder
        (f.runs t (max 1 t.nesting)).2.preorder) ∧
    ∀ m, 1 ≤ m → ∃ b : Block, b.isRoot = false ∧ b.children = [] ∧ b.Named ∧
      b.nesting = m ∧ ∀ (f : Filler) (k : Nat), k < m →
        (f.runs b k).1.added < (f.runs b (k + 1)).1.added := by
  refine ⟨fun f t h => ⟨fun k => (run_of_named (named_runs h k)).1,
    fun k hk => runs_stable h hk, fun hcanonical => ?_,
    closure_runs h (Nat.le_refl _)⟩, fun m _ => ?_⟩
  · have hle : t.nesting ≤ 1 := Block.nesting_le_of_forall fun b hb hroot =>
      nesting_le_one (hcanonical b hb hroot)
    exact ⟨hle, tree_runs_succ h (Nat.max_le.2 ⟨Nat.le_refl 1, hle⟩)⟩
  · exact ⟨nestedBlock m, rfl, rfl, named_nestedBlock m, nesting_nestedBlock m,
      fun f _ hk => added_runs_lt f hk⟩

/-- Two runs for a name of two marks, one run for a name of one. -/
theorem runs_reach_least_closure_nested :
    let t : Block := ⟨.root, [⟨"", "0", false⟩],
      [⟨.style ["a"], [⟨"-webkit--moz-x", "1", true⟩], []⟩]⟩
    let u : Block := ⟨.style ["b"], [⟨"-moz-x", "2", false⟩], []⟩
    t.Named ∧ t.nesting = 2 ∧ u.Named ∧ u.nesting ≤ 1 ∧ ∀ f : Filler,
      (f.runs t 3).2 = (f.runs t 2).2 ∧
        List.Forall₂ Block.Closure t.preorder (f.runs t 2).2.preorder ∧
          (f.runs u 2).2 = (f.runs u 1).2 := by
  intro t u
  have ht : t.Named := by decide +kernel
  have hu : u.Named := by decide +kernel
  have hnesting : t.nesting = 2 := by decide +kernel
  have hcanonical : ∀ b ∈ u.preorder, b.isRoot = false →
      ∀ c ∈ canonicalNames b.declarations, nesting c = 0 := by decide +kernel
  have hu₁ : u.nesting ≤ 1 := by decide +kernel
  refine ⟨ht, hnesting, hu, hu₁, fun f => ?_⟩
  obtain ⟨-, hstable, -, hclosure⟩ := runs_reach_least_closure.1 f t ht
  obtain ⟨-, -, hidempotent, -⟩ := runs_reach_least_closure.1 f u hu
  rw [hnesting] at hstable hclosure
  exact ⟨(hstable 3 (by decide)).1, hclosure, (hidempotent hcanonical).2⟩

end Filler

end CssVendor
