import CssVendor.Proofs.Pass

/-!
# Where a run stops, and what it leaves behind

A run ends early exactly if some block that is no root has a declaration
without a name. The first such block of the tree, parents first, is the one
that is reported. Whatever comes before it has been expanded by then, as if
each block had been expanded alone, and it and whatever comes after it are as
they were: the expansion of one block is all or nothing, and the pass never
goes back.
-/

namespace CssVendor

namespace Block

/-- The blocks that cannot be expanded. -/
def Unnamed (b : Block) : Prop :=
  b.isRoot = false ∧ ∃ d ∈ b.declarations, d.name = ""

instance (b : Block) : Decidable b.Unnamed :=
  inferInstanceAs (Decidable (_ ∧ _))

/-- What a run makes of a block that it passes: roots are kept, and any other
block becomes what expanding it alone makes of it. -/
def Filled (b b' : Block) : Prop :=
  if b.isRoot then b.Agrees b'
  else ∃ e, b.expand = .ok e ∧ e.block.Agrees b'

/-- What a block is and how many blocks it holds. -/
def outline (b : Block) : BlockKind × Nat := (b.kind, b.children.length)

theorem expand_of_root {b : Block} (hroot : b.isRoot = true) :
    b.expand = .ok ⟨b, 0, []⟩ := by
  rw [expand, if_pos hroot]

theorem not_unnamed_of_expand {b : Block} {e : Expansion}
    (h : b.expand = .ok e) : ¬ b.Unnamed := by
  rintro ⟨hroot, d, hd, hempty⟩
  rw [expand, if_neg (by simp [hroot])] at h
  cases hunnamed : b.unnamed? with
  | some index => rw [hunnamed] at h; cases h
  | none =>
      rw [unnamed?, List.findIdx?_eq_none_iff] at hunnamed
      exact absurd hempty (by simpa using hunnamed d hd)

/-- A block that cannot be expanded is reported with its label and the first of
its declarations that has no name. -/
theorem unnamed_of_expand {b : Block} {fault : Fault}
    (h : b.expand = .error fault) :
    b.Unnamed ∧ ∃ i, fault = .unnamedProperty b.label i ∧
      (b.declarations[i]?).map Declaration.name = some "" ∧
      ∀ d ∈ b.declarations.take i, d.name ≠ "" := by
  rw [expand] at h
  split at h
  · cases h
  · next hroot =>
      split at h
      · next i hi =>
          cases h
          rw [unnamed?, List.findIdx?_eq_some_iff_getElem] at hi
          obtain ⟨hlt, hempty, hbefore⟩ := hi
          rw [beq_iff_eq] at hempty
          refine ⟨⟨by simpa using hroot, _, List.getElem_mem hlt, hempty⟩, i,
            rfl, ?_, ?_⟩
          · rw [List.getElem?_eq_getElem hlt, Option.map_some, hempty]
          · intro d hd
            obtain ⟨j, hj, rfl⟩ := List.mem_iff_getElem.1 hd
            rw [List.length_take] at hj
            rw [List.getElem_take]
            simpa using hbefore j (by omega)
      · cases h

theorem filled_of_expand {b b' : Block} {e : Expansion} (he : b.expand = .ok e)
    (hagrees : e.block.Agrees b') : b.Filled b' := by
  rw [Filled]
  split
  · next hroot =>
      rw [expand_of_root hroot] at he
      cases he
      exact hagrees
  · exact ⟨e, he, hagrees⟩

theorem outline_of_filled {b b' : Block} (h : b.Filled b') :
    b'.outline = b.outline := by
  rw [Filled] at h
  split at h
  · rw [outline, outline, h.kind, h.children]
  · obtain ⟨e, he, hagrees⟩ := h
    obtain ⟨hkind, hchildren⟩ := expand_keeps he
    rw [outline, outline, ← hagrees.kind, ← hagrees.children, hkind, hchildren]

theorem outlines_of_filled {bs bs' : List Block}
    (h : List.Forall₂ Filled bs bs') :
    bs'.map outline = bs.map outline := by
  induction h with
  | nil => rfl
  | cons hb _ ih => rw [List.map_cons, List.map_cons, outline_of_filled hb, ih]

end Block

namespace Pass

theorem filled {t t' : Tally} {bs bs' : List Block} {r : Except Fault Unit}
    (h : Pass t bs t' bs' r) (hr : r = .ok ()) :
    List.Forall₂ Block.Filled bs bs' := by
  induction h with
  | done => exact .nil
  | expand he hagrees _ ih =>
      exact .cons (Block.filled_of_expand he hagrees) (ih hr)
  | stop hfault => cases hr

theorem not_unnamed {t t' : Tally} {bs bs' : List Block}
    {r : Except Fault Unit} (h : Pass t bs t' bs' r) (hr : r = .ok ()) :
    ∀ b ∈ bs, ¬ b.Unnamed := by
  induction h with
  | done => intro b hb; cases hb
  | expand he _ _ ih =>
      intro b hb
      rcases List.mem_cons.1 hb with rfl | hb
      · exact Block.not_unnamed_of_expand he
      · exact ih hr b hb
  | stop hfault => cases hr

/-- A stopped pass splits at the block that stopped it. -/
theorem split {t t' : Tally} {bs bs' : List Block} {r : Except Fault Unit}
    {fault : Fault} (h : Pass t bs t' bs' r) (hr : r = .error fault) :
    ∃ before b after before',
      bs = before ++ b :: after ∧ bs' = before' ++ b :: after ∧
      (∀ c ∈ before, ¬ c.Unnamed) ∧ List.Forall₂ Block.Filled before before' ∧
      b.expand = .error fault := by
  induction h with
  | done => cases hr
  | expand he hagrees _ ih =>
      obtain ⟨before, b, after, before', rfl, rfl, hnamed, hfilled, hb⟩ := ih hr
      refine ⟨_ :: before, b, after, _ :: before', rfl, rfl, ?_,
        .cons (Block.filled_of_expand he hagrees) hfilled, hb⟩
      intro c hc
      rcases List.mem_cons.1 hc with rfl | hc
      · exact Block.not_unnamed_of_expand he
      · exact hnamed c hc
  | stop hfault =>
      cases hr
      exact ⟨[], _, _, [], rfl, rfl, by simp, .nil, hfault⟩

end Pass

/-- What a run does to a block at most: declarations are appended. -/
structure Block.Extends (b b' : Block) : Prop where
  kind : b'.kind = b.kind
  declarations : b.declarations <+: b'.declarations

theorem Block.extends_of_expand {b b' : Block} {e : Expansion}
    (h : b.expand = .ok e) (hagrees : e.block.Agrees b') : b.Extends b' := by
  refine ⟨hagrees.kind.symm.trans (Block.expand_keeps h).1, ?_⟩
  rw [← hagrees.declarations]
  rw [Block.expand] at h
  split at h
  · cases h
    exact List.prefix_refl _
  · split at h
    · cases h
    · cases h
      exact List.prefix_append ..

/-- A pass appends to blocks, whether or not it comes to its end. -/
theorem Pass.extends {t t' : Tally} {bs bs' : List Block}
    {r : Except Fault Unit} (h : Pass t bs t' bs' r) :
    List.Forall₂ Block.Extends bs bs' := by
  induction h with
  | done => exact .nil
  | expand he hagrees _ ih =>
      exact .cons (Block.extends_of_expand he hagrees) ih
  | stop hfault =>
      exact List.forall₂_same.2 fun _ _ => ⟨rfl, List.prefix_refl _⟩

namespace Filler

theorem pass_run (f : Filler) (t : Block) :
    Pass f.start t.preorder (Tally.visitor.walk f.start t).state
      (f.run t).tree.preorder (f.run t).result :=
  pass_walk f.start t

/-- What a run comes to does not depend on the filler. -/
theorem run_eq (f g : Filler) (t : Block) :
    (f.run t).result = (g.run t).result ∧ (f.run t).tree = (g.run t).tree := by
  obtain ⟨hresult, hagrees⟩ := (f.pass_run t).agrees (g.pass_run t)
  exact ⟨hresult, Block.eq_of_agrees hagrees⟩

/-- A run keeps the kinds, the number and the order of blocks. If all blocks
but the roots have named properties only, it succeeds, and every block has
become what expanding it alone makes of it. Otherwise it reports the first
block with an unnamed property and the first such property in it; the blocks
before it have been expanded, and from that block on all are as before. -/
theorem run_stops_at_first_unnamed (f : Filler) (t : Block) :
    (f.run t).tree.preorder.map Block.outline =
      t.preorder.map Block.outline ∧
    ((∀ b ∈ t.preorder, ¬ b.Unnamed) →
      (f.run t).result = .ok () ∧
      List.Forall₂ Block.Filled t.preorder (f.run t).tree.preorder) ∧
    ((∃ b ∈ t.preorder, b.Unnamed) →
      ∃ before b after before' i,
        t.preorder = before ++ b :: after ∧
        (∀ c ∈ before, ¬ c.Unnamed) ∧ b.Unnamed ∧
        (b.declarations[i]?).map Declaration.name = some "" ∧
        (∀ d ∈ b.declarations.take i, d.name ≠ "") ∧
        (f.run t).result = .error (.unnamedProperty b.label i) ∧
        (f.run t).tree.preorder = before' ++ b :: after ∧
        List.Forall₂ Block.Filled before before') := by
  have hpass := f.pass_run t
  cases hr : (f.run t).result with
  | ok u =>
      have hfilled := hpass.filled hr
      refine ⟨Block.outlines_of_filled hfilled, fun _ => ⟨rfl, hfilled⟩, ?_⟩
      rintro ⟨b, hb, hunnamed⟩
      exact absurd hunnamed (hpass.not_unnamed hr b hb)
  | error fault =>
      obtain ⟨before, b, after, before', hbs, hbs', hnamed, hfilled, hb⟩ :=
        hpass.split hr
      obtain ⟨hunnamed, i, hfault, hi, hbefore⟩ := Block.unnamed_of_expand hb
      refine ⟨?_, ?_, ?_⟩
      · rw [hbs, hbs', List.map_append, List.map_append,
          Block.outlines_of_filled hfilled]
      · intro hall
        exact absurd hunnamed (hall b (by rw [hbs]; simp))
      · rintro -
        exact ⟨before, b, after, before', i, hbs, hnamed, hunnamed, hi,
          hbefore, by rw [hfault], hbs', hfilled⟩

/-- An unnamed property of a root does not count, one of a rule between two
others stops the run. -/
theorem run_stops_at_first_unnamed_between :
    let t : Block := ⟨.root, [⟨"", "1", false⟩],
      [⟨.style ["a"], [⟨"transform", "2", false⟩], []⟩,
        ⟨.style ["b"], [⟨"x", "3", false⟩, ⟨"", "4", true⟩], []⟩,
        ⟨.style ["c"], [⟨"transform", "5", false⟩], []⟩]⟩
    (∃ b ∈ t.preorder, b.Unnamed) ∧ ∀ f : Filler, ∃ b ∈ t.preorder, ∃ i,
      (f.run t).result = .error (.unnamedProperty b.label i) := by
  intro t
  have hunnamed : ∃ b ∈ t.preorder, b.Unnamed :=
    ⟨⟨.style ["b"], [⟨"x", "3", false⟩, ⟨"", "4", true⟩], []⟩,
      by simp [t, Block.preorder_eq],
      rfl, ⟨"", "4", true⟩, by simp, rfl⟩
  refine ⟨hunnamed, fun f => ?_⟩
  obtain ⟨before, b, after, before', i, hbs, -, -, -, -, hresult, -, -⟩ :=
    (run_stops_at_first_unnamed f t).2.2 hunnamed
  exact ⟨b, by rw [hbs]; simp, i, hresult⟩

end Filler

end CssVendor
