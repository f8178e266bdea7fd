import CssVendor.Proofs.RepeatedRun

/-!
# Payloads are opaque

What a declaration carries besides its name, its value and its importance, is
copied and never looked at. So changing all payloads of a tree in the same way
and running the filler can be done in either order: the run ends alike, counts
alike and leaves the same tree. In particular two trees that differ in nothing
but payloads get the same names, and no payload turns up in a block that was
not there before.

The argument follows the layers of an expansion. Which names are canonical,
which declaration opens a name and which forms are declared is a matter of
names. Hence what is missing after the change is what was missing, changed;
hence so is an expanded block, and a pass over changed blocks is the changed
pass. Only the records tell the two apart, as they show the values.
-/

namespace CssVendor

/-! ## One change to all payloads -/

namespace Declaration

/-- What the declaration carries besides its name. -/
def carried (d : Declaration) : String × Bool := (d.value, d.important)

/-- The declaration with another payload, made from its own. -/
def recast (g : String × Bool → String × Bool) (d : Declaration) :
    Declaration :=
  ⟨d.name, (g d.carried).1, (g d.carried).2⟩

variable {g : String × Bool → String × Bool}

@[simp] theorem name_recast (d : Declaration) : (d.recast g).name = d.name :=
  rfl

theorem carried_rename (d : Declaration) (n : String) :
    (d.rename n).carried = d.carried := rfl

end Declaration

variable (g : String × Bool → String × Bool)

/-! ## What is missing -/

section

variable (ds : List Declaration)

theorem declares_recast (n : String) :
    declares (ds.map (Declaration.recast g)) n = declares ds n := by
  rw [declares, List.any_map]
  rfl

theorem canonicalNames_recast :
    canonicalNames (ds.map (Declaration.recast g)) = canonicalNames ds := by
  rw [canonicalNames, List.foldl_map]
  rfl

theorem find?_opens_recast (c : String) :
    (ds.map (Declaration.recast g)).find? (Declaration.opens c) =
      (ds.find? (Declaration.opens c)).map (Declaration.recast g) := by
  rw [List.find?_map]
  rfl

theorem completion_recast (c : String) :
    completion (ds.map (Declaration.recast g)) c =
      (completion ds c).map (Declaration.recast g) := by
  rw [completion, completion, find?_opens_recast]
  simp only [declares_recast]
  cases ds.find? (Declaration.opens c) with
  | none => rfl
  | some first =>
      rw [List.map_map]
      rfl

theorem missingForms_recast :
    missingForms (ds.map (Declaration.recast g)) =
      (missingForms ds).map (Declaration.recast g) := by
  rw [missingForms_eq, missingForms_eq, canonicalNames_recast, List.map_flatMap]
  exact List.flatMap_congr fun c _ => completion_recast g ds c

end

/-! ## Blocks -/

namespace Block

/-- The tree with the payload of every declaration changed that does not stand
in a root. -/
def recast : Block → Block
  | ⟨kind, declarations, children⟩ =>
      ⟨kind,
        if kind = .root then declarations
        else declarations.map (Declaration.recast g),
        go children⟩
where
  go : List Block → List Block
    | [] => []
    | c :: cs => recast c :: go cs

theorem isRoot_iff {b : Block} : b.isRoot = true ↔ b.kind = .root := by
  rw [isRoot]
  cases b.kind <;> simp

theorem recast_go_eq (bs : List Block) :
    recast.go g bs = bs.map (recast g) := by
  induction bs with
  | nil => rfl
  | cons b bs ih => rw [List.map_cons, ← ih]; rfl

theorem recast_eq (b : Block) :
    b.recast g =
      ⟨b.kind,
        if b.isRoot then b.declarations
        else b.declarations.map (Declaration.recast g),
        b.children.map (recast g)⟩ := by
  obtain ⟨kind, declarations, children⟩ := b
  simp only [isRoot_iff, recast, recast_go_eq]

theorem kind_recast (b : Block) : (b.recast g).kind = b.kind := by
  rw [recast_eq]

theorem children_recast (b : Block) :
    (b.recast g).children = b.children.map (recast g) := by
  rw [recast_eq]

theorem declarations_recast {b : Block} (hroot : b.isRoot = false) :
    (b.recast g).declarations = b.declarations.map (Declaration.recast g) := by
  rw [recast_eq, if_neg (by simp [hroot])]

theorem isRoot_recast (b : Block) : (b.recast g).isRoot = b.isRoot :=
  isRoot_eq_of_kind (b.kind_recast g)

theorem preorder_recast (b : Block) :
    (b.recast g).preorder = b.preorder.map (recast g) := by
  induction b using inductionOn with
  | h b ih =>
      have hgo : ∀ bs : List Block, (∀ c ∈ bs,
          (c.recast g).preorder = c.preorder.map (recast g)) →
          preorder.go (bs.map (recast g)) =
            (preorder.go bs).map (recast g) := by
        intro bs h
        induction bs with
        | nil => rfl
        | cons c bs ih =>
            rw [List.map_cons, preorder_go_cons, preorder_go_cons,
              List.map_append, h c (by simp), ih fun d hd => h d (by simp [hd])]
      rw [preorder_eq, preorder_eq, List.map_cons, children_recast, hgo _ ih]

/-- Blocks that agree apart from what their children are do so after the
change. -/
theorem Agrees.recast {b b' : Block} (h : b.Agrees b') :
    (b.recast g).Agrees (b'.recast g) := by
  have hroot := isRoot_eq_of_kind h.kind
  rw [recast_eq, recast_eq, hroot]
  refine ⟨h.kind, ?_, ?_⟩
  · simp only [h.declarations]
  · rw [List.length_map, List.length_map, h.children]

theorem unnamed_recast {b : Block} : (b.recast g).Unnamed ↔ b.Unnamed := by
  rw [Unnamed, Unnamed, isRoot_recast]
  refine and_congr_right fun hroot => ?_
  rw [declarations_recast g hroot]
  simp

/-- A changed block fails as the block does, in the same place. -/
theorem expand_recast_of_error {b : Block} {fault : Fault}
    (h : b.expand = .error fault) : (b.recast g).expand = .error fault := by
  rw [expand] at h ⊢
  rw [isRoot_recast]
  split at h
  · cases h
  · next hroot =>
      have hunnamed : (b.recast g).unnamed? = b.unnamed? := by
        rw [unnamed?, declarations_recast g (by simpa using hroot),
          List.findIdx?_map]
        rfl
      have hlabel : (b.recast g).label = b.label := by
        rw [label, kind_recast, label]
      rw [if_neg hroot, hunnamed, hlabel]
      split at h
      · exact h
      · cases h

/-- A changed block becomes what the block becomes, changed. -/
theorem expand_recast_of_ok {b : Block} {e : Expansion}
    (h : b.expand = .ok e) :
    ∃ e', (b.recast g).expand = .ok e' ∧ e'.block = e.block.recast g := by
  cases hroot : b.isRoot with
  | true =>
      rw [expand_of_root hroot] at h
      cases h
      exact ⟨_, expand_of_root ((b.isRoot_recast g).trans hroot), rfl⟩
  | false =>
      have hroot' := (b.isRoot_recast g).trans hroot
      have hnamed := named_of_not_unnamed (not_unnamed_of_expand h) hroot
      have hnamed' := named_of_not_unnamed
        (mt (unnamed_recast g).1 (not_unnamed_of_expand h)) hroot'
      rw [expand_of_named hroot hnamed] at h
      cases h
      refine ⟨_, expand_of_named hroot' hnamed', ?_⟩
      have hfilled : ({ b with declarations :=
          b.declarations ++ missingForms b.declarations } : Block).isRoot =
          false := hroot
      rw [recast_eq g { b with declarations := _ }, hfilled,
        declarations_recast g hroot, missingForms_recast, kind_recast,
        children_recast, if_neg (by simp), List.map_append]

end Block

/-! ## Runs -/

/-- A pass over changed blocks is the changed pass. -/
theorem Pass.recast {t t' : Tally} {bs bs' : List Block} {r : Except Fault Unit}
    (h : Pass t bs t' bs' r) (u : Tally) :
    ∃ u', Pass u (bs.map (Block.recast g)) u' (bs'.map (Block.recast g)) r := by
  induction h generalizing u with
  | done => exact ⟨u, .done⟩
  | expand he hagrees _ ih =>
      obtain ⟨e', he', hblock⟩ := Block.expand_recast_of_ok g he
      obtain ⟨u', hrest⟩ := ih ⟨u.added + e'.added, u.records ++ e'.records⟩
      refine ⟨u', .expand he' ?_ hrest⟩
      rw [hblock]
      exact hagrees.recast g
  | stop hfault => exact ⟨u, .stop (Block.expand_recast_of_error g hfault)⟩

theorem declarationCount_recast (bs : List Block) :
    declarationCount (bs.map (Block.recast g)) = declarationCount bs := by
  rw [declarationCount, declarationCount, List.map_map]
  refine congrArg List.sum (List.map_congr_left fun b _ => ?_)
  rw [Function.comp_apply, Block.recast_eq]
  simp only []
  split
  · rfl
  · rw [List.length_map]

namespace Filler

/-- What a run comes to for a changed tree. -/
theorem run_recast (f : Filler) (t : Block) :
    (f.run (t.recast g)).result = (f.run t).result ∧
      (f.run (t.recast g)).tree = (f.run t).tree.recast g ∧
      (f.run (t.recast g)).plugin = (f.run t).plugin := by
  have hpass := f.pass_run t
  have hpass' := f.pass_run (t.recast g)
  obtain ⟨u, hrecast⟩ := hpass.recast g f.start
  rw [← Block.preorder_recast, ← Block.preorder_recast] at hrecast
  obtain ⟨hresult, hagrees⟩ := hpass'.agrees hrecast
  have htree : (f.run (t.recast g)).tree = (f.run t).tree.recast g :=
    Block.eq_of_agrees hagrees
  refine ⟨hresult, htree, ?_⟩
  have hadded := hpass.added_add
  have hadded' := hpass'.added_add
  rw [htree, Block.preorder_recast, Block.preorder_recast,
    declarationCount_recast, declarationCount_recast] at hadded'
  have hsame : (Tally.visitor.walk f.start (t.recast g)).state.added =
      (Tally.visitor.walk f.start t).state.added := by omega
  exact congrArg (fun n => { f with added := n }) hsame

theorem runs_recast (f : Filler) (t : Block) (k : Nat) :
    f.runs (t.recast g) k = ((f.runs t k).1, (f.runs t k).2.recast g) := by
  induction k with
  | zero => rfl
  | succ k ih =>
      obtain ⟨-, htree, hplugin⟩ := run_recast g (f.runs t k).1 (f.runs t k).2
      rw [runs, ih, runs]
      simp only [htree, hplugin]

end Filler

/-! ## Where payloads come from -/

/-- Whether every payload in a block is one of another block. -/
def Block.Inherits (b b' : Block) : Prop :=
  ∀ d' ∈ b'.declarations, ∃ d ∈ b.declarations, d'.carried = d.carried

theorem Block.Inherits.refl (b : Block) : b.Inherits b :=
  fun d hd => ⟨d, hd, rfl⟩

theorem Block.Inherits.trans {b b' b'' : Block} (h : b.Inherits b')
    (h' : b'.Inherits b'') : b.Inherits b'' := by
  intro d'' hd''
  obtain ⟨d', hd', hcarried'⟩ := h' d'' hd''
  obtain ⟨d, hd, hcarried⟩ := h d' hd'
  exact ⟨d, hd, hcarried'.trans hcarried⟩

theorem Block.inherits_of_expand {b b' : Block} {e : Expansion}
    (h : b.expand = .ok e) (hagrees : e.block.Agrees b') : b.Inherits b' := by
  intro d' hd'
  rw [← hagrees.declarations] at hd'
  cases hroot : b.isRoot with
  | true =>
      rw [expand_of_root hroot] at h
      cases h
      exact ⟨d', hd', rfl⟩
  | false =>
      rw [expand_of_named hroot
        (named_of_not_unnamed (not_unnamed_of_expand h) hroot)] at h
      cases h
      rcases List.mem_append.1 hd' with hold | hnew
      · exact ⟨d', hold, rfl⟩
      · obtain ⟨d, hd, -, -, n, -, rfl⟩ := exists_of_mem_missingForms hnew
        exact ⟨d, hd, d.carried_rename n⟩

theorem Pass.inherits {t t' : Tally} {bs bs' : List Block}
    {r : Except Fault Unit} (h : Pass t bs t' bs' r) :
    List.Forall₂ Block.Inherits bs bs' := by
  induction h with
  | done => exact .nil
  | expand he hagrees _ ih =>
      exact .cons (Block.inherits_of_expand he hagrees) ih
  | stop _ => exact List.forall₂_same.2 fun b _ => .refl b

namespace Filler

theorem inherits_runs (f : Filler) (t : Block) (k : Nat) :
    List.Forall₂ Block.Inherits t.preorder (f.runs t k).2.preorder := by
  induction k with
  | zero => exact List.forall₂_same.2 fun b _ => .refl b
  | succ k ih =>
      exact forall₂_trans (fun b' _ b b'' h h' => h.trans h') ih
        ((f.runs t k).1.pass_run (f.runs t k).2).inherits

end Filler

/-- The tree without the payloads that do not stand in a root: what blocks there
are, and what names are declared in them. -/
def Block.nameTree (t : Block) : Block := t.recast fun _ => ("", false)

namespace Filler

/-- Payloads are opaque. Whatever change is made to all payloads of a tree that
do not stand in roots, a run over the changed tree ends as the run over the tree
does, leaves the filler as that leaves it, and leaves the tree that that leaves,
with the same change made to it; and so do any number of runs in a row, failed
ones included. So runs over two trees in which the same names are declared end
alike, count alike and leave trees in which the same names are declared. And
each payload in a block, after any number of runs, is one that the block had
before them. -/
theorem payloads_opaque (f : Filler) (t : Block) :
    (∀ g, (f.run (t.recast g)).result = (f.run t).result ∧
      (f.run (t.recast g)).plugin = (f.run t).plugin ∧
      (f.run (t.recast g)).tree = (f.run t).tree.recast g) ∧
    (∀ g k, f.runs (t.recast g) k =
      ((f.runs t k).1, (f.runs t k).2.recast g)) ∧
    (∀ u : Block, u.nameTree = t.nameTree →
      (f.run u).result = (f.run t).result ∧
      (f.run u).plugin = (f.run t).plugin ∧
      (f.run u).tree.nameTree = (f.run t).tree.nameTree) ∧
    ∀ k, List.Forall₂ Block.Inherits t.preorder (f.runs t k).2.preorder := by
  have hrun : ∀ g u, (f.run (u.recast g)).result = (f.run u).result ∧
      (f.run (u.recast g)).plugin = (f.run u).plugin ∧
      (f.run (u.recast g)).tree = (f.run u).tree.recast g := by
    intro g u
    obtain ⟨hresult, htree, hplugin⟩ := f.run_recast g u
    exact ⟨hresult, hplugin, htree⟩
  refine ⟨fun g => hrun g t, fun g => f.runs_recast g t, fun u hu => ?_,
    f.inherits_runs t⟩
  -- Both runs are compared with that over the tree of names.
  obtain ⟨hresult, hplugin, htree⟩ := hrun (fun _ => ("", false)) u
  obtain ⟨hresult', hplugin', htree'⟩ := hrun (fun _ => ("", false)) t
  rw [← Block.nameTree] at hresult hplugin htree hresult' hplugin' htree'
  rw [hu] at hresult hplugin htree
  exact ⟨hresult.symm.trans hresult', hplugin.symm.trans hplugin',
    htree.symm.trans htree'⟩

/-- A change that marks every value and turns every importance, on a tree with a
root that has a form to fill in and a run that is stopped at the second rule. -/
theorem payloads_opaque_stopped :
    let t : Block := ⟨.root, [⟨"-o-x", "0", false⟩],
      [⟨.style ["a"], [⟨"-moz-x", "1", true⟩, ⟨"x", "2", false⟩], []⟩,
        ⟨.style ["b"], [⟨"", "3", false⟩, ⟨"-ms-y", "4", true⟩], []⟩]⟩
    let g : String × Bool → String × Bool := fun p => (p.1 ++ "?", !p.2)
    (t.recast g).nameTree = t.nameTree ∧ ∀ f : Filler,
      (f.run (t.recast g)).result = .error (.unnamedProperty "b" 0) ∧
      (f.run (t.recast g)).plugin = (f.run t).plugin ∧
      (f.run (t.recast g)).tree = (f.run t).tree.recast g ∧
      (f.run (t.recast g)).tree.nameTree = (f.run t).tree.nameTree ∧
      List.Forall₂ Block.Inherits t.preorder (f.runs t 2).2.preorder := by
  intro t g
  have hnames : (t.recast g).nameTree = t.nameTree := rfl
  refine ⟨hnames, fun f => ?_⟩
  obtain ⟨hchange, -, hsame, hinherits⟩ := payloads_opaque f t
  obtain ⟨hresult, hplugin, htree⟩ := hchange g
  have hstopped : ((new .default).run t).result =
      .error (.unnamedProperty "b" 0) := by decide +kernel
  exact ⟨hresult.trans ((run_eq f _ t).1.trans hstopped), hplugin, htree,
    (hsame (t.recast g) hnames).2.2, hinherits 2⟩

end Filler

end CssVendor
