import CssVendor.Proofs.Route
import CssVendor.Proofs.Tour

/-!
# Where a scripted walk goes

A scripted visitor grafts blocks below the very block it visits, so the walk
goes through a tree that grows as it is walked. Afterwards the route can be
read off the tree alone: it is the route through the final tree, up to the
first block of a label to fail at.

A graft is added behind its siblings and does not disturb their positions. So
what the walk has not come to when it fails is compared position by position:
what was there before is there still, and anything else belongs to a graft.
-/

namespace CssVendor

namespace Script

/-! ## One visit -/

theorem of_visit_error {script : Script} {p p' : Progress} {b b' : Block}
    {e : Fault} (h : script.visitor.visit p b = ⟨p', b', .error e⟩) :
    script.failsAt b = true ∧
      p' = ⟨p.seen ++ [b.label], p.grafts⟩ ∧ b' = b ∧
      e = .malformedSheet b.label := by
  rw [show script.visitor.visit p b = script.visit p b from rfl, visit] at h
  split at h
  · next hfail =>
      cases h
      exact ⟨hfail, rfl, rfl, rfl⟩
  · split at h <;> cases h

/-- A visit that does not fail leaves the label, and adds to the children at
most. -/
theorem of_visit_ok {script : Script} {p p' : Progress} {b b' : Block}
    {o : Onward} (h : script.visitor.visit p b = ⟨p', b', .ok o⟩) :
    script.failsAt b' = false ∧
      p' = ⟨p.seen ++ [b'.label], (Graft.draw b'.label p.grafts).2⟩ ∧
      b'.children = b.children ++ (Graft.draw b'.label p.grafts).1 ∧
      o = script.onward b'.label := by
  rw [show script.visitor.visit p b = script.visit p b from rfl, visit] at h
  split at h
  · cases h
  · next hfail =>
      rw [Bool.not_eq_true] at hfail
      split at h <;> cases h <;> rename_i htake
      · refine ⟨hfail, ?_, ?_, rfl⟩ <;> rw [Graft.draw, htake]
        exact (List.append_nil _).symm
      · have hdraw := Graft.draw_eq_of_take? htake
        exact ⟨hfail, congrArg _ (congrArg Prod.snd hdraw).symm,
          congrArg _ (congrArg Prod.fst hdraw).symm, rfl⟩

theorem skip_of_pass {script : Script} {label : String}
    (h : .pass = script.onward label) : script.skip.contains label = true := by
  rw [onward] at h
  split at h
  · assumption
  · cases h

theorem not_skip_of_descend {script : Script} {label : String}
    (h : .descend = script.onward label) :
    ¬ script.skip.contains label = true := by
  rw [onward] at h
  split at h
  · cases h
  · assumption

/-! ## The route of a walk -/

/-- What a walk from `p` to `p'` has done, if `vs` are the blocks that it would
come to without failing. -/
structure Follows (script : Script) (p : Progress)
    (vs : List (List Nat × Block)) (p' : Progress) (r : Except Fault Unit) :
    Prop where
  seen : p'.seen =
    p.seen ++ Block.labels (script.passed vs ++ (script.stop? vs).toList)
  grafts : p'.grafts = (script.drawn vs p.grafts).2
  result : r = script.outcome vs

namespace Follows

variable {script : Script} {p p' p'' : Progress} {q : List Nat} {b : Block}
  {us vs : List (List Nat × Block)} {r : Except Fault Unit} {e : Fault}

theorem stop?_eq_none (h : script.Follows p us p' (.ok ())) :
    script.stop? us = none := by
  have hresult := h.result
  rw [outcome] at hresult
  split at hresult
  · next hstop => exact hstop
  · cases hresult

theorem exists_stop? (h : script.Follows p us p' (.error e)) :
    ∃ v, script.stop? us = some v := by
  have hresult := h.result
  rw [outcome] at hresult
  split at hresult
  · cases hresult
  · next v hstop => exact ⟨v, hstop⟩

theorem nil : script.Follows p [] p (.ok ()) :=
  ⟨(List.append_nil p.seen).symm, rfl, rfl⟩

/-- A visit that fails is the last. -/
theorem stop (hfail : script.failsAt b = true) :
    script.Follows p ((q, b) :: vs) ⟨p.seen ++ [b.label], p.grafts⟩
      (.error (.malformedSheet b.label)) := by
  refine ⟨?_, ?_, ?_⟩
  · rw [passed_of_failsAt hfail, stop?_of_failsAt hfail]
    rfl
  · rw [drawn, passed_of_failsAt hfail]
    rfl
  · rw [outcome, stop?_of_failsAt hfail]

/-- A visit that does not fail comes before all others. -/
theorem cons (hfail : script.failsAt b = false)
    (h : script.Follows
      ⟨p.seen ++ [b.label], (Graft.draw b.label p.grafts).2⟩ vs p' r) :
    script.Follows p ((q, b) :: vs) p' r := by
  refine ⟨?_, ?_, ?_⟩
  · rw [h.seen, passed_cons hfail, stop?_cons hfail, List.cons_append,
      Block.labels_cons, List.append_assoc]
    rfl
  · rw [h.grafts, drawn, drawn, passed_cons hfail]
    rfl
  · rw [h.result, outcome, outcome, stop?_cons hfail]

theorem append (h : script.Follows p us p' (.ok ()))
    (h' : script.Follows p' vs p'' r) : script.Follows p (us ++ vs) p'' r := by
  have hstop := h.stop?_eq_none
  have hseen := h.seen
  have hgrafts := h.grafts
  rw [hstop, passed_eq_self hstop, Option.toList_none, List.append_nil] at hseen
  rw [drawn, passed_eq_self hstop] at hgrafts
  refine ⟨?_, ?_, ?_⟩
  · rw [h'.seen, hseen, passed_append hstop, stop?_append, hstop,
      Option.none_or, List.append_assoc us, Block.labels_append us,
      List.append_assoc]
  · rw [h'.grafts, hgrafts, drawn, drawn, passed_append hstop,
      Block.labels_append, Graft.drawAll_append]
  · rw [h'.result, outcome, outcome, stop?_append, hstop, Option.none_or]

/-- Nothing is come to after a failure. -/
theorem append_of_error (h : script.Follows p us p' (.error e))
    (vs : List (List Nat × Block)) :
    script.Follows p (us ++ vs) p' (.error e) := by
  obtain ⟨v, hstop⟩ := h.exists_stop?
  have hpassed := passed_append_of_stop hstop vs
  have hfirst : script.stop? (us ++ vs) = script.stop? us := by
    rw [stop?_append, hstop, Option.some_or]
  refine ⟨?_, ?_, ?_⟩
  · rw [h.seen, hpassed, hfirst]
  · rw [h.grafts, drawn, drawn, hpassed]
  · rw [h.result, outcome, outcome, hfirst]

/-- Where the blocks stand does not matter. -/
theorem map_under_iff (i : Nat) :
    script.Follows p (us.map (Block.under i)) p' r ↔
      script.Follows p us p' r := by
  have hlabels : Block.labels (script.passed (us.map (Block.under i)) ++
        (script.stop? (us.map (Block.under i))).toList) =
      Block.labels (script.passed us ++ (script.stop? us).toList) := by
    rw [passed_map_under, stop?_map_under]
    cases script.stop? us <;> simp [Block.under]
  have houtcome : script.outcome (us.map (Block.under i)) =
      script.outcome us := by
    rw [outcome, outcome, stop?_map_under]
    cases script.stop? us <;> rfl
  constructor
  · intro h
    exact ⟨hlabels ▸ h.seen, drawn_map_under script us i _ ▸ h.grafts,
      houtcome ▸ h.result⟩
  · intro h
    exact ⟨hlabels ▸ h.seen, (drawn_map_under script us i _).symm ▸ h.grafts,
      houtcome ▸ h.result⟩

end Follows

/-- Every scripted walk has come to the first blocks of the trees that it
leaves, up to one at which a visit fails. -/
theorem follows_of_tour {script : Script} {p : Progress} {bs : List Block}
    {w : Walk Progress Fault (List Block)}
    (h : script.visitor.Tour p bs w) (i : Nat) :
    script.Follows p (Block.visits.go script.skip i w.tree) w.state
      w.result := by
  induction h generalizing i with
  | done => exact .nil
  | stop hvisit =>
      obtain ⟨hfail, rfl, rfl, rfl⟩ := of_visit_error hvisit
      obtain ⟨vs, hvs⟩ := Block.exists_visits_go_cons script.skip i _ _
      rw [hvs]
      exact .stop hfail
  | pass hvisit hrest ih =>
      obtain ⟨hfail, rfl, hchildren, honward⟩ := of_visit_ok hvisit
      rw [Block.visits_go_of_skip i _ (skip_of_pass honward)]
      exact .cons hfail (ih (i + 1))
  | descend hvisit hbelow hok hrest ihbelow ih =>
      obtain ⟨hfail, rfl, hchildren, honward⟩ := of_visit_ok hvisit
      rw [hok] at ihbelow
      have hbelow := (Follows.map_under_iff i).2 (ihbelow 0)
      rw [Block.visits_go_of_not_skip]
      · exact .cons hfail (hbelow.append (ih (i + 1)))
      · exact not_skip_of_descend honward
  | stopBelow hvisit hbelow herror ih =>
      obtain ⟨hfail, rfl, hchildren, honward⟩ := of_visit_ok hvisit
      rw [herror] at ih
      have hbelow := (Follows.map_under_iff i).2 (ih 0)
      rw [Block.visits_go_of_not_skip]
      · exact .cons hfail (hbelow.append_of_error _)
      · exact not_skip_of_descend honward

/-! ## Blocks and grafts are kept -/

theorem total_add_count_of_visit {script : Script} {p p' : Progress}
    {b b' : Block} {o : Except Fault Onward}
    (h : script.visitor.visit p b = ⟨p', b', o⟩) :
    Graft.total p'.grafts + b'.count = Graft.total p.grafts + b.count := by
  cases o with
  | error e =>
      obtain ⟨-, rfl, rfl, -⟩ := of_visit_error h
      rfl
  | ok o =>
      obtain ⟨-, rfl, hchildren, -⟩ := of_visit_ok h
      have hdraw := Graft.total_draw b'.label p.grafts
      rw [Block.count_eq b', hchildren, Block.count_go_append, Block.count_eq b]
      simp only
      omega

/-- A scripted walk keeps the blocks of the trees and of the grafts left, taken
together. -/
theorem total_add_count_of_tour {script : Script} {p : Progress}
    {bs : List Block} {w : Walk Progress Fault (List Block)}
    (h : script.visitor.Tour p bs w) :
    Graft.total w.state.grafts + Block.count.go w.tree =
      Graft.total p.grafts + Block.count.go bs := by
  induction h with
  | done => rfl
  | stop hvisit =>
      have hkept := total_add_count_of_visit hvisit
      simp only [Block.count_go_cons]
      omega
  | pass hvisit hrest ih =>
      have hkept := total_add_count_of_visit hvisit
      simp only [Block.count_go_cons]
      omega
  | @descend _ _ _ b' _ below w hvisit hbelow hok hrest ihbelow ih =>
      have hkept := total_add_count_of_visit hvisit
      rw [Block.count_eq b'] at hkept
      simp only [Block.count_go_cons, Block.count_eq { b' with children := _ }]
      omega
  | @stopBelow _ _ _ b' _ _ below hvisit hbelow herror ih =>
      have hkept := total_add_count_of_visit hvisit
      rw [Block.count_eq b'] at hkept
      simp only [Block.count_go_cons, Block.count_eq { b' with children := _ }]
      omega

/-! ## After a failure -/

/-- What `old` has at a position, `new` has there too; what is there in `new`
alone belongs to a grafted block and is as it was in it. -/
structure Unchanged (old new grafted : List Block) (pos : List Nat) : Prop where
  kept : ∀ b, Block.atIn? old pos = some b → Block.atIn? new pos = some b
  added : Block.atIn? old pos = none → ∀ b, Block.atIn? new pos = some b →
    ∃ g ∈ grafted, ∃ below, below <:+ pos.tail ∧ g.at? below = some b

namespace Unchanged

variable {old new new' grafted grafted' : List Block} {pos : List Nat}

theorem rfl : Unchanged old old grafted pos := by
  refine ⟨fun b hb => hb, fun hnone b hb => ?_⟩
  rw [hnone] at hb
  cases hb

theorem trans (h : Unchanged old new grafted pos)
    (h' : Unchanged new new' grafted' pos) :
    Unchanged old new' (grafted ++ grafted') pos := by
  refine ⟨fun b hb => h'.kept b (h.kept b hb), fun hnone b hb => ?_⟩
  cases hnew : Block.atIn? new pos with
  | none =>
      obtain ⟨g, hg, hbelow⟩ := h'.added hnew b hb
      exact ⟨g, List.mem_append_right _ hg, hbelow⟩
  | some c =>
      obtain rfl : c = b := Option.some.inj ((h'.kept c hnew).symm.trans hb)
      obtain ⟨g, hg, hbelow⟩ := h.added hnone c hnew
      exact ⟨g, List.mem_append_left _ hg, hbelow⟩

theorem mono (h : Unchanged old new grafted pos) (hsub : grafted ⊆ grafted') :
    Unchanged old new grafted' pos := by
  refine ⟨h.kept, fun hnone b hb => ?_⟩
  obtain ⟨g, hg, hbelow⟩ := h.added hnone b hb
  exact ⟨g, hsub hg, hbelow⟩

/-- Blocks added behind others are the only change. -/
theorem append (old grafted : List Block) (i : Nat) (pos : List Nat) :
    Unchanged old (old ++ grafted) grafted (i :: pos) := by
  rcases Nat.lt_or_ge i old.length with hi | hi
  · have hsame : Block.atIn? (old ++ grafted) (i :: pos) =
        Block.atIn? old (i :: pos) := by
      rw [Block.atIn?, Block.atIn?, List.getElem?_append_left hi]
    refine ⟨fun b hb => hsame.trans hb, fun hnone b hb => ?_⟩
    rw [hsame, hnone] at hb
    cases hb
  · refine ⟨fun b hb => ?_, fun _ b hb => ?_⟩
    · rw [Block.atIn?, List.getElem?_eq_none hi] at hb
      cases hb
    · rw [Block.atIn?, List.getElem?_append_right hi] at hb
      obtain ⟨g, hg, hb⟩ := Option.bind_eq_some_iff.1 hb
      exact ⟨g, List.mem_of_getElem? hg, pos, List.suffix_rfl, hb⟩

theorem cons_succ (b b' : Block) {j : Nat}
    (h : Unchanged old new grafted (j :: pos)) :
    Unchanged (b :: old) (b' :: new) grafted ((j + 1) :: pos) :=
  ⟨h.kept, h.added⟩

theorem cons_zero {b b' : Block} (bs bs' : List Block) {j : Nat}
    (h : Unchanged b.children b'.children grafted (j :: pos)) :
    Unchanged (b :: bs) (b' :: bs') grafted (0 :: j :: pos) := by
  refine ⟨h.kept, fun hnone c hc => ?_⟩
  obtain ⟨g, hg, below, hbelow, hat⟩ := h.added hnone c hc
  exact ⟨g, hg, below, hbelow.trans (List.suffix_cons j pos), hat⟩

end Unchanged

/-- From the first block of `vs` at which a visit fails, nothing has changed
from `bs` to `bs'`. The blocks of `vs` stand in place `i` and after. -/
def Intact (script : Script) (bs bs' : List Block) (gs : List Graft) (i : Nat)
    (vs : List (List Nat × Block)) : Prop :=
  ∀ q c, script.stop? vs = some (q, c) →
    ∃ k pos, q = (i + k) :: pos ∧ ∀ later, Block.NotBefore later (k :: pos) →
      Unchanged bs bs' (script.drawn vs gs).1 later

namespace Intact

variable {script : Script} {p p' : Progress} {bs bs' : List Block} {i : Nat}
  {us vs : List (List Nat × Block)}

/-- The failure is in or below a later sibling. -/
theorem siblings (b b' : Block) (hpassed : script.Follows p us p' (.ok ()))
    (h : script.Intact bs bs' p'.grafts (i + 1) vs) :
    script.Intact (b :: bs) (b' :: bs') p.grafts i (us ++ vs) := by
  intro q c hstop
  have hnone := hpassed.stop?_eq_none
  rw [stop?_append, hnone, Option.none_or] at hstop
  obtain ⟨k, pos, rfl, hunchanged⟩ := h q c hstop
  refine ⟨k + 1, pos, by rw [Nat.add_right_comm, Nat.add_assoc],
    fun later hlater => ?_⟩
  obtain ⟨j, below, rfl, hinner⟩ := Block.notBefore_succ hlater
  rw [drawn_append hnone, ← hpassed.grafts]
  exact ((hunchanged _ hinner).mono
    (List.subset_append_right _ _)).cons_succ b b'

/-- The failure is below the block itself, which has been visited. -/
theorem below {b b' : Block} {gs : List Graft}
    (hfail : script.failsAt b' = false)
    (hstopped : ∃ v, script.stop? us = some v) {new : List Block}
    (hnew : new = b.children ++ (Graft.draw b'.label gs).1)
    (h : script.Intact new b'.children (Graft.draw b'.label gs).2 0 us) :
    script.Intact (b :: bs) (b' :: bs) gs i
      (([i], b') :: (us.map (Block.under i) ++ vs)) := by
  intro q c hstop
  obtain ⟨⟨q', c'⟩, hbelow⟩ := hstopped
  have hunder : script.stop? (us.map (Block.under i)) = some (i :: q', c') := by
    rw [stop?_map_under, hbelow]
    rfl
  rw [stop?_cons hfail, stop?_append, hunder, Option.some_or] at hstop
  cases hstop
  obtain ⟨k, pos, rfl, hunchanged⟩ := h q' c hbelow
  rw [Nat.zero_add]
  refine ⟨0, k :: pos, rfl, fun later hlater => ?_⟩
  have hdrawn : script.drawn (us.map (Block.under i) ++ vs) =
      script.drawn us := by
    funext gs
    rw [drawn, passed_append_of_stop hunder, ← drawn, drawn_map_under]
  rw [drawn_cons hfail, hdrawn]
  obtain ⟨j, pos', rfl, hlt | ⟨rfl, hinner⟩⟩ := Block.notBefore_cons hlater
  · obtain ⟨j, rfl⟩ := Nat.exists_eq_add_one_of_ne_zero (Nat.ne_of_gt hlt)
    exact Unchanged.rfl.cons_succ b b'
  · obtain ⟨j, pos', rfl, -⟩ := Block.notBefore_cons hinner
    have hgrafted :=
      Unchanged.append b.children (Graft.draw b'.label gs).1 j pos'
    rw [← hnew] at hgrafted
    exact (hgrafted.trans (hunchanged _ hinner)).cons_zero bs bs

end Intact

/-- A failed walk has changed nothing from where it failed on. -/
theorem intact_of_tour {script : Script} {p : Progress} {bs : List Block}
    {w : Walk Progress Fault (List Block)}
    (h : script.visitor.Tour p bs w) (i : Nat) :
    script.Intact bs w.tree p.grafts i
      (Block.visits.go script.skip i w.tree) := by
  induction h generalizing i with
  | done => intro q c hstop; cases hstop
  | stop hvisit =>
      obtain ⟨hfail, rfl, rfl, rfl⟩ := of_visit_error hvisit
      obtain ⟨vs, hvs⟩ := Block.exists_visits_go_cons script.skip i _ _
      rw [hvs]
      intro q c hstop
      rw [stop?_of_failsAt hfail] at hstop
      cases hstop
      exact ⟨0, [], rfl, fun _ _ => .rfl⟩
  | pass hvisit hrest ih =>
      obtain ⟨hfail, rfl, hchildren, honward⟩ := of_visit_ok hvisit
      rw [Block.visits_go_of_skip i _ (skip_of_pass honward)]
      exact Intact.siblings _ _ (.cons hfail .nil) (ih (i + 1))
  | descend hvisit hbelow hok hrest ihbelow ih =>
      obtain ⟨hfail, rfl, hchildren, honward⟩ := of_visit_ok hvisit
      have hpassed := follows_of_tour hbelow 0
      rw [hok] at hpassed
      have hpassed := (Follows.map_under_iff i).2 hpassed
      rw [Block.visits_go_of_not_skip, ← List.cons_append]
      · exact Intact.siblings _ _ (.cons hfail hpassed) (ih (i + 1))
      · exact not_skip_of_descend honward
  | stopBelow hvisit hbelow herror ih =>
      obtain ⟨hfail, rfl, hchildren, honward⟩ := of_visit_ok hvisit
      have hstopped := follows_of_tour hbelow 0
      rw [herror] at hstopped
      rw [Block.visits_go_of_not_skip]
      · exact Intact.below hfail hstopped.exists_stop? hchildren (ih 0)
      · exact not_skip_of_descend honward

/-! ## One tree -/

section

variable {script : Script} {p p' : Progress} {b t : Block}
  {r : Except Fault Unit}

theorem visits_go_singleton (skip : List String) (t : Block) :
    Block.visits.go skip 0 [t] = (t.visits skip).map (Block.under 0) :=
  List.append_nil _

theorem follows_visits (h : script.visitor.Tour p [b] ⟨p', [t], r⟩) :
    script.Follows p (t.visits script.skip) p' r := by
  have hfollows := follows_of_tour h 0
  rw [visits_go_singleton, Follows.map_under_iff] at hfollows
  exact hfollows

/-- The tree has grown by the grafts used. -/
theorem count_of_tour (h : script.visitor.Tour p [b] ⟨p', [t], r⟩) :
    t.count = b.count +
      ((script.drawn (t.visits script.skip) p.grafts).1.map
        Block.count).sum := by
  have hkept := total_add_count_of_tour h
  have hdrawn : Graft.total (script.drawn (t.visits script.skip) p.grafts).2 +
      Block.count.go (script.drawn (t.visits script.skip) p.grafts).1 =
      Graft.total p.grafts := Graft.total_drawAll _ _
  rw [← (follows_visits h).grafts] at hdrawn
  simp only [Block.count_go_cons, Block.count_go_nil] at hkept
  rw [← Block.count_go_eq_sum]
  omega

/-- From where a walk failed on, every block of the tree is as it was. -/
theorem unchanged_of_stop (h : script.visitor.Tour p [b] ⟨p', [t], r⟩)
    {q pos : List Nat} {c : Block}
    (hstop : script.stop? (t.visits script.skip) = some (q, c))
    (hpos : Block.NotBefore pos q) :
    (∀ x, b.at? pos = some x → t.at? pos = some x) ∧
    (b.at? pos = none → ∀ x, t.at? pos = some x →
      ∃ g ∈ (script.drawn (t.visits script.skip) p.grafts).1,
        ∃ below, below <:+ pos ∧ g.at? below = some x) := by
  have hstop' : script.stop? (Block.visits.go script.skip 0 [t]) =
      some (0 :: q, c) := by
    rw [visits_go_singleton, stop?_map_under, hstop]
    rfl
  obtain ⟨k, pos', hq, hunchanged⟩ := intact_of_tour h 0 _ c hstop'
  rw [Nat.zero_add] at hq
  have hsame := hunchanged (0 :: pos) (hq ▸ hpos.cons 0)
  rw [visits_go_singleton, drawn_map_under] at hsame
  exact ⟨hsame.kept, hsame.added⟩

end

/-- A scripted walk comes to an end, however deep it may go: it has a
derivation that no bound occurs in, and any bound that allows for the blocks of
the tree and of the grafts gives the same. The labels it has seen are those of
the final tree, parents first and without what is below a label to skip, up to
and with the first label to fail at. It fails exactly if there is such a label,
and from that block on everything is as it was, in the tree or in a graft. The
blocks it has passed determine the grafts used, and the final tree has the
blocks of the tree and of these grafts. -/
theorem walk_follows_script (script : Script) (grafts : List Graft)
    (b : Block) :
    let w := script.visitor.walk ⟨[], grafts⟩ b
    let vs := w.tree.visits script.skip
    let used := Graft.drawAll (Block.labels (script.passed vs)) grafts
    script.visitor.Tour ⟨[], grafts⟩ [b] ⟨w.state, [w.tree], w.result⟩ ∧
    (∀ depth, Graft.total grafts + b.count ≤ depth →
      script.visitor.walkTo depth ⟨[], grafts⟩ b = w) ∧
    w.state.seen =
      Block.labels (script.passed vs ++ (script.stop? vs).toList) ∧
    w.state.grafts = used.2 ∧
    w.tree.count = b.count + (used.1.map Block.count).sum ∧
    (script.stop? vs = none → w.result = .ok ()) ∧
    ∀ q c, script.stop? vs = some (q, c) →
      w.result = .error (.malformedSheet c.label) ∧
      ∀ pos, Block.NotBefore pos q →
        (∀ x, b.at? pos = some x → w.tree.at? pos = some x) ∧
        (b.at? pos = none → ∀ x, w.tree.at? pos = some x →
          ∃ g ∈ used.1, ∃ below, below <:+ pos ∧ g.at? below = some x) := by
  intro w vs used
  have htour := script.visitor.tour_walk ⟨[], grafts⟩ b
  have hfollows := follows_visits htour
  refine ⟨htour, fun depth hdepth => script.visitor.walkTo_eq_walk hdepth,
    hfollows.seen, hfollows.grafts, count_of_tour htour, fun hnone => ?_,
    fun q c hstop => ⟨?_, fun pos hpos => unchanged_of_stop htour hstop hpos⟩⟩
  · rw [hfollows.result, outcome, hnone]
  · rw [hfollows.result, outcome, hstop]

/-- The walk fails at the second rule, after it has come to a graft of a graft
and passed over what was grafted with it. The rule below the second stays, and
the graft meant for the second rule is left. -/
theorem walk_follows_script_into_graft :
    let d : Block := ⟨.style ["d"], [], []⟩
    let b : Block := ⟨.root, [], [⟨.style ["a"], [], []⟩,
      ⟨.style ["c"], [], [d]⟩]⟩
    let script : Script := ⟨["h"], ["c"]⟩
    let grafts : List Graft := [⟨"c", d⟩, ⟨"g", ⟨.style ["h"], [], [d]⟩⟩,
      ⟨"a", ⟨.style ["g"], [], []⟩⟩]
    let w := script.visitor.walk ⟨[], grafts⟩ b
    w.state.seen = ["<root>", "a", "g", "h", "c"] ∧
      w.result = .error (.malformedSheet "c") ∧ w.tree.count = 7 ∧
      w.tree.at? [1, 0] = some d := by
  intro d b script grafts w
  obtain ⟨-, -, hseen, -, hcount, -, hstopped⟩ :=
    walk_follows_script script grafts b
  have hstop : script.stop? (w.tree.visits script.skip) =
      some ([1], ⟨.style ["c"], [], [d]⟩) := by rfl
  obtain ⟨hresult, hunchanged⟩ := hstopped _ _ hstop
  have hlater : Block.NotBefore [1, 0] [1] := Or.inr (.cons .nil)
  refine ⟨hseen.trans (by decide +kernel), hresult, hcount.trans (by rfl),
    (hunchanged _ hlater).1 d rfl⟩

end Script

end CssVendor
