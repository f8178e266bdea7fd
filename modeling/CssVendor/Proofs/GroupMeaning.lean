import CssVendor.Proofs.Completion
import Mathlib.Data.List.Forall2

/-!
# What the groups mean

The pass that gathers groups decides when to open one from what it has opened
already, and settles the standard names afterwards. What comes out can be said
without that history: which names have a group, in which order, who represents
them and what is marked are all questions about the declared names.

So nothing that is known of a list of declarations is lost when more of them
follow. The canonical names only grow at the end, a representative stays where
it was found, and a mark stays set.
-/

namespace CssVendor

/-- What more declarations make of a group: further marks. -/
structure PropertyGroup.GrowsTo (g h : PropertyGroup) : Prop where
  canonical : h.canonical = g.canonical
  representative : h.representative = g.representative
  vendors : ∀ v, g.vendors v = true → h.vendors v = true
  unprefixed : g.unprefixed = true → h.unprefixed = true

/-! ## The names -/

theorem canonical_map_gather (ds : List Declaration) :
    (gather ds).map PropertyGroup.canonical = canonicalNames ds := by
  rw [gather_eq, List.map_map]
  exact List.map_id' _

theorem prefix_insertName (c : String) (names : List String) :
    names <+: insertName c names := by
  rw [insertName]
  split
  · exact List.prefix_rfl
  · exact List.prefix_append _ _

/-- Names opened later stand after those opened before. -/
theorem prefix_canonicalNames_append (ds es : List Declaration) :
    canonicalNames ds <+: canonicalNames (ds ++ es) := by
  induction es using List.reverseRecOn with
  | nil => simp
  | append_singleton es e ih =>
      refine ih.trans ?_
      rw [← List.append_assoc, canonicalNames_concat]
      cases e.opened? with
      | none => exact List.prefix_rfl
      | some c => exact prefix_insertName c _

/-! ## The groups -/

/-- Declarations without a name are passed over. -/
theorem gather_filter_named (ds : List Declaration) :
    gather (ds.filter fun d => d.name != "") = gather ds := by
  rw [gather, gather, List.foldl_filter]
  congr 2
  funext s d
  by_cases hd : d.name = "" <;> simp [Gathering.read, hd]

theorem representative_groupOf {ds : List Declaration} {c : String}
    (hc : c ∈ canonicalNames ds) (e : Declaration) (marked : String → Bool) :
    ds.find? (Declaration.opens c) =
      some (groupOf ds e marked c).representative := by
  obtain ⟨first, hfirst⟩ := exists_find?_opens hc
  rw [groupOf, hfirst, Option.getD_some]

theorem declares_append_left {ds : List Declaration} {n : String}
    (h : declares ds n = true) (es : List Declaration) :
    declares (ds ++ es) n = true := by
  rw [declares, List.any_append, Bool.or_eq_true]
  exact Or.inl h

/-- A group is the same after more declarations, but for marks that they
add. -/
theorem groupOf_growsTo {ds : List Declaration} {c : String}
    (hc : c ∈ canonicalNames ds) (es : List Declaration) :
    (groupOf ds default (declares ds) c).GrowsTo
      (groupOf (ds ++ es) default (declares (ds ++ es)) c) where
  canonical := rfl
  representative := by
    obtain ⟨first, hfirst⟩ := exists_find?_opens hc
    simp only [groupOf, List.find?_append, hfirst, Option.some_or]
  vendors _ h := declares_append_left h es
  unprefixed h := declares_append_left h es

/-- The groups of a list of declarations are the first groups of any longer
one. -/
theorem gather_append (ds es : List Declaration) :
    ∃ old new, gather (ds ++ es) = old ++ new ∧
      List.Forall₂ PropertyGroup.GrowsTo (gather ds) old := by
  obtain ⟨added, hadded⟩ := prefix_canonicalNames_append ds es
  rw [gather_eq (ds ++ es), ← hadded, List.map_append]
  refine ⟨_, _, rfl, ?_⟩
  rw [gather_eq ds, List.forall₂_map_left_iff, List.forall₂_map_right_iff,
    List.forall₂_same]
  exact fun c hc => groupOf_growsTo hc es

/-- Gathering in terms of the declared names alone. A name has a group if a
vendor's form of it is declared, or if it is listed and declared itself, and it
has one group only. The groups stand in the order of the declarations that open
them, each is represented by the one that opens it, and its marks say which
forms are declared, wherever they stand. Declarations without a name count for
nothing, and declarations that follow change no more than marks not yet set and
groups not yet opened. -/
theorem gather_means (ds : List Declaration) :
    ((gather ds).map PropertyGroup.canonical).Nodup ∧
    (∀ c, c ∈ (gather ds).map PropertyGroup.canonical ↔
      (c ≠ "" ∧ ∃ v : Vendor, ∃ d ∈ ds, d.name = v.apply c) ∨
        (c ∈ expandable ∧ ∃ d ∈ ds, d.name = c)) ∧
    (gather ds).Pairwise (fun g h =>
      ds.findIdx (Declaration.opens g.canonical) <
        ds.findIdx (Declaration.opens h.canonical)) ∧
    (∀ g ∈ gather ds,
      ds.find? (Declaration.opens g.canonical) = some g.representative ∧
      (∀ v : Vendor, g.vendors v = true ↔
        ∃ d ∈ ds, d.name = v.apply g.canonical) ∧
      (g.unprefixed = true ↔ ∃ d ∈ ds, d.name = g.canonical)) ∧
    gather (ds.filter fun d => d.name != "") = gather ds ∧
    ∀ es, ∃ old new, gather (ds ++ es) = old ++ new ∧
      List.Forall₂ PropertyGroup.GrowsTo (gather ds) old := by
  refine ⟨?_, fun c => ?_, ?_, fun g hg => ?_, gather_filter_named ds,
    gather_append ds⟩
  · rw [canonical_map_gather]
    exact nodup_canonicalNames ds
  · rw [canonical_map_gather, mem_canonicalNames_iff]
    simp only [declares, List.any_eq_true, beq_iff_eq, isExpandable,
      List.contains_iff_mem]
    rw [and_comm (a := c ∈ expandable)]
  · rw [gather_eq, List.pairwise_map]
    exact pairwise_canonicalNames ds
  · rw [gather_eq, List.mem_map] at hg
    obtain ⟨c, hc, rfl⟩ := hg
    refine ⟨representative_groupOf hc _ _, fun v => ?_, ?_⟩
    · simp [groupOf, declares]
    · simp [groupOf, declares]

/-- The first of these declarations has no name, the second is the standard
form of an unlisted property and opens nothing until the third does. The fourth
is a form of `x` and a standard name at once. -/
theorem gather_means_reread :
    let ds : List Declaration := [⟨"", "0", false⟩, ⟨"x", "1", false⟩,
      ⟨"-webkit--moz-x", "2", false⟩, ⟨"-moz-x", "3", true⟩]
    (gather ds).map PropertyGroup.canonical = ["-moz-x", "x"] ∧
      (gather ds).map PropertyGroup.representative =
        [⟨"-webkit--moz-x", "2", false⟩, ⟨"-moz-x", "3", true⟩] ∧
      ∀ g ∈ gather ds, g.unprefixed = true ∧
        ds.find? (Declaration.opens g.canonical) = some g.representative := by
  intro ds
  obtain ⟨-, -, -, hgroups, -, -⟩ := gather_means ds
  have hkeys : (gather ds).map PropertyGroup.canonical = ["-moz-x", "x"] := by
    decide +kernel
  refine ⟨hkeys, by decide +kernel, fun g hg => ?_⟩
  obtain ⟨hrepresentative, -, hunprefixed⟩ := hgroups g hg
  refine ⟨hunprefixed.2 ?_, hrepresentative⟩
  have hmem : g.canonical ∈ ["-moz-x", "x"] :=
    hkeys ▸ List.mem_map_of_mem hg
  simp only [List.mem_cons, List.not_mem_nil, or_false] at hmem
  rcases hmem with h | h
  · exact ⟨⟨"-moz-x", "3", true⟩, by simp [ds], h.symm⟩
  · exact ⟨⟨"x", "1", false⟩, by simp [ds], h.symm⟩

end CssVendor
