import CssVendor.Expand
import CssVendor.Proofs.Gathering
import Mathlib.Algebra.GroupWithZero.Nat
import Mathlib.Data.List.Basic

/-!
# What expanding a block appends

Once gathering is known in terms of the canonical names, so is what a block
lacks: for every canonical name the forms that no declaration bears, with the
payload of the declaration that opens it. The main statement says that
expanding a block does this and nothing else, without a word about groups.
-/

namespace CssVendor

/-- What completes a name among declarations: its missing forms in order, with
the payload of the first declaration that opens it. -/
def completion (ds : List Declaration) (c : String) : List Declaration :=
  match ds.find? (Declaration.opens c) with
  | none => []
  | some first => ((forms c).filter fun n => !declares ds n).map first.rename

theorem exists_find?_opens {ds : List Declaration} {c : String}
    (hc : c ∈ canonicalNames ds) :
    ∃ first, ds.find? (Declaration.opens c) = some first := by
  rw [← Option.isSome_iff_exists, List.find?_isSome]
  exact mem_canonicalNames.1 hc

theorem missing_groupOf {ds : List Declaration} {c : String}
    (hc : c ∈ canonicalNames ds) :
    (groupOf ds default (declares ds) c).missing = completion ds c := by
  obtain ⟨first, hfirst⟩ := exists_find?_opens hc
  rw [completion, groupOf, PropertyGroup.missing, hfirst]
  simp only [forms, Option.getD_some, List.filter_append, List.map_append,
    List.filter_map, List.map_map]
  congr 1
  cases hc : declares ds c with
  | false => rw [List.filter_singleton, hc]; rfl
  | true => rw [List.filter_singleton, hc]; rfl

/-- The missing forms of a block, name by name. -/
theorem missingForms_eq (ds : List Declaration) :
    missingForms ds = (canonicalNames ds).flatMap (completion ds) := by
  rw [missingForms, gather_eq, List.flatMap_map]
  exact List.flatMap_congr fun c hc => missing_groupOf hc

/-- A form that is missing carries what some declaration carries. -/
theorem exists_of_mem_missingForms {ds : List Declaration} {d : Declaration}
    (h : d ∈ missingForms ds) :
    ∃ e ∈ ds, ∃ c ∈ canonicalNames ds, ∃ n ∈ forms c, d = e.rename n := by
  rw [missingForms_eq] at h
  obtain ⟨c, hc, hd⟩ := List.mem_flatMap.1 h
  obtain ⟨first, hfirst⟩ := exists_find?_opens hc
  simp only [completion, hfirst] at hd
  obtain ⟨n, hn, rfl⟩ := List.mem_map.1 hd
  exact ⟨first, List.mem_of_find?_eq_some hfirst, c, hc, n,
    List.mem_of_mem_filter hn, rfl⟩

theorem length_forms (c : String) : (forms c).length = 5 := rfl

/-- A name lacks as many forms as are not declared. -/
theorem length_completion {ds : List Declaration} {c : String}
    (hc : c ∈ canonicalNames ds) :
    (completion ds c).length = 5 - (forms c).countP (declares ds) := by
  obtain ⟨first, hfirst⟩ := exists_find?_opens hc
  have hsplit := List.length_eq_countP_add_countP (declares ds) (l := forms c)
  have hmissing : (forms c).countP (fun n => !declares ds n) =
      (forms c).countP fun n => ¬declares ds n = true :=
    List.countP_congr fun n _ => by simp
  rw [length_forms] at hsplit
  rw [completion, hfirst]
  simp only []
  rw [List.length_map, ← List.countP_eq_length_filter, hmissing]
  omega

/-! ## Expanding a block -/

theorem Block.unnamed?_eq_none {b : Block}
    (h : ∀ d ∈ b.declarations, d.name ≠ "") : b.unnamed? = none := by
  rw [Block.unnamed?, List.findIdx?_eq_none_iff]
  intro d hd
  simpa using h d hd

theorem Block.expand_of_named {b : Block} (hroot : b.isRoot = false)
    (h : ∀ d ∈ b.declarations, d.name ≠ "") :
    b.expand = .ok
      { block := { b with
          declarations := b.declarations ++ missingForms b.declarations }
        added := (missingForms b.declarations).length
        records := b.expansionRecords (missingForms b.declarations) } := by
  rw [Block.expand, hroot, Block.unnamed?_eq_none h]
  rfl

/-- Expanding a block whose properties all have names leaves its kind and its
children alone and appends to its declarations, for each canonical name in the
order in which they are opened, the forms that are not declared anywhere in the
block, with the payload of the declaration that opens the name. The number
returned is the number of forms so appended. -/
theorem expand_appends_missing_forms {b : Block} (hroot : b.isRoot = false)
    (hnamed : ∀ d ∈ b.declarations, d.name ≠ "") :
    ∃ (names : List String) (e : Expansion),
      names.Nodup ∧
      (∀ c, c ∈ names ↔
        (c ≠ "" ∧ ∃ v : Vendor, ∃ d ∈ b.declarations, d.name = v.apply c) ∨
          (c ∈ expandable ∧ ∃ d ∈ b.declarations, d.name = c)) ∧
      names.Pairwise (fun c c' =>
        b.declarations.findIdx (Declaration.opens c) <
          b.declarations.findIdx (Declaration.opens c')) ∧
      b.expand = .ok e ∧
      e.block.kind = b.kind ∧
      e.block.children = b.children ∧
      e.block.declarations =
        b.declarations ++ names.flatMap (completion b.declarations) ∧
      e.added = (names.flatMap (completion b.declarations)).length ∧
      e.added = (names.map fun c =>
        5 - (forms c).countP (declares b.declarations)).sum := by
  refine ⟨canonicalNames b.declarations, _, nodup_canonicalNames _, ?_,
    pairwise_canonicalNames _, Block.expand_of_named hroot hnamed, rfl, rfl,
    ?_, ?_, ?_⟩
  · intro c
    rw [mem_canonicalNames_iff]
    simp only [declares, List.any_eq_true, beq_iff_eq, isExpandable,
      List.contains_iff_mem]
    rw [and_comm (a := c ∈ expandable)]
  · rw [missingForms_eq]
  · rw [missingForms_eq]
  · rw [missingForms_eq, List.length_flatMap]
    refine congrArg List.sum (List.map_congr_left fun c hc => ?_)
    exact length_completion hc

/-- A block in which one declaration belongs to two names: `-moz-x` is a form of
`x` and the standard form of `-webkit--moz-x`. Three forms of the first, four
of the second and four of `transform` are missing. -/
theorem expand_appends_missing_forms_nested :
    let b : Block := ⟨.style ["a"],
      [⟨"-webkit--moz-x", "1", true⟩, ⟨"-moz-x", "2", false⟩,
        ⟨"transform", "3", false⟩], []⟩
    b.isRoot = false ∧ (∀ d ∈ b.declarations, d.name ≠ "") ∧
      ∃ (names : List String) (e : Expansion),
        names.Nodup ∧ b.expand = .ok e ∧ e.added = 11 ∧
          e.block.declarations =
            b.declarations ++ names.flatMap (completion b.declarations) := by
  intro b
  have hroot : b.isRoot = false := rfl
  have hnamed : ∀ d ∈ b.declarations, d.name ≠ "" := by decide
  obtain ⟨names, e, hnodup, -, -, he, -, -, hdeclarations, -⟩ :=
    expand_appends_missing_forms hroot hnamed
  have hadded : b.expand.map Expansion.added = .ok 11 := by decide +kernel
  rw [he] at hadded
  exact ⟨hroot, hnamed, names, e, hnodup, he, Except.ok.inj hadded,
    hdeclarations⟩

end CssVendor
