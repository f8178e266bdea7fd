import CssVendor.Proofs.Nesting
import Mathlib.Data.List.Nodup

/-!
# How often a name is declared after an expansion

What is declared stays, and nothing that is declared is appended. A name that
is not declared is appended once for each group of which it is a form. It can
be the standard form of one group and a vendor's form of another, and it is a
form of no third one: reading a vendor's mark determines what was marked. So
the count is a sum of two conditions, and a name is appended twice exactly if
both hold.
-/

namespace CssVendor

variable {ds : List Declaration} {n c : String}

/-- The declaration that represents a canonical name: the first that opens
it. -/
def representativeOf (ds : List Declaration) (c : String) : Declaration :=
  (ds.find? (Declaration.opens c)).getD default

theorem apply_ne_self (v : Vendor) (c : String) : v.apply c ≠ c := by
  intro h
  have hlt := v.length_lt_apply c
  rw [h] at hlt
  exact absurd hlt (Nat.lt_irrefl _)

theorem nodup_forms (c : String) : (forms c).Nodup := by
  have hvendors : Vendor.all.Nodup := by decide
  refine List.nodup_append.2 ⟨?_, List.nodup_singleton c, ?_⟩
  · exact hvendors.map fun v w h => (Vendor.apply_inj.1 h).1
  · intro a ha b hb
    obtain ⟨v, -, rfl⟩ := List.mem_map.1 ha
    rw [List.mem_singleton.1 hb]
    exact apply_ne_self v c

theorem completion_eq (hc : c ∈ canonicalNames ds) :
    completion ds c = ((forms c).filter fun n => !declares ds n).map
      (representativeOf ds c).rename := by
  obtain ⟨first, hfirst⟩ := exists_find?_opens hc
  rw [completion, representativeOf, hfirst]
  rfl

/-- A name that is not declared is appended for a canonical name if it is one
of its forms, and once. -/
theorem filter_completion (hc : c ∈ canonicalNames ds)
    (hn : declares ds n = false) :
    (completion ds c).filter (fun d => d.name == n) =
      if n ∈ forms c then [(representativeOf ds c).rename n] else [] := by
  have hmissing : ((forms c).filter fun m => !declares ds m).filter
      (fun m => m == n) = (forms c).filter (fun m => m == n) := by
    rw [List.filter_filter]
    refine List.filter_congr fun m _ => ?_
    by_cases h : m = n
    · simp [h, hn]
    · simp [h]
  rw [completion_eq hc, List.filter_map]
  simp only [Function.comp_def, Declaration.name_rename]
  rw [hmissing, List.filter_beq, (nodup_forms c).count]
  split <;> rfl

theorem flatMap_ite_singleton {α β : Type} (p : α → Prop) [DecidablePred p]
    (f : α → β) (l : List α) :
    (l.flatMap fun a => if p a then [f a] else []) =
      (l.filter p).map f := by
  induction l with
  | nil => rfl
  | cons a l ih =>
      rw [List.flatMap_cons, ih, List.filter_cons]
      by_cases h : p a <;> simp [h]

/-- What is appended under a name that is not declared: a copy of the
representative of each canonical name that it is a form of. -/
theorem filter_missingForms (hn : declares ds n = false) :
    (missingForms ds).filter (fun d => d.name == n) =
      ((canonicalNames ds).filter fun c => n ∈ forms c).map fun c =>
        (representativeOf ds c).rename n := by
  rw [missingForms_eq, List.filter_flatMap, ← flatMap_ite_singleton]
  exact List.flatMap_congr fun c hc => filter_completion hc hn

theorem not_declares_of_mem_missingForms {d : Declaration}
    (hd : d ∈ missingForms ds) : declares ds d.name = false := by
  rw [missingForms_eq] at hd
  obtain ⟨c, hc, hd⟩ := List.mem_flatMap.1 hd
  refine ((declares_completion hc).1 ?_).2
  exact List.any_eq_true.2 ⟨d, hd, by simp⟩

/-! ## The canonical names that a name is a form of -/

theorem countP_or_of_disjoint {α : Type} {p q : α → Prop} [DecidablePred p]
    [DecidablePred q] (l : List α) (h : ∀ a, p a → ¬ q a) :
    l.countP (fun a => p a ∨ q a) = l.countP p + l.countP q := by
  induction l with
  | nil => rfl
  | cons a l ih =>
      have ha := h a
      simp only [List.countP_cons, ih, decide_eq_true_eq]
      by_cases hp : p a
      · simp [hp, ha hp]
        omega
      · by_cases hq : q a <;> simp [hp, hq]
        omega

theorem mem_forms_iff {c n : String} :
    n ∈ forms c ↔ c = n ∨ ∃ v ∈ Vendor.all, n = v.apply c := by
  rw [mem_forms, or_comm, eq_comm (a := n)]
  simp [Vendor.mem_all]

/-- A name is a vendor's form of one name at most. -/
theorem countP_marked {names : List String} (h : names.Nodup) (n : String) :
    names.countP (fun c => ∃ v ∈ Vendor.all, n = v.apply c) =
      if ∃ c ∈ names, ∃ v ∈ Vendor.all, n = v.apply c then 1 else 0 := by
  split
  · next hmarked =>
      obtain ⟨c, hc, v, hv, rfl⟩ := hmarked
      have hsame : names.countP
          (fun e => ∃ w ∈ Vendor.all, v.apply c = w.apply e) =
          names.count c := by
        refine List.countP_congr fun e _ => ?_
        simp only [decide_eq_true_eq, beq_iff_eq, Vendor.apply_inj]
        constructor
        · rintro ⟨w, -, -, rfl⟩
          rfl
        · rintro rfl
          exact ⟨v, hv, rfl, rfl⟩
      rw [hsame, h.count, if_pos hc]
  · next hplain =>
      rw [List.countP_eq_zero]
      intro c hc hmarked
      exact hplain ⟨c, hc, by simpa using hmarked⟩

theorem countP_forms {names : List String} (h : names.Nodup) (n : String) :
    names.countP (fun c => n ∈ forms c) =
      (if n ∈ names then 1 else 0) +
        if ∃ c ∈ names, ∃ v ∈ Vendor.all, n = v.apply c then 1 else 0 := by
  have hsplit : names.countP (fun c => n ∈ forms c) =
      names.countP (fun c => c = n ∨ ∃ v ∈ Vendor.all, n = v.apply c) :=
    List.countP_congr fun c _ => by simp only [mem_forms_iff]
  have hself : names.countP (fun c => c = n) = names.count n :=
    List.countP_congr fun c _ => by simp
  rw [hsplit, countP_or_of_disjoint, hself, h.count, countP_marked h]
  rintro c rfl ⟨v, -, hv⟩
  exact apply_ne_self v c hv.symm

/-- How often a name is appended that is not declared. -/
theorem count_missingForms (hn : declares ds n = false) :
    ((missingForms ds).map Declaration.name).count n =
      (if n ∈ canonicalNames ds then 1 else 0) +
        if ∃ c ∈ canonicalNames ds, ∃ v ∈ Vendor.all, n = v.apply c then 1
        else 0 := by
  rw [← countP_forms (nodup_canonicalNames ds), List.count, List.countP_map,
    List.countP_eq_length_filter]
  show ((missingForms ds).filter fun d => d.name == n).length = _
  rw [filter_missingForms hn, List.length_map, List.countP_eq_length_filter]

theorem count_missingForms_of_declares (hn : declares ds n = true) :
    ((missingForms ds).map Declaration.name).count n = 0 := by
  refine List.count_eq_zero.2 fun hmem => ?_
  obtain ⟨d, hd, rfl⟩ := List.mem_map.1 hmem
  rw [not_declares_of_mem_missingForms hd] at hn
  cases hn

/-- The names appended are distinct unless one is both a canonical name and a
vendor's form of another. -/
theorem nodup_missingForms :
    ((missingForms ds).map Declaration.name).Nodup ↔
      ∀ n ∈ canonicalNames ds, declares ds n = false →
        ¬ ∃ c ∈ canonicalNames ds, ∃ v ∈ Vendor.all, n = v.apply c := by
  rw [List.nodup_iff_count_le_one]
  constructor
  · intro h n hn hnew hmarked
    have hle := h n
    rw [count_missingForms hnew, if_pos hn, if_pos hmarked] at hle
    omega
  · intro h n
    cases hdeclared : declares ds n with
    | true =>
        rw [count_missingForms_of_declares hdeclared]
        exact Nat.zero_le 1
    | false =>
        rw [count_missingForms hdeclared]
        by_cases hn : n ∈ canonicalNames ds
        · rw [if_pos hn, if_neg (h n hn hdeclared)]
        · rw [if_neg hn]
          split <;> omega

/-- A name that is appended twice is appended once for each of the two
canonical names. -/
theorem perm_missingForms {v : Vendor} (hc : c ∈ canonicalNames ds)
    (hn : v.apply c ∈ canonicalNames ds)
    (hnew : declares ds (v.apply c) = false) :
    ((missingForms ds).filter fun d => d.name == v.apply c).Perm
      [(representativeOf ds (v.apply c)).rename (v.apply c),
        (representativeOf ds c).rename (v.apply c)] := by
  have hnames : ((canonicalNames ds).filter fun e => v.apply c ∈ forms e).Perm
      [v.apply c, c] := by
    refine (List.perm_ext_iff_of_nodup ((nodup_canonicalNames ds).filter _)
      (by simpa using apply_ne_self v c)).2 fun e => ?_
    rw [List.mem_filter, decide_eq_true_eq, mem_forms]
    constructor
    · rintro ⟨-, ⟨w, hw⟩ | rfl⟩
      · rw [(Vendor.apply_inj.1 hw).2]
        simp
      · simp
    · intro he
      rcases List.mem_cons.1 he with rfl | he
      · exact ⟨hn, Or.inr rfl⟩
      · rw [List.mem_singleton.1 he]
        exact ⟨hc, Or.inl ⟨v, rfl⟩⟩
  rw [filter_missingForms hnew]
  exact hnames.map _

/-! ## Expanding a block -/

/-- The names of the groups of some declarations. -/
def groupNames (ds : List Declaration) : List String :=
  (gather ds).map PropertyGroup.canonical

theorem groupNames_eq (ds : List Declaration) :
    groupNames ds = canonicalNames ds := by
  rw [groupNames, gather_eq, List.map_map]
  exact List.map_id'' (fun _ => rfl) _

/-- A group is represented by the declaration that opens it. -/
theorem representative_of_mem_gather {g : PropertyGroup} (hg : g ∈ gather ds) :
    g.canonical ∈ canonicalNames ds ∧
      g.representative = representativeOf ds g.canonical := by
  rw [gather_eq] at hg
  obtain ⟨c, hc, rfl⟩ := List.mem_map.1 hg
  exact ⟨hc, rfl⟩

theorem mem_names_iff :
    n ∈ ds.map Declaration.name ↔ declares ds n = true := by
  simp [declares]

theorem not_mem_names_iff :
    n ∉ ds.map Declaration.name ↔ declares ds n = false := by
  rw [mem_names_iff, Bool.not_eq_true]

/-- Expanding a block whose properties all have names loses nothing and appends
nothing that is declared. A declared name occurs as often as before, and any
other once if it is the name of a group, and once more if it is a vendor's form
of the name of a group. So the names appended are distinct exactly if no group
without its own name declared has a vendor's form of another group's name; where
one has, its name is appended twice, once for each of the two groups. -/
theorem expand_multiplicity {b : Block} (hroot : b.isRoot = false)
    (hnamed : ∀ d ∈ b.declarations, d.name ≠ "") :
    ∃ (e : Expansion) (appended : List Declaration),
      b.expand = .ok e ∧
      e.block.declarations = b.declarations ++ appended ∧
      (∀ n, (e.block.declarations.map Declaration.name).count n =
        if n ∈ b.declarations.map Declaration.name then
          (b.declarations.map Declaration.name).count n
        else
          (if n ∈ groupNames b.declarations then 1 else 0) +
            if ∃ c ∈ groupNames b.declarations, ∃ v ∈ Vendor.all,
              n = v.apply c then 1 else 0) ∧
      (∀ d ∈ appended, d.name ∉ b.declarations.map Declaration.name) ∧
      ((appended.map Declaration.name).Nodup ↔
        ∀ n ∈ groupNames b.declarations,
          n ∉ b.declarations.map Declaration.name →
          ¬ ∃ c ∈ groupNames b.declarations, ∃ v ∈ Vendor.all,
            n = v.apply c) ∧
      ∀ g ∈ gather b.declarations, ∀ g' ∈ gather b.declarations,
        ∀ v : Vendor, g.canonical = v.apply g'.canonical →
        g.canonical ∉ b.declarations.map Declaration.name →
        (appended.filter fun d => d.name == g.canonical).Perm
          [g.representative.rename g.canonical,
            g'.representative.rename g.canonical] := by
  refine ⟨_, missingForms b.declarations,
    Block.expand_of_named hroot hnamed, rfl, ?_, ?_, ?_, ?_⟩
  · intro n
    rw [List.map_append, List.count_append, groupNames_eq]
    split
    · next hold =>
        rw [count_missingForms_of_declares (mem_names_iff.1 hold), Nat.add_zero]
    · next hnew =>
        rw [List.count_eq_zero.2 hnew, Nat.zero_add,
          count_missingForms (not_mem_names_iff.1 hnew)]
  · intro d hd
    exact not_mem_names_iff.2 (not_declares_of_mem_missingForms hd)
  · simp only [nodup_missingForms, groupNames_eq, not_mem_names_iff]
  · intro g hg g' hg' v hmarked hnew
    obtain ⟨hn, hrep⟩ := representative_of_mem_gather hg
    obtain ⟨hc, hrep'⟩ := representative_of_mem_gather hg'
    rw [not_mem_names_iff] at hnew
    rw [hmarked] at hn hnew hrep
    rw [hrep', hmarked, hrep]
    exact perm_missingForms hc hn hnew

/-- Both groups of this block lack `-moz-x`: it is the standard form of the
first and a form of `x`, which is the second. -/
theorem expand_multiplicity_twice :
    let b : Block := ⟨.style ["a"],
      [⟨"-webkit--moz-x", "1", true⟩, ⟨"-webkit-x", "2", false⟩], []⟩
    b.isRoot = false ∧ (∀ d ∈ b.declarations, d.name ≠ "") ∧
      ∃ (e : Expansion) (appended : List Declaration),
        b.expand = .ok e ∧ e.block.declarations = b.declarations ++ appended ∧
        (e.block.declarations.map Declaration.name).count "-moz-x" = 2 ∧
        (e.block.declarations.map Declaration.name).count "-webkit-x" = 1 ∧
        ¬ (appended.map Declaration.name).Nodup ∧
        (appended.filter fun d => d.name == "-moz-x").Perm
          [⟨"-moz-x", "1", true⟩, ⟨"-moz-x", "2", false⟩] := by
  intro b
  have hroot : b.isRoot = false := rfl
  have hnamed : ∀ d ∈ b.declarations, d.name ≠ "" := by decide
  obtain ⟨e, appended, he, hdeclarations, hcount, -, hnodup, htwice⟩ :=
    expand_multiplicity hroot hnamed
  have hgroups : groupNames b.declarations = ["-moz-x", "x"] := by
    decide +kernel
  refine ⟨hroot, hnamed, e, appended, he, hdeclarations, ?_, ?_, ?_, ?_⟩
  · rw [hcount, hgroups]
    decide +kernel
  · rw [hcount, hgroups]
    decide +kernel
  · rw [hnodup, hgroups]
    decide +kernel
  · obtain ⟨g, g', hgather⟩ : ∃ g g', gather b.declarations = [g, g'] :=
      ⟨_, _, rfl⟩
    have hnames : g.canonical = "-moz-x" ∧ g'.canonical = "x" := by
      have hmap := hgroups
      rw [groupNames, hgather] at hmap
      simpa using hmap
    have hreps : (gather b.declarations).map PropertyGroup.representative =
        b.declarations := by decide +kernel
    rw [hgather] at hreps
    have htwice := htwice g (by rw [hgather]; simp) g' (by rw [hgather]; simp)
      .moz (by rw [hnames.1, hnames.2]; decide)
      (by rw [hnames.1]; decide)
    obtain ⟨hrep, hrep'⟩ : g.representative = ⟨"-webkit--moz-x", "1", true⟩ ∧
        g'.representative = ⟨"-webkit-x", "2", false⟩ := by
      simpa [b] using hreps
    rw [hnames.1, hrep, hrep'] at htwice
    exact htwice

end CssVendor
