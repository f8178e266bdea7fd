import CssVendor.Proofs.Completion
import Mathlib.Order.Bounds.Basic

/-!
# How often a block must be expanded

A form that is filled in can itself be a vendor's form: completing `-moz-x`
next to `-webkit--moz-x` makes `x` a canonical name that it was not before. So
one expansion need not be the last. What goes down from one to the next is the
nesting of those canonical names that still lack forms, counted in vendors'
marks: a new one is what is left of an incomplete one without its first mark.
`SettledBelow` carries this bound through the expansions, and at zero nothing
is missing any more.

What is reached then is the least set of names that contains the declared ones
and, with any form of a name that counts, all five. No expansion leaves that
set, and the last one fills it.
-/

namespace CssVendor

/-- How many vendors' marks stand one behind the other in a name. -/
def nesting (n : String) : Nat :=
  match _ : NameForm.of n with
  | .vendored _ c => nesting c + 1
  | _ => 0
termination_by n.length
decreasing_by
  next h =>
    rw [(NameForm.apply_of_vendored h).2]
    exact Vendor.length_lt_apply _ _

theorem nesting_apply (v : Vendor) {c : String} (hc : c ≠ "") :
    nesting (v.apply c) = nesting c + 1 := by
  rw [nesting]
  split
  · next w e h =>
      rw [NameForm.of_apply v hc] at h
      cases h
      rfl
  · next h => exact absurd (NameForm.of_apply v hc) (h v c)

theorem nesting_eq_zero {n : String}
    (h : ∀ v c, NameForm.of n ≠ .vendored v c) : nesting n = 0 := by
  rw [nesting]
  split
  · next v c hform => exact absurd hform (h v c)
  · rfl

theorem nesting_of_isExpandable {c : String} (h : isExpandable c = true) :
    nesting c = 0 :=
  nesting_eq_zero fun v _ hform => ne_apply_of_isExpandable h v
    (NameForm.apply_of_vendored hform).2

theorem nesting_of_vendored {n : String} {v : Vendor} {c : String}
    (h : NameForm.of n = .vendored v c) : nesting n = nesting c + 1 := by
  rw [(NameForm.apply_of_vendored h).2]
  exact nesting_apply v (NameForm.apply_of_vendored h).1

/-- The declarations after one expansion. -/
def fill (ds : List Declaration) : List Declaration := ds ++ missingForms ds

/-- Whether all forms of a name are declared. -/
def Complete (ds : List Declaration) (c : String) : Prop :=
  ∀ n ∈ forms c, declares ds n = true

theorem mem_forms {c n : String} :
    n ∈ forms c ↔ (∃ v : Vendor, n = v.apply c) ∨ n = c := by
  simp [forms, Vendor.mem_all, eq_comm]

theorem declares_append (ds es : List Declaration) (n : String) :
    declares (ds ++ es) n = (declares ds n || declares es n) := by
  simp [declares]

theorem declares_completion {ds : List Declaration} {c : String}
    (hc : c ∈ canonicalNames ds) {n : String} :
    declares (completion ds c) n = true ↔
      n ∈ forms c ∧ declares ds n = false := by
  obtain ⟨first, hfirst⟩ := exists_find?_opens hc
  simp [completion, hfirst, declares]

/-- An expansion declares the forms of the canonical names and no other
name. -/
theorem declares_fill {ds : List Declaration} {n : String} :
    declares (fill ds) n = true ↔
      declares ds n = true ∨ ∃ c ∈ canonicalNames ds, n ∈ forms c := by
  have hmissing : declares (missingForms ds) n = true ↔
      ∃ c ∈ canonicalNames ds, declares (completion ds c) n = true := by
    rw [missingForms_eq]
    simp only [declares, List.any_flatMap, List.any_eq_true]
  rw [fill, declares_append, Bool.or_eq_true, hmissing]
  constructor
  · rintro (h | ⟨c, hc, h⟩)
    · exact Or.inl h
    · exact Or.inr ⟨c, hc, ((declares_completion hc).1 h).1⟩
  · rintro (h | ⟨c, hc, h⟩)
    · exact Or.inl h
    · cases hn : declares ds n with
      | true => exact Or.inl rfl
      | false => exact Or.inr ⟨c, hc, (declares_completion hc).2 ⟨h, hn⟩⟩

theorem missingForms_eq_nil_iff {ds : List Declaration} :
    missingForms ds = [] ↔ ∀ c ∈ canonicalNames ds, Complete ds c := by
  rw [missingForms_eq, List.flatMap_eq_nil_iff]
  refine forall_congr' fun c => forall_congr' fun hc => ?_
  obtain ⟨first, hfirst⟩ := exists_find?_opens hc
  simp [completion, hfirst, Complete]

/-- No form that is filled in is without a name. -/
theorem fill_named {ds : List Declaration} (h : ∀ d ∈ ds, d.name ≠ "") :
    ∀ d ∈ fill ds, d.name ≠ "" := by
  intro d hd hempty
  have hdeclared : declares (fill ds) "" = true := by
    rw [declares, List.any_eq_true]
    exact ⟨d, hd, by rw [hempty]; rfl⟩
  rcases declares_fill.1 hdeclared with hold | ⟨c, hc, hform⟩
  · rw [declares, List.any_eq_true] at hold
    obtain ⟨e, he, hname⟩ := hold
    exact h e he (eq_of_beq hname)
  · rcases mem_forms.1 hform with ⟨v, hv⟩ | hv
    · exact v.apply_ne_empty c hv.symm
    · exact ne_empty_of_mem_canonicalNames hc hv.symm

/-! ## The bound that goes down -/

/-- Canonical names that lack forms bear fewer than `m` marks. -/
def SettledBelow (m : Nat) (ds : List Declaration) : Prop :=
  ∀ c ∈ canonicalNames ds, Complete ds c ∨ nesting c < m

theorem complete_fill {ds : List Declaration} {c : String}
    (hc : c ∈ canonicalNames ds) : Complete (fill ds) c :=
  fun _ hn => declares_fill.2 (Or.inr ⟨c, hc, hn⟩)

/-- A canonical name that an expansion brings about is an incomplete one
without its first mark. -/
theorem exists_apply_of_mem_fill {ds : List Declaration} {c : String}
    (hc : c ∈ canonicalNames (fill ds)) (hnew : c ∉ canonicalNames ds) :
    c ≠ "" ∧ ∃ v : Vendor, v.apply c ∈ canonicalNames ds ∧
      ¬ Complete ds (v.apply c) := by
  rcases mem_canonicalNames_iff.1 hc with ⟨hne, v, hv⟩ | ⟨hself, hlisted⟩
  · have hold : ¬ declares ds (v.apply c) = true := fun h =>
      hnew (mem_canonicalNames_iff.2 (Or.inl ⟨hne, v, h⟩))
    obtain ⟨e, he, hform⟩ := (declares_fill.1 hv).resolve_left hold
    rcases mem_forms.1 hform with ⟨w, hw⟩ | hw
    · rw [(Vendor.apply_inj.1 hw).2] at hnew
      exact absurd he hnew
    · subst hw
      exact ⟨hne, v, he, fun h => hold (h _ hform)⟩
  · have hold : ¬ declares ds c = true := fun h =>
      hnew (mem_canonicalNames_iff.2 (Or.inr ⟨h, hlisted⟩))
    obtain ⟨e, he, hform⟩ := (declares_fill.1 hself).resolve_left hold
    rcases mem_forms.1 hform with ⟨w, hw⟩ | hw
    · exact absurd hw (ne_apply_of_isExpandable hlisted w)
    · exact absurd (hw ▸ he) hnew

/-- Each expansion takes one mark off the bound. -/
theorem settledBelow_fill {m : Nat} {ds : List Declaration}
    (h : SettledBelow (m + 1) ds) : SettledBelow m (fill ds) := by
  intro c hc
  by_cases hold : c ∈ canonicalNames ds
  · exact Or.inl (complete_fill hold)
  · obtain ⟨hne, v, hv, hincomplete⟩ := exists_apply_of_mem_fill hc hold
    have hlt := (h _ hv).resolve_left hincomplete
    rw [nesting_apply v hne] at hlt
    exact Or.inr (by omega)

theorem missingForms_of_settledBelow_zero {ds : List Declaration}
    (h : SettledBelow 0 ds) : missingForms ds = [] :=
  missingForms_eq_nil_iff.2 fun c hc => (h c hc).resolve_right (by omega)

theorem fill_of_settledBelow_zero {ds : List Declaration}
    (h : SettledBelow 0 ds) : fill ds = ds := by
  rw [fill, missingForms_of_settledBelow_zero h, List.append_nil]

/-- A bound on the marks of the declared names, but at least one, bounds those
of the incomplete ones. -/
theorem settledBelow_of_nesting_le {ds : List Declaration} {m : Nat}
    (h : ∀ d ∈ ds, nesting d.name ≤ m) : SettledBelow (max 1 m) ds := by
  intro c hc
  refine Or.inr ?_
  obtain ⟨d, hd, hopens⟩ := mem_canonicalNames.1 hc
  have hle := h d hd
  rcases Declaration.opens_iff.1 hopens with ⟨hne, v, hv⟩ | ⟨hn, hlisted⟩
  · rw [hv, nesting_apply v hne] at hle
    omega
  · rw [nesting_of_isExpandable hlisted]
    omega

/-- Where no canonical name is itself a vendor's form, no name bears two
marks. -/
theorem nesting_le_one {ds : List Declaration}
    (h : ∀ c ∈ canonicalNames ds, nesting c = 0) :
    ∀ d ∈ ds, nesting d.name ≤ 1 := by
  intro d hd
  cases hof : NameForm.of d.name with
  | vendored v c =>
      have hname := NameForm.apply_of_vendored hof
      have hc : c ∈ canonicalNames ds :=
        mem_canonicalNames.2
          ⟨d, hd, Declaration.opens_iff.2 (Or.inl ⟨hname.1, v, hname.2⟩)⟩
      rw [nesting_of_vendored hof, h c hc]
  | plain | dangling =>
      rw [nesting_eq_zero fun v c hof' => by rw [hof] at hof'; cases hof']
      exact Nat.zero_le 1

theorem settledBelow_iterate {m k : Nat} {ds : List Declaration}
    (h : SettledBelow m ds) (hk : m ≤ k) : SettledBelow 0 (fill^[k] ds) := by
  induction k generalizing m ds with
  | zero =>
      rw [Nat.le_zero.1 hk] at h
      exact h
  | succ k ih =>
      rw [Function.iterate_succ_apply]
      cases m with
      | zero =>
          rw [fill_of_settledBelow_zero h]
          exact ih h (Nat.zero_le k)
      | succ m =>
          exact ih (settledBelow_fill h) (Nat.le_of_succ_le_succ hk)

/-! ## Names for which the bound is met -/

/-- A name that bears `m` marks. -/
def nestedName : Nat → String
  | 0 => "x"
  | m + 1 => Vendor.webkit.apply (nestedName m)

/-- Whether the name of `m` marks is declared and no name of fewer. -/
def NestedFrom (m : Nat) (ds : List Declaration) : Prop :=
  declares ds (nestedName m) = true ∧ ∀ d ∈ ds, m ≤ nesting d.name

theorem nestedName_ne_empty (m : Nat) : nestedName m ≠ "" := by
  cases m with
  | zero => decide
  | succ m => exact Vendor.apply_ne_empty _ _

theorem nesting_nestedName (m : Nat) : nesting (nestedName m) = m := by
  induction m with
  | zero =>
      have hof : NameForm.of (nestedName 0) = .plain := by decide
      exact nesting_eq_zero fun v c h => by rw [hof] at h; cases h
  | succ m ih =>
      rw [nestedName, nesting_apply _ (nestedName_ne_empty m), ih]

theorem le_nesting_of_mem_canonicalNames {m : Nat} {ds : List Declaration}
    (h : NestedFrom (m + 1) ds) {c : String} (hc : c ∈ canonicalNames ds) :
    m ≤ nesting c := by
  obtain ⟨d, hd, hopens⟩ := mem_canonicalNames.1 hc
  have hle := h.2 d hd
  rcases Declaration.opens_iff.1 hopens with ⟨hne, v, hv⟩ | ⟨hn, hlisted⟩
  · rw [hv, nesting_apply v hne] at hle
    omega
  · rw [hn, nesting_of_isExpandable hlisted] at hle
    omega

theorem nestedFrom_fill {m : Nat} {ds : List Declaration}
    (h : NestedFrom (m + 1) ds) : NestedFrom m (fill ds) := by
  have hc : nestedName m ∈ canonicalNames ds :=
    mem_canonicalNames_iff.2
      (Or.inl ⟨nestedName_ne_empty m, .webkit, h.1⟩)
  refine ⟨complete_fill hc _ (mem_forms.2 (Or.inr rfl)), fun d hd => ?_⟩
  have hdeclared : declares (fill ds) d.name = true :=
    List.any_eq_true.2 ⟨d, hd, by simp⟩
  rcases declares_fill.1 hdeclared with hold | ⟨c, hc, hform⟩
  · obtain ⟨e, he, hname⟩ := List.any_eq_true.1 hold
    rw [← eq_of_beq hname]
    exact Nat.le_of_succ_le (h.2 e he)
  · have hle := le_nesting_of_mem_canonicalNames h hc
    rcases mem_forms.1 hform with ⟨v, hv⟩ | hn
    · rw [hv, nesting_apply v (ne_empty_of_mem_canonicalNames hc)]
      omega
    · rw [hn]
      exact hle

theorem nestedFrom_iterate {m k : Nat} {ds : List Declaration}
    (h : NestedFrom (m + k) ds) : NestedFrom m (fill^[k] ds) := by
  induction k generalizing ds with
  | zero => exact h
  | succ k ih =>
      rw [Function.iterate_succ_apply]
      exact ih (nestedFrom_fill h)

/-- As long as every name bears a mark, an expansion appends something. -/
theorem missingForms_ne_nil_of_nestedFrom {m : Nat} {ds : List Declaration}
    (h : NestedFrom (m + 1) ds) : missingForms ds ≠ [] := by
  intro hnil
  have hc : nestedName m ∈ canonicalNames ds :=
    mem_canonicalNames_iff.2
      (Or.inl ⟨nestedName_ne_empty m, .webkit, h.1⟩)
  have hdeclared := missingForms_eq_nil_iff.1 hnil _ hc _
    (mem_forms.2 (Or.inr rfl))
  obtain ⟨d, hd, hname⟩ := List.any_eq_true.1 hdeclared
  have hle := h.2 d hd
  rw [eq_of_beq hname, nesting_nestedName] at hle
  omega

/-! ## The least closed set of names -/

/-- The names of declarations. -/
def declaredNames (ds : List Declaration) : Set String :=
  {n | ∃ d ∈ ds, d.name = n}

/-- Whether a set of names holds all forms of `c` whenever it holds a vendor's
form of `c`, or `c` itself where `c` is listed. -/
def FormClosed (S : Set String) : Prop :=
  ∀ c, (c ≠ "" ∧ ∃ v : Vendor, v.apply c ∈ S) ∨ (c ∈ S ∧ c ∈ expandable) →
    ∀ n ∈ forms c, n ∈ S

theorem mem_declaredNames {ds : List Declaration} {n : String} :
    n ∈ declaredNames ds ↔ declares ds n = true := by
  simp [declaredNames, declares]

theorem mem_canonicalNames_iff_declaredNames {ds : List Declaration}
    {c : String} :
    c ∈ canonicalNames ds ↔
      (c ≠ "" ∧ ∃ v : Vendor, v.apply c ∈ declaredNames ds) ∨
        (c ∈ declaredNames ds ∧ c ∈ expandable) := by
  rw [mem_canonicalNames_iff]
  simp only [mem_declaredNames, isExpandable, List.contains_iff_mem]

theorem formClosed_of_settledBelow_zero {ds : List Declaration}
    (h : SettledBelow 0 ds) : FormClosed (declaredNames ds) := by
  intro c hc n hn
  have hcomplete := (h c (mem_canonicalNames_iff_declaredNames.2 hc))
    |>.resolve_right (Nat.not_lt_zero _)
  exact mem_declaredNames.2 (hcomplete n hn)

theorem declaredNames_fill_subset {ds : List Declaration} {S : Set String}
    (hS : FormClosed S) (h : declaredNames ds ⊆ S) :
    declaredNames (fill ds) ⊆ S := by
  intro n hn
  rcases declares_fill.1 (mem_declaredNames.1 hn) with hold | ⟨c, hc, hform⟩
  · exact h (mem_declaredNames.2 hold)
  · refine hS c ?_ n hform
    rcases mem_canonicalNames_iff_declaredNames.1 hc with
      ⟨hne, v, hv⟩ | ⟨hself, hlisted⟩
    · exact Or.inl ⟨hne, v, h hv⟩
    · exact Or.inr ⟨h hself, hlisted⟩

theorem subset_declaredNames_iterate (ds : List Declaration) (k : Nat) :
    declaredNames ds ⊆ declaredNames (fill^[k] ds) := by
  induction k generalizing ds with
  | zero => exact fun n hn => hn
  | succ k ih =>
      intro n hn
      rw [Function.iterate_succ_apply]
      exact ih (fill ds)
        (mem_declaredNames.2 (declares_fill.2 (Or.inl (mem_declaredNames.1 hn))))

/-- Once nothing is missing, the declared names are the least closed set around
those one began with. -/
theorem isLeast_declaredNames {ds : List Declaration} {k : Nat}
    (h : SettledBelow 0 (fill^[k] ds)) :
    IsLeast {S | declaredNames ds ⊆ S ∧ FormClosed S}
      (declaredNames (fill^[k] ds)) := by
  refine ⟨⟨subset_declaredNames_iterate ds k,
    formClosed_of_settledBelow_zero h⟩, ?_⟩
  rintro S ⟨hsub, hclosed⟩
  clear h
  induction k generalizing ds with
  | zero => exact hsub
  | succ k ih =>
      rw [Function.iterate_succ_apply]
      exact ih (declaredNames_fill_subset hclosed hsub)

end CssVendor
