import CssVendor.Group
import CssVendor.Proofs.CanonicalName

/-!
# What gathering finds

`gather` makes one pass with a list of groups and a list of names set aside.
Neither matters in the end: the groups are those of the canonical names, in
order, each represented by the declaration that opens it, and a form is marked
exactly if it is declared, wherever it stands.

The invariant of the pass, `Gathering.Knows`, says which of this is known
after a prefix of the declarations. Only the mark of the standard name lags
behind: a name may have been read before its group was opened. The invariant
therefore ties that mark to the names set aside, and settling closes the gap.
-/

namespace CssVendor

/-- The group of a name among declarations. The mark of the name itself is
given; `d` represents a group that nothing has opened. -/
def groupOf (ds : List Declaration) (d : Declaration) (marked : String → Bool)
    (c : String) : PropertyGroup :=
  ⟨c, (ds.find? (Declaration.opens c)).getD d,
    fun v => declares ds (v.apply c), marked c⟩

/-- The state of the pass after `ds`: the groups are those of the canonical
names, and a declared name is marked in its group or set aside. -/
structure Gathering.Knows (s : Gathering) (ds : List Declaration)
    (marked : String → Bool) : Prop where
  groups : s.groups = (canonicalNames ds).map (groupOf ds default marked)
  marked_mem : ∀ n, marked n = true → n ∈ canonicalNames ds
  declared : ∀ n, n ≠ "" →
    (marked n || s.bare.contains n) = declares ds n

/-! ## Groups listed by name -/

section

variable {names : List String} {g : String → PropertyGroup}

theorem hasGroup_map (hg : ∀ n, (g n).canonical = n) (c : String) :
    hasGroup (names.map g) c = true ↔ c ∈ names := by
  simp [hasGroup, hg]

theorem updateGroup_of_not_mem (hg : ∀ n, (g n).canonical = n) {c : String}
    (hc : c ∉ names) (d : Declaration)
    (change : PropertyGroup → PropertyGroup) :
    updateGroup c d change (names.map g) =
      names.map g ++ [change (.fresh c d)] := by
  induction names with
  | nil => rfl
  | cons n names ih =>
      rw [List.mem_cons, not_or] at hc
      rw [List.map_cons, updateGroup, hg, if_neg (by simpa using Ne.symm hc.1),
        ih hc.2]
      rfl

/-- Changing the group of a name changes it in place, or adds it. -/
theorem updateGroup_map (hg : ∀ n, (g n).canonical = n)
    (hnames : names.Nodup) {c : String} {d : Declaration}
    (hfresh : c ∉ names → g c = .fresh c d)
    (change : PropertyGroup → PropertyGroup) :
    updateGroup c d change (names.map g) =
      (insertName c names).map fun n =>
        if n = c then change (g n) else g n := by
  have hother : ∀ ns : List String, c ∉ ns →
      (ns.map fun n => if n = c then change (g n) else g n) = ns.map g := by
    intro ns hns
    refine List.map_congr_left fun n hn => if_neg ?_
    rintro rfl
    exact hns hn
  by_cases hc : c ∈ names
  · rw [insertName, if_pos hc]
    clear hfresh
    induction names with
    | nil => cases hc
    | cons n names ih =>
        rw [List.nodup_cons] at hnames
        rw [List.map_cons, List.map_cons, updateGroup, hg]
        by_cases hn : n = c
        · subst hn
          rw [if_pos (by simp), if_pos rfl, hother names hnames.1]
        · rw [if_neg (by simpa using hn), if_neg hn,
            ih hnames.2 ((List.mem_cons.1 hc).resolve_left (Ne.symm hn))]
  · rw [insertName, if_neg hc, updateGroup_of_not_mem hg hc, List.map_append,
      hother names hc, List.map_singleton, if_pos rfl, hfresh hc]

end

/-! ## One declaration -/

theorem declares_concat (ds : List Declaration) (d : Declaration)
    (n : String) :
    declares (ds ++ [d]) n = (declares ds n || d.name == n) := by
  simp [declares]

/-- A vendor's form of a name that nothing has opened is not declared. -/
theorem declares_apply_of_not_mem {ds : List Declaration} {c : String}
    (hne : c ≠ "") (hc : c ∉ canonicalNames ds) (v : Vendor) :
    declares ds (v.apply c) = false := by
  rw [← Bool.not_eq_true]
  exact fun h => hc (mem_canonicalNames_iff.2 (Or.inl ⟨hne, v, h⟩))

/-- Before it is opened, the group of a name is fresh. -/
theorem groupOf_eq_fresh {ds : List Declaration} {d : Declaration}
    {marked : String → Bool} {c : String} (hne : c ≠ "")
    (hc : c ∉ canonicalNames ds) (hm : marked c = false) :
    groupOf ds d marked c = .fresh c d := by
  have hfind : ds.find? (Declaration.opens c) = none :=
    List.find?_eq_none.2 fun e he hopens =>
      hc (mem_canonicalNames.2 ⟨e, he, hopens⟩)
  simp only [groupOf, hfind, Option.getD_none, hm,
    declares_apply_of_not_mem hne hc, PropertyGroup.fresh]

/-- The representative of a canonical name is settled by the declarations that
open it. -/
theorem find?_opens_concat {ds : List Declaration} {d : Declaration}
    {c : String} (hc : c ∈ canonicalNames (ds ++ [d])) (e : Declaration) :
    ((ds ++ [d]).find? (Declaration.opens c)).getD e =
      (ds.find? (Declaration.opens c)).getD d := by
  rw [List.find?_append]
  cases hfind : ds.find? (Declaration.opens c) with
  | some _ => rfl
  | none =>
      rw [List.find?_eq_none] at hfind
      rcases mem_canonicalNames_concat.1 hc with h | h
      · obtain ⟨e, he, hopens⟩ := mem_canonicalNames.1 h
        exact absurd hopens (hfind e he)
      · simp [h]

/-- The group of a canonical name does not depend on what stands in for a
missing representative. -/
theorem groupOf_concat_default {ds : List Declaration} {d : Declaration}
    {marked : String → Bool} {c : String}
    (hc : c ∈ canonicalNames (ds ++ [d])) (e f : Declaration) :
    groupOf (ds ++ [d]) e marked c = groupOf (ds ++ [d]) f marked c := by
  rw [groupOf, groupOf, find?_opens_concat hc, find?_opens_concat hc]

theorem groupOf_concat_of_vendored {ds : List Declaration} {d : Declaration}
    {marked : String → Bool} {v : Vendor} {c n : String}
    (hform : NameForm.of d.name = .vendored v c)
    (hn : n ∈ canonicalNames (ds ++ [d])) :
    groupOf (ds ++ [d]) default marked n =
      if n = c then (groupOf ds d marked n).markVendor v
      else groupOf ds d marked n := by
  have hvendors : (fun w => declares (ds ++ [d]) (w.apply n)) =
      fun w : Vendor => (w == v && n == c) || declares ds (w.apply n) := by
    funext w
    have hw : (d.name == w.apply n) = (w == v && n == c) := by
      rw [Bool.eq_iff_iff, beq_iff_eq, (NameForm.apply_of_vendored hform).2,
        Vendor.apply_inj, Bool.and_eq_true, beq_iff_eq, beq_iff_eq,
        eq_comm (a := v), eq_comm (a := c)]
    rw [declares_concat, hw, Bool.or_comm]
  rw [groupOf, find?_opens_concat hn, hvendors]
  by_cases h : n = c
  · simp [h, groupOf, PropertyGroup.markVendor]
  · have hn' : (n == c) = false := by simpa using h
    simp only [h, hn', Bool.and_false, Bool.false_or, if_false]
    rfl

theorem groupOf_concat_of_not_vendored {ds : List Declaration}
    {d : Declaration} {marked : String → Bool} {n : String}
    (hform : ∀ v c, NameForm.of d.name ≠ .vendored v c)
    (hn : n ∈ canonicalNames (ds ++ [d])) :
    groupOf (ds ++ [d]) default marked n = groupOf ds d marked n := by
  have hvendors : (fun w => declares (ds ++ [d]) (w.apply n)) =
      fun w : Vendor => declares ds (w.apply n) := by
    funext w
    have hw : (d.name == w.apply n) = false := by
      rw [beq_eq_false_iff_ne]
      exact fun h => hform w n
        (h ▸ NameForm.of_apply w (ne_empty_of_mem_canonicalNames hn))
    rw [declares_concat, hw, Bool.or_false]
  rw [groupOf, find?_opens_concat hn, hvendors, groupOf]

namespace Gathering

/-- The groups of the canonical names so far, with another declaration to
stand in for a missing representative. -/
theorem Knows.groups_eq {s : Gathering} {ds : List Declaration}
    {marked : String → Bool} (h : s.Knows ds marked) (d : Declaration) :
    s.groups = (canonicalNames ds).map (groupOf ds d marked) := by
  rw [h.groups]
  refine List.map_congr_left fun c hc => ?_
  obtain ⟨e, he, hopens⟩ := mem_canonicalNames.1 hc
  have hsome : (ds.find? (Declaration.opens c)).isSome := by
    rw [List.find?_isSome]
    exact ⟨e, he, hopens⟩
  obtain ⟨f, hf⟩ := Option.isSome_iff_exists.1 hsome
  rw [groupOf, groupOf, hf]
  rfl

/-- The second half of reading a declaration: its name is marked in its group,
which is opened if the name is listed, or else set aside. -/
theorem knows_readStandard {s : Gathering} {ds : List Declaration}
    {d : Declaration} {marked : String → Bool} {names : List String}
    (hgroups : s.groups = names.map (groupOf (ds ++ [d]) default marked))
    (hnames : names.Nodup)
    (hcanonical : canonicalNames (ds ++ [d]) =
      if isExpandable d.name then insertName d.name names else names)
    (hfresh : isExpandable d.name = true → d.name ∉ names →
      groupOf (ds ++ [d]) d marked d.name = .fresh d.name d)
    (hmarked : ∀ n, marked n = true → n ∈ names)
    (hdeclared : ∀ n, n ≠ "" → (marked n || s.bare.contains n) = declares ds n) :
    ∃ marked', (s.readStandard d).Knows (ds ++ [d]) marked' := by
  have hsub : ∀ n ∈ names, n ∈ canonicalNames (ds ++ [d]) := by
    intro n hn
    rw [hcanonical]
    split
    · exact mem_insertName.2 (Or.inl hn)
    · exact hn
  have hgroups' : s.groups = names.map (groupOf (ds ++ [d]) d marked) := by
    rw [hgroups]
    exact List.map_congr_left fun n hn => groupOf_concat_default (hsub n hn) _ _
  have hhas : hasGroup s.groups d.name = true ↔ d.name ∈ names := by
    rw [hgroups]
    exact hasGroup_map (fun _ => rfl) d.name
  rw [readStandard]
  split
  · next htouch =>
      rw [Bool.or_eq_true, hhas] at htouch
      have hinsert : canonicalNames (ds ++ [d]) = insertName d.name names := by
        rw [hcanonical]
        split
        · rfl
        · next hnot =>
            rw [insertName, if_pos (htouch.resolve_right hnot)]
      refine ⟨fun n => marked n || n == d.name, ?_, ?_, ?_⟩
      · rw [hgroups', updateGroup_map (fun _ => rfl) hnames
          (fun hnot => hfresh (htouch.resolve_left hnot) hnot), ← hinsert]
        refine List.map_congr_left fun n hn => ?_
        rw [groupOf_concat_default hn default d]
        by_cases h : n = d.name
        · simp [h, groupOf, PropertyGroup.markUnprefixed]
        · simp [h, groupOf]
      · intro n hn
        rw [hinsert, mem_insertName]
        simp only [Bool.or_eq_true, beq_iff_eq] at hn
        exact hn.imp_left (hmarked n)
      · intro n hn
        rw [declares_concat, ← hdeclared n hn, Bool.or_right_comm,
          Bool.beq_comm]
  · next hpass =>
      rw [Bool.or_eq_true, hhas, not_or] at hpass
      have hsame : canonicalNames (ds ++ [d]) = names := by
        rw [hcanonical, if_neg hpass.2]
      refine ⟨marked, ?_, ?_, ?_⟩
      · rw [hsame]
        exact hgroups
      · rw [hsame]
        exact hmarked
      · intro n hn
        rw [declares_concat, ← hdeclared n hn, List.contains_cons,
          Bool.beq_comm, Bool.or_comm (d.name == n), Bool.or_assoc]

/-- A declaration that opens no group leaves the groups as they are. -/
theorem Knows.groups_concat {s : Gathering} {ds : List Declaration}
    {d : Declaration} {marked : String → Bool} (h : s.Knows ds marked)
    (hform : ∀ v c, NameForm.of d.name ≠ .vendored v c) :
    s.groups = (canonicalNames ds).map (groupOf (ds ++ [d]) default marked) := by
  rw [h.groups_eq d]
  refine List.map_congr_left fun n hn => ?_
  exact (groupOf_concat_of_not_vendored hform
    (mem_canonicalNames_concat.2 (Or.inl hn))).symm

/-- A declaration without a name tells nothing. -/
theorem Knows.read_empty {s : Gathering} {ds : List Declaration}
    {marked : String → Bool} (h : s.Knows ds marked) {d : Declaration}
    (hempty : d.name = "") : s.Knows (ds ++ [d]) marked := by
  have hform : ∀ v c, NameForm.of d.name ≠ .vendored v c := by
    intro v c hv
    exact v.apply_ne_empty c ((NameForm.apply_of_vendored hv).2 ▸ hempty)
  have hsame : canonicalNames (ds ++ [d]) = canonicalNames ds := by
    have : d.opened? = none := by
      rw [Declaration.opened?, hempty]
      decide
    rw [canonicalNames_concat, this, Option.elim_none]
  refine ⟨?_, ?_, ?_⟩
  · rw [hsame]
    exact h.groups_concat hform
  · rw [hsame]
    exact h.marked_mem
  · intro n hn
    have hd : (d.name == n) = false := by
      rw [beq_eq_false_iff_ne, hempty]
      exact Ne.symm hn
    rw [declares_concat, hd, Bool.or_false]
    exact h.declared n hn

/-- A vendor's form opens the group of its canonical name, or adds a mark to
it. -/
theorem Knows.read_vendored {s : Gathering} {ds : List Declaration}
    {marked : String → Bool} (h : s.Knows ds marked) {d : Declaration}
    {v : Vendor} {c : String} (hform : NameForm.of d.name = .vendored v c) :
    ∃ marked', ((s.readVendor d).readStandard d).Knows (ds ++ [d]) marked' := by
  obtain ⟨hc, hname⟩ := NameForm.apply_of_vendored hform
  have hplain : isExpandable d.name = false := by
    rw [← Bool.not_eq_true]
    exact fun hlisted => ne_apply_of_isExpandable hlisted v hname
  have hinsert : canonicalNames (ds ++ [d]) =
      insertName c (canonicalNames ds) := by
    rw [canonicalNames_concat, Declaration.opened?, hform]
    rfl
  have hread : s.readVendor d =
      { s with groups := updateGroup c d (.markVendor v) s.groups } := by
    rw [readVendor, hform]
  rw [hread]
  refine knows_readStandard ?_ (nodup_canonicalNames (ds ++ [d]))
    (by rw [hplain]; rfl) (fun hlisted => ?_) (fun n hn => ?_) h.declared
  · have hfresh : c ∉ canonicalNames ds →
        groupOf ds d marked c = .fresh c d := by
      intro hnot
      refine groupOf_eq_fresh hc hnot ?_
      rw [← Bool.not_eq_true]
      exact fun hm => hnot (h.marked_mem c hm)
    rw [h.groups_eq d, updateGroup_map (fun _ => rfl)
      (nodup_canonicalNames ds) hfresh, ← hinsert]
    refine List.map_congr_left fun n hn => ?_
    exact (groupOf_concat_of_vendored hform hn).symm
  · rw [hplain] at hlisted
    cases hlisted
  · exact mem_canonicalNames_concat.2 (Or.inl (h.marked_mem n hn))

/-- Any other name opens its own group if it is listed. -/
theorem Knows.read_plain {s : Gathering} {ds : List Declaration}
    {marked : String → Bool} (h : s.Knows ds marked) {d : Declaration}
    (hform : ∀ v c, NameForm.of d.name ≠ .vendored v c) :
    ∃ marked', ((s.readVendor d).readStandard d).Knows (ds ++ [d]) marked' := by
  have hopened : d.opened? =
      if isExpandable d.name then some d.name else none := by
    rw [Declaration.opened?]
    split
    · next v c hv => exact absurd hv (hform v c)
    · rfl
  have hread : s.readVendor d = s := by
    rw [readVendor]
    split
    · next v c hv => exact absurd hv (hform v c)
    · rfl
  rw [hread]
  refine knows_readStandard (h.groups_concat hform)
    (nodup_canonicalNames ds) ?_ (fun hlisted hnot => ?_) h.marked_mem
    h.declared
  · rw [canonicalNames_concat, hopened]
    split <;> rfl
  · have hopens : d.opens d.name = true :=
      Declaration.opens_iff.2 (Or.inr ⟨rfl, hlisted⟩)
    have hmem : d.name ∈ canonicalNames (ds ++ [d]) :=
      mem_canonicalNames_concat.2 (Or.inr hopens)
    rw [groupOf_concat_default hmem d default,
      groupOf_concat_of_not_vendored hform hmem]
    refine groupOf_eq_fresh (ne_empty_of_isExpandable hlisted) hnot ?_
    rw [← Bool.not_eq_true]
    exact fun hm => hnot (h.marked_mem _ hm)

/-- Reading one declaration, whatever its name, keeps the invariant. -/
theorem Knows.read {s : Gathering} {ds : List Declaration}
    {marked : String → Bool} (h : s.Knows ds marked) (d : Declaration) :
    ∃ marked', (s.read d).Knows (ds ++ [d]) marked' := by
  rw [Gathering.read]
  split
  · next hempty => exact ⟨marked, h.read_empty (eq_of_beq hempty)⟩
  · by_cases hform : ∃ v c, NameForm.of d.name = .vendored v c
    · obtain ⟨v, c, hform⟩ := hform
      exact h.read_vendored hform
    · exact h.read_plain fun v c hv => hform ⟨v, c, hv⟩

/-- The pass over a list of declarations keeps the invariant. -/
theorem Knows.foldl_read {s : Gathering} {ds : List Declaration}
    {marked : String → Bool} (h : s.Knows ds marked) (es : List Declaration) :
    ∃ marked', (es.foldl Gathering.read s).Knows (ds ++ es) marked' := by
  induction es generalizing s ds marked with
  | nil => exact ⟨marked, by simpa using h⟩
  | cons e es ih =>
      obtain ⟨marked', h'⟩ := h.read e
      rw [List.foldl_cons, List.append_cons]
      exact ih h'

theorem knows_nil : Knows ⟨[], []⟩ [] fun _ => false := by
  refine ⟨rfl, ?_, ?_⟩
  · intro n hn
    cases hn
  · intro n _
    rfl

end Gathering

/-- The groups of a list of declarations are those of its canonical names: each
is represented by the declaration that opens it, and its marks say which forms
are declared, before or after that declaration. -/
theorem gather_eq (ds : List Declaration) :
    gather ds =
      (canonicalNames ds).map (groupOf ds default (declares ds)) := by
  obtain ⟨marked, h⟩ := Gathering.knows_nil.foldl_read ds
  rw [List.nil_append] at h
  rw [gather, Gathering.settle, h.groups, List.map_map]
  refine List.map_congr_left fun c hc => ?_
  have hdeclared := h.declared c (ne_empty_of_mem_canonicalNames hc)
  rw [Function.comp_apply]
  split
  · next hbare =>
      rw [show (groupOf ds default marked c).canonical = c from rfl] at hbare
      rw [hbare, Bool.or_true] at hdeclared
      rw [groupOf, groupOf, ← hdeclared]
      rfl
  · next hbare =>
      rw [show (groupOf ds default marked c).canonical = c from rfl,
        Bool.not_eq_true] at hbare
      rw [hbare, Bool.or_false] at hdeclared
      rw [groupOf, groupOf, hdeclared]

end CssVendor
