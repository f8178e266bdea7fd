import CssVendor.Declaration
import CssVendor.Proofs.VendorName
import Mathlib.Data.List.Induction

/-!
# The canonical names of a block

Which properties of a block are completed is a matter of its declared names
alone: `c` is a canonical name if some vendor's form of it is declared, or if
it is listed and declared itself. A declaration that makes it one opens it.
`canonicalNames` puts these names in the order of the declarations that open
them. A declaration opens one name at most, since no listed name bears a
vendor's mark, so that order is strict.
-/

namespace CssVendor

/-- Whether a name is declared. -/
def declares (ds : List Declaration) (n : String) : Bool :=
  ds.any fun d => d.name == n

/-- The five forms of a name, in the order in which missing ones are
appended. -/
def forms (c : String) : List String :=
  (Vendor.all.map fun v => v.apply c) ++ [c]

namespace Declaration

/-- Whether the declaration makes `c` a canonical name of its block: it is a
vendor's form of `c`, or `c` itself where `c` is listed. -/
def opens (c : String) (d : Declaration) : Bool :=
  (c != "" && Vendor.all.any fun v => d.name == v.apply c) ||
    (d.name == c && isExpandable c)

/-- The canonical name that the declaration opens. -/
def opened? (d : Declaration) : Option String :=
  match NameForm.of d.name with
  | .vendored _ c => some c
  | _ => if isExpandable d.name then some d.name else none

theorem opens_iff {d : Declaration} {c : String} :
    d.opens c = true ↔
      (c ≠ "" ∧ ∃ v : Vendor, d.name = v.apply c) ∨
        d.name = c ∧ isExpandable c = true := by
  have hall : ∀ v : Vendor, v ∈ Vendor.all := Vendor.mem_all
  simp [opens, hall]

theorem opens_iff_opened? {d : Declaration} {c : String} :
    d.opens c = true ↔ d.opened? = some c := by
  rw [opens_iff, opened?]
  cases hform : NameForm.of d.name with
  | vendored v e =>
      obtain ⟨he, hn⟩ := NameForm.apply_of_vendored hform
      constructor
      · rintro (⟨hc, w, hw⟩ | ⟨hw, hlisted⟩)
        · rw [hn] at hw
          rw [(Vendor.apply_inj.1 hw).2]
        · exact absurd (hw.symm.trans hn) (ne_apply_of_isExpandable hlisted v)
      · intro h
        obtain rfl : e = c := by simpa using h
        exact Or.inl ⟨he, v, hn⟩
  | dangling _ | plain =>
      have hplain : ¬ (c ≠ "" ∧ ∃ v : Vendor, d.name = v.apply c) := by
        rintro ⟨hc, v, hv⟩
        rw [hv, NameForm.of_apply v hc] at hform
        cases hform
      constructor
      · rintro (h | ⟨rfl, hlisted⟩)
        · exact absurd h hplain
        · simp [hlisted]
      · intro h
        by_cases hlisted : isExpandable d.name = true
        · obtain rfl : d.name = c := by simpa [hlisted] using h
          exact Or.inr ⟨rfl, hlisted⟩
        · simp [hlisted] at h

/-- What a declaration opens is not empty. -/
theorem ne_empty_of_opens {d : Declaration} {c : String}
    (h : d.opens c = true) : c ≠ "" := by
  rcases opens_iff.1 h with ⟨hc, -⟩ | ⟨-, hlisted⟩
  · exact hc
  · exact ne_empty_of_isExpandable hlisted

end Declaration

/-! ## Names in the order in which they are opened -/

/-- The names with one more at the end, unless it is among them. -/
def insertName (c : String) (names : List String) : List String :=
  if c ∈ names then names else names ++ [c]

/-- The names that declarations open, each once, in the order of the first
declarations that open them. -/
def canonicalNames (ds : List Declaration) : List String :=
  ds.foldl (fun names d => d.opened?.elim names fun c => insertName c names) []

theorem mem_insertName {c n : String} {names : List String} :
    n ∈ insertName c names ↔ n ∈ names ∨ n = c := by
  rw [insertName]
  split
  · next h =>
      constructor
      · exact Or.inl
      · rintro (hn | rfl)
        · exact hn
        · exact h
  · simp

theorem canonicalNames_concat (ds : List Declaration) (d : Declaration) :
    canonicalNames (ds ++ [d]) =
      d.opened?.elim (canonicalNames ds) fun c =>
        insertName c (canonicalNames ds) := by
  simp [canonicalNames, List.foldl_append]

/-- Reading one more declaration adds at most the name that it opens. -/
theorem mem_canonicalNames_concat {ds : List Declaration} {d : Declaration}
    {c : String} :
    c ∈ canonicalNames (ds ++ [d]) ↔
      c ∈ canonicalNames ds ∨ d.opens c = true := by
  rw [canonicalNames_concat, Declaration.opens_iff_opened?]
  cases d.opened? with
  | none => simp
  | some e => rw [Option.elim_some, mem_insertName, Option.some.injEq, eq_comm]

/-- A name is canonical exactly if some declaration opens it. -/
theorem mem_canonicalNames {ds : List Declaration} {c : String} :
    c ∈ canonicalNames ds ↔ ∃ d ∈ ds, d.opens c = true := by
  induction ds using List.reverseRecOn with
  | nil => simp [canonicalNames]
  | append_singleton ds d ih =>
      rw [mem_canonicalNames_concat, ih]
      constructor
      · rintro (⟨e, he, hc⟩ | hc)
        · exact ⟨e, List.mem_append_left _ he, hc⟩
        · exact ⟨d, by simp, hc⟩
      · rintro ⟨e, he, hc⟩
        rcases List.mem_append.1 he with he | he
        · exact Or.inl ⟨e, he, hc⟩
        · rw [List.mem_singleton.1 he] at hc
          exact Or.inr hc

/-- The canonical names in terms of declared names alone. -/
theorem mem_canonicalNames_iff {ds : List Declaration} {c : String} :
    c ∈ canonicalNames ds ↔
      (c ≠ "" ∧ ∃ v : Vendor, declares ds (v.apply c) = true) ∨
        declares ds c = true ∧ isExpandable c = true := by
  rw [mem_canonicalNames]
  simp only [declares, List.any_eq_true, beq_iff_eq]
  constructor
  · rintro ⟨d, hd, hopens⟩
    rcases Declaration.opens_iff.1 hopens with ⟨hc, v, hv⟩ | ⟨hn, hlisted⟩
    · exact Or.inl ⟨hc, v, d, hd, hv⟩
    · exact Or.inr ⟨⟨d, hd, hn⟩, hlisted⟩
  · rintro (⟨hc, v, d, hd, hv⟩ | ⟨⟨d, hd, hn⟩, hlisted⟩)
    · exact ⟨d, hd, Declaration.opens_iff.2 (Or.inl ⟨hc, v, hv⟩)⟩
    · exact ⟨d, hd, Declaration.opens_iff.2 (Or.inr ⟨hn, hlisted⟩)⟩

theorem ne_empty_of_mem_canonicalNames {ds : List Declaration} {c : String}
    (h : c ∈ canonicalNames ds) : c ≠ "" := by
  obtain ⟨d, -, hopens⟩ := mem_canonicalNames.1 h
  exact Declaration.ne_empty_of_opens hopens

/-- Where a name is opened, if it is, does not change when more declarations
follow. -/
theorem findIdx_opens_append {ds es : List Declaration} {c : String}
    (h : c ∈ canonicalNames ds) :
    (ds ++ es).findIdx (Declaration.opens c) =
      ds.findIdx (Declaration.opens c) := by
  rw [List.findIdx_append, if_pos]
  exact List.findIdx_lt_length.2 (mem_canonicalNames.1 h)

/-- The canonical names stand in the order of the declarations that open
them. -/
theorem pairwise_canonicalNames (ds : List Declaration) :
    (canonicalNames ds).Pairwise fun c e =>
      ds.findIdx (Declaration.opens c) < ds.findIdx (Declaration.opens e) := by
  induction ds using List.reverseRecOn with
  | nil => exact List.Pairwise.nil
  | append_singleton ds d ih =>
      have hold : (canonicalNames ds).Pairwise fun c e =>
          (ds ++ [d]).findIdx (Declaration.opens c) <
            (ds ++ [d]).findIdx (Declaration.opens e) := by
        refine List.Pairwise.imp_of_mem (fun hc he hlt => ?_) ih
        rw [findIdx_opens_append hc, findIdx_opens_append he]
        exact hlt
      rw [canonicalNames_concat]
      cases hd : d.opened? with
      | none => exact hold
      | some e =>
          rw [Option.elim_some, insertName]
          split
          · exact hold
          · next hnew =>
              refine List.pairwise_append.2
                ⟨hold, List.pairwise_singleton _ _, fun c hc n hn => ?_⟩
              rw [List.mem_singleton.1 hn, findIdx_opens_append hc,
                List.findIdx_append, if_neg]
              · have := List.findIdx_lt_length.2 (mem_canonicalNames.1 hc)
                omega
              · rw [List.findIdx_lt_length]
                exact fun hex => hnew (mem_canonicalNames.2 hex)

theorem nodup_canonicalNames (ds : List Declaration) :
    (canonicalNames ds).Nodup := by
  refine List.Pairwise.imp (fun hlt heq => ?_) (pairwise_canonicalNames ds)
  rw [heq] at hlt
  exact absurd hlt (Nat.lt_irrefl _)

end CssVendor
