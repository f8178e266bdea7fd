import CssVendor.Proofs.Multiplicity

/-!
# Expansion and the set of names

What an expansion appends is decided by which names are declared, and by
nothing else about them: not by their order, nor by how often they are
declared or with what payload. For which names count as canonical is a matter
of that set alone, and so is which of their forms are missing. The order of
the declarations decides only in which order the missing forms come, and their
payloads only what they carry.

More names can only bring about more: a form that is filled in for some names
is declared or filled in for any larger set of them.
-/

namespace CssVendor

variable {ds es : List Declaration}

theorem declares_congr (h : declaredNames ds = declaredNames es) (n : String) :
    declares ds n = declares es n := by
  rw [Bool.eq_iff_iff, ← mem_declaredNames, ← mem_declaredNames, h]

theorem perm_canonicalNames (h : declaredNames ds = declaredNames es) :
    (canonicalNames ds).Perm (canonicalNames es) := by
  refine (List.perm_ext_iff_of_nodup (nodup_canonicalNames ds)
    (nodup_canonicalNames es)).2 fun c => ?_
  rw [mem_canonicalNames_iff_declaredNames,
    mem_canonicalNames_iff_declaredNames, h]

/-- The names of what is appended, without a word about payloads. -/
theorem names_missingForms (ds : List Declaration) :
    (missingForms ds).map Declaration.name =
      (canonicalNames ds).flatMap fun c =>
        (forms c).filter fun n => !declares ds n := by
  rw [missingForms_eq, List.map_flatMap]
  refine List.flatMap_congr fun c hc => ?_
  rw [completion_eq hc, List.map_map]
  exact List.map_id'' (fun _ => rfl) _

/-- Declarations of the same names lack the same forms. -/
theorem perm_names_missingForms (h : declaredNames ds = declaredNames es) :
    ((missingForms ds).map Declaration.name).Perm
      ((missingForms es).map Declaration.name) := by
  have hmissing : ∀ c, ((forms c).filter fun n => !declares ds n) =
      (forms c).filter fun n => !declares es n := fun c =>
    List.filter_congr fun n _ => by rw [declares_congr h]
  rw [names_missingForms, names_missingForms]
  simp only [hmissing]
  exact (perm_canonicalNames h).flatMap_right _

theorem canonicalNames_subset (h : declaredNames ds ⊆ declaredNames es) :
    canonicalNames ds ⊆ canonicalNames es := by
  intro c hc
  rw [mem_canonicalNames_iff_declaredNames] at hc ⊢
  rcases hc with ⟨hne, v, hv⟩ | ⟨hself, hlisted⟩
  · exact Or.inl ⟨hne, v, h hv⟩
  · exact Or.inr ⟨h hself, hlisted⟩

/-- More names before an expansion are more names behind it. -/
theorem declaredNames_fill_mono (h : declaredNames ds ⊆ declaredNames es) :
    declaredNames (fill ds) ⊆ declaredNames (fill es) := by
  intro n hn
  rw [mem_declaredNames, declares_fill] at hn ⊢
  rcases hn with hold | ⟨c, hc, hform⟩
  · exact Or.inl (mem_declaredNames.1 (h (mem_declaredNames.2 hold)))
  · exact Or.inr ⟨c, canonicalNames_subset h hc, hform⟩

/-- Expanding two blocks whose properties all have names. If they declare the
same names, in whatever order, however often and with whatever payloads, the
same number of forms is appended to both, and the names of what is appended are
the same up to their order. If one declares no name but those of the other,
that holds of the two expanded blocks as well. -/
theorem expand_depends_on_names {b b' : Block} (hroot : b.isRoot = false)
    (hroot' : b'.isRoot = false) (hnamed : ∀ d ∈ b.declarations, d.name ≠ "")
    (hnamed' : ∀ d ∈ b'.declarations, d.name ≠ "") :
    ∃ (e e' : Expansion) (appended appended' : List Declaration),
      b.expand = .ok e ∧ b'.expand = .ok e' ∧
      e.block.declarations = b.declarations ++ appended ∧
      e'.block.declarations = b'.declarations ++ appended' ∧
      (declaredNames b.declarations = declaredNames b'.declarations →
        e.added = e'.added ∧ (appended.map Declaration.name).Perm
          (appended'.map Declaration.name)) ∧
      (declaredNames b.declarations ⊆ declaredNames b'.declarations →
        declaredNames e.block.declarations ⊆
          declaredNames e'.block.declarations) := by
  refine ⟨_, _, missingForms b.declarations, missingForms b'.declarations,
    Block.expand_of_named hroot hnamed, Block.expand_of_named hroot' hnamed',
    rfl, rfl, fun hsame => ?_, declaredNames_fill_mono⟩
  have hperm := perm_names_missingForms hsame
  refine ⟨?_, hperm⟩
  have hlength := hperm.length_eq
  rw [List.length_map, List.length_map] at hlength
  exact hlength

/-- An unlisted name before and behind its vendored sibling, once more often
and with other payloads: three forms are missing in both blocks. A third block
declares less, and lacks more. -/
theorem expand_depends_on_names_reordered :
    let b : Block := ⟨.style ["a"],
      [⟨"x", "1", false⟩, ⟨"-moz-x", "2", true⟩], []⟩
    let b' : Block := ⟨.atRule "media" "print",
      [⟨"-moz-x", "3", false⟩, ⟨"x", "4", true⟩, ⟨"-moz-x", "5", false⟩], []⟩
    let c : Block := ⟨.style ["b"], [⟨"-moz-x", "6", false⟩], []⟩
    ∃ e e' f : Expansion, b.expand = .ok e ∧ b'.expand = .ok e' ∧
      c.expand = .ok f ∧ e.added = 3 ∧ e'.added = 3 ∧ f.added = 4 ∧
      declaredNames f.block.declarations ⊆
        declaredNames e.block.declarations := by
  intro b b' c
  have hsame : declaredNames b.declarations = declaredNames b'.declarations := by
    ext n
    simp only [declaredNames, b, b', List.mem_cons, List.not_mem_nil, or_false,
      Set.mem_ofPred_eq, exists_eq_or_imp, exists_eq_left]
    tauto
  have hsubset : declaredNames c.declarations ⊆ declaredNames b.declarations := by
    intro n hn
    simp only [declaredNames, b, c, List.mem_cons, List.not_mem_nil, or_false,
      Set.mem_ofPred_eq, exists_eq_or_imp, exists_eq_left] at hn ⊢
    exact Or.inr hn
  have hroot : b.isRoot = false := rfl
  have hroot' : b'.isRoot = false := rfl
  have hroot'' : c.isRoot = false := rfl
  obtain ⟨e, e', _, _, he, he', -, -, hperm, -⟩ :=
    expand_depends_on_names hroot hroot' (by decide) (by decide)
  obtain ⟨f, e'', _, _, hf, he'', -, -, -, hmono⟩ :=
    expand_depends_on_names hroot'' hroot (by decide) (by decide)
  rw [he] at he''
  cases he''
  have hadded : b.expand.map Expansion.added = .ok 3 := by decide +kernel
  have hadded' : c.expand.map Expansion.added = .ok 4 := by decide +kernel
  rw [he] at hadded
  rw [hf] at hadded'
  have hthree : e.added = 3 := Except.ok.inj hadded
  exact ⟨e, e', f, he, he', hf, hthree, (hperm hsame).1 ▸ hthree,
    Except.ok.inj hadded', hmono hsubset⟩

end CssVendor
