import CssVendor.Vendor

/-!
# Reading a name undoes marking it

`NameForm.of` looks for hyphens, `Vendor.apply` writes them, and the two agree:
a name reads as a vendor's form exactly if it is that vendor's mark on a name
that is not empty. So no name has two readings, and a listed name, which begins
without a hyphen, has none. Everything said about groups of forms rests on
these facts and not on how a name is cut.
-/

namespace CssVendor

namespace Vendor

/-- A marked name determines both its vendor and what was marked. -/
theorem apply_inj {v w : Vendor} {c e : String} :
    v.apply c = w.apply e ↔ v = w ∧ c = e := by
  constructor
  · intro h
    have h' : (v.apply c).toList = (w.apply e).toList := by rw [h]
    cases v <;> cases w <;> simp [apply, marker] at h' ⊢ <;>
      exact String.toList_inj.1 h'
  · rintro ⟨rfl, rfl⟩
    rfl

theorem apply_ne_empty (v : Vendor) (c : String) : v.apply c ≠ "" := by
  intro h
  have h' : (v.apply c).toList = [] := by rw [h]; rfl
  cases v <;> simp [apply, marker] at h'

/-- A marked name is longer than what was marked. -/
theorem length_lt_apply (v : Vendor) (c : String) :
    c.length < (v.apply c).length := by
  rw [apply, String.length_append, String.length_append]
  have : 0 < "-".length := by decide
  omega

theorem marker_of_ofMarker? {text : String} {v : Vendor}
    (h : ofMarker? text = some v) : v.marker = text :=
  eq_of_beq (List.find?_some (p := fun w : Vendor => w.marker == text) h)

end Vendor

namespace NameForm

theorem of_apply (v : Vendor) {c : String} (hc : c ≠ "") :
    of (v.apply c) = .vendored v c := by
  have hmarker : Vendor.ofMarker? v.marker = some v := by cases v <;> decide
  cases v <;> simp [Vendor.marker] at hmarker <;>
    simp [of, ofChars, Vendor.apply, Vendor.marker, hmarker, hc]

theorem apply_of_vendored {n : String} {v : Vendor} {c : String}
    (h : of n = .vendored v c) : c ≠ "" ∧ n = v.apply c := by
  rw [of, ofChars.eq_def] at h
  split at h
  · next rest hn =>
      simp only [] at h
      split at h
      · cases h
      · next w hw =>
          split at h
          · cases h
          · next hne =>
              injection h with hv hc
              subst hv hc
              -- What follows the marker begins with the second hyphen.
              cases hdrop : rest.dropWhile (· != '-') with
              | nil => simp [hdrop] at hne
              | cons x canonical =>
                  have hx := List.head?_dropWhile_not (· != '-') rest
                  simp only [hdrop, List.head?_cons, bne_eq_false_iff_eq]
                    at hx
                  have hrest : rest.takeWhile (· != '-') ++ '-' :: canonical
                      = rest := by
                    have := List.takeWhile_append_dropWhile
                      (p := (· != '-')) (l := rest)
                    rwa [hdrop, hx] at this
                  constructor
                  · intro hc
                    have : canonical = [] := by
                      simpa using congrArg String.toList hc
                    simp [hdrop, this] at hne
                  · apply String.toList_inj.1
                    rw [Vendor.apply, Vendor.marker_of_ofMarker? hw, hn]
                    simpa using hrest.symm
  · cases h

end NameForm

/-! ## Listed names -/

theorem ne_empty_of_isExpandable {c : String} (h : isExpandable c = true) :
    c ≠ "" := by
  rintro rfl
  exact absurd h (by decide)

/-- A listed name bears no vendor's mark. -/
theorem ne_apply_of_isExpandable {c e : String} (h : isExpandable c = true)
    (v : Vendor) : c ≠ v.apply e := by
  have hall : ∀ n ∈ expandable, n.toList.head? ≠ some '-' := by decide
  intro hc
  apply hall c (by simpa [isExpandable] using h)
  rw [hc]
  cases v <;> simp [Vendor.apply, Vendor.marker]

end CssVendor
