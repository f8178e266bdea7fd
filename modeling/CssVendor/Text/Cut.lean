/-!
# Cutting a text at a byte

A text is a list of characters here, and offsets into its UTF-8 encoding count
bytes. `splitAtByte?` cuts at such an offset, and has no answer where the
encoding cannot be cut: inside a character, and behind the end of the text. A
function that works with offsets is safe if it has an answer for every text.
-/

namespace CssVendor.Text

/-- The number of bytes of a text in UTF-8. -/
def byteSize : List Char → Nat
  | [] => 0
  | c :: s => c.utf8Size + byteSize s

/-- The parts of a text before and behind its first `n` bytes, unless the cut
falls inside a character or behind the end. -/
def splitAtByte? : Nat → List Char → Option (List Char × List Char)
  | 0, s => some ([], s)
  | _ + 1, [] => none
  | n + 1, c :: s =>
      if c.utf8Size ≤ n + 1 then
        (splitAtByte? (n + 1 - c.utf8Size) s).map fun (a, b) => (c :: a, b)
      else none

/-- The number of bytes before the first character for which `p` holds. -/
def byteIndex? (p : Char → Bool) : List Char → Option Nat
  | [] => none
  | c :: s => if p c then some 0 else (byteIndex? p s).map (c.utf8Size + ·)

variable {s a b : List Char} {n : Nat}

@[simp] theorem byteSize_nil : byteSize [] = 0 := rfl

@[simp] theorem byteSize_cons (c : Char) (s : List Char) :
    byteSize (c :: s) = c.utf8Size + byteSize s := rfl

@[simp] theorem byteSize_append (s t : List Char) :
    byteSize (s ++ t) = byteSize s + byteSize t := by
  induction s with
  | nil => simp
  | cons c s ih => simp [ih, Nat.add_assoc]

theorem byteSize_eq_length (h : ∀ c ∈ s, c.utf8Size = 1) :
    byteSize s = s.length := by
  induction s with
  | nil => rfl
  | cons c s ih =>
      rw [byteSize_cons, h c (by simp), ih fun d hd => h d (by simp [hd]),
        List.length_cons, Nat.add_comm]

/-- The bytes counted are those of the text as a string. -/
theorem byteSize_eq_utf8ByteSize (s : List Char) :
    byteSize s = (String.ofList s).utf8ByteSize := by
  induction s with
  | nil => rfl
  | cons c s ih =>
      rw [byteSize_cons, ih, ← List.singleton_append, String.ofList_append,
        String.utf8ByteSize_append, ← String.singleton_eq_ofList,
        String.utf8ByteSize_singleton]

theorem splitAtByte?_append (a b : List Char) :
    splitAtByte? (byteSize a) (a ++ b) = some (a, b) := by
  induction a with
  | nil => rw [byteSize_nil, splitAtByte?]; rfl
  | cons c a ih =>
      obtain ⟨n, hn⟩ : ∃ n, c.utf8Size = n + 1 :=
        ⟨c.utf8Size - 1, by have := c.utf8Size_pos; omega⟩
      have hsize : byteSize (c :: a) = (n + byteSize a) + 1 := by
        rw [byteSize_cons, hn]
        omega
      have hrest : n + byteSize a + 1 - c.utf8Size = byteSize a := by omega
      rw [hsize, List.cons_append, splitAtByte?, if_pos (by omega), hrest, ih]
      rfl

/-- A cut leaves two parts that make up the text, the first of them with the
given number of bytes. -/
theorem splitAtByte?_eq_some_iff :
    splitAtByte? n s = some (a, b) ↔ s = a ++ b ∧ byteSize a = n := by
  constructor
  · intro h
    induction s generalizing n a with
    | nil =>
        cases n with
        | zero =>
            cases h
            exact ⟨rfl, rfl⟩
        | succ n => cases h
    | cons c s ih =>
        cases n with
        | zero =>
            cases h
            exact ⟨rfl, rfl⟩
        | succ n =>
            rw [splitAtByte?] at h
            split at h
            · next hfits =>
                obtain ⟨⟨a', b'⟩, hrest, hparts⟩ := Option.map_eq_some_iff.1 h
                obtain ⟨rfl, rfl⟩ := Prod.mk.inj hparts
                obtain ⟨rfl, hsize⟩ := ih hrest
                refine ⟨rfl, ?_⟩
                rw [byteSize_cons, hsize]
                omega
            · cases h
  · rintro ⟨rfl, rfl⟩
    exact splitAtByte?_append a b

/-- A text can be cut where a position of the string is valid. -/
theorem isSome_splitAtByte?_iff :
    (splitAtByte? n s).isSome = true ↔
      String.Pos.Raw.IsValid (String.ofList s) ⟨n⟩ := by
  rw [Option.isSome_iff_exists, String.Pos.Raw.isValid_iff_exists_append]
  constructor
  · rintro ⟨⟨a, b⟩, h⟩
    obtain ⟨rfl, hsize⟩ := splitAtByte?_eq_some_iff.1 h
    refine ⟨String.ofList a, String.ofList b, String.ofList_append, ?_⟩
    rw [String.Pos.Raw.ext_iff, String.byteIdx_rawEndPos,
      ← byteSize_eq_utf8ByteSize, hsize]
  · rintro ⟨a, b, hs, hsize⟩
    refine ⟨(a.toList, b.toList), splitAtByte?_eq_some_iff.2 ⟨?_, ?_⟩⟩
    · have hlist := congrArg String.toList hs
      rwa [String.toList_ofList, String.toList_append] at hlist
    · rw [byteSize_eq_utf8ByteSize, String.ofList_toList,
        ← String.byteIdx_rawEndPos, ← hsize]

theorem byteIndex?_append {p : Char → Bool} {c : Char}
    (ha : ∀ d ∈ a, p d = false) (hc : p c = true) :
    byteIndex? p (a ++ c :: b) = some (byteSize a) := by
  induction a with
  | nil => simp [byteIndex?, hc]
  | cons d a ih =>
      have hd : p d = false := ha d (by simp)
      simp [byteIndex?, hd, ih fun e he => ha e (by simp [he])]

theorem byteIndex?_eq_none {p : Char → Bool} (h : ∀ c ∈ s, p c = false) :
    byteIndex? p s = none := by
  induction s with
  | nil => rfl
  | cons c s ih =>
      have hc : p c = false := h c (by simp)
      simp [byteIndex?, hc, ih fun d hd => h d (by simp [hd])]

/-- No cut falls inside a character of three bytes. -/
example : (List.range 5).map (splitAtByte? · ['-', '漢']) =
    [some ([], ['-', '漢']), some (['-'], ['漢']), none, none,
      some (['-', '漢'], [])] := by
  decide

end CssVendor.Text
