import CssVendor.Proofs.BodyItems

/-!
# Where items end

Reading an item looks no further than the item reaches, so a sequence can be cut
where an item ends and each side gives its own items (`CutsAt`). In a body a
semicolon ends whatever it stands in, so a sequence can be cut behind each of
its semicolons too.

The grammar cuts the content of a rule into pieces of its own
(`innerPieces`). Each of them ends behind an item of the reader or behind a
semicolon, or is the last. So what the reader finds in the content is what it
finds in one piece after the other.
-/

namespace CssVendor.Text

variable {α β : Type}

theorem takeWhile_take (p : α → Bool) (l : List α) (m : Nat) :
    (l.take m).takeWhile p = (l.takeWhile p).take m := by
  induction l generalizing m with
  | nil => simp
  | cons a l ih =>
      cases m with
      | zero => rfl
      | succ m =>
          rw [List.take_succ_cons, List.takeWhile_cons, List.takeWhile_cons]
          split
          · rw [List.take_succ_cons, ih]
          · rfl

theorem length_takeWhile_le {p : α → Bool} {l : List α} {k : Nat} {a : α}
    (h : l[k]? = some a) (ha : p a = false) : (l.takeWhile p).length ≤ k := by
  induction l generalizing k with
  | nil => cases h
  | cons b l ih =>
      rw [List.takeWhile_cons]
      cases k with
      | zero =>
          rw [List.getElem?_cons_zero, Option.some.injEq] at h
          rw [h, ha]
          exact Nat.le_refl 0
      | succ k =>
          split
          · exact Nat.succ_le_succ (ih (by simpa using h))
          · exact Nat.zero_le _

/-- Lists that leave the same when they are cut are cut at the same place. -/
theorem take_eq_of_drop_eq {l : List α} {m n : Nat}
    (h : l.drop m = l.drop n) : l.take m = l.take n := by
  have hall : l.take m ++ l.drop n = l.take n ++ l.drop n := by
    rw [← h, List.take_append_drop, h, List.take_append_drop]
  exact List.append_cancel_right hall

/-- A step that keeps the elements of each piece beside it. -/
def withSpan (step : List α → β × Nat) (xs : List α) : (β × List α) × Nat :=
  (((step xs).1, xs.take (step xs).2), (step xs).2)

theorem map_fst_divide_withSpan (step : List α → β × Nat) (xs : List α) :
    (divide (withSpan step) xs).map Prod.fst = divide step xs := by
  have hstep : ∀ ys : List α, step (ys.map id) =
      ((withSpan step ys).1.1, (withSpan step ys).2) := fun ys => by
    rw [List.map_id]
    rfl
  have hmap := divide_map id Prod.fst hstep xs
  rw [← hmap, List.map_id]

end CssVendor.Text

namespace CssVendor.Syntax

open Text

variable {α : Type} {place : Place} {parts : Parts α} {m : Nat}

/-! ## What an item looks at -/

theorem readRule_take (h : (Item.readRule place parts).2 ≤ m) :
    Item.readRule place (parts.take m) = Item.readRule place parts := by
  rw [Item.readRule] at h
  rw [Item.readRule, Item.readRule, takeWhile_take]
  generalize parts.takeWhile (Item.continues place.stopsAtSemicolon) = before
    at h ⊢
  cases hdrop : parts.drop before.length with
  | nil =>
      simp only [hdrop] at h
      simp only [List.take_of_length_le h, List.drop_take, hdrop, List.take_nil]
  | cons p rest =>
      have hlt : before.length + 1 ≤ m := by
        simp only [hdrop] at h
        split at h <;> exact h
      obtain ⟨k, hk⟩ : ∃ k, m - before.length = k + 1 :=
        Nat.exists_eq_add_one.2 (by omega)
      have hbefore : before.take m = before :=
        List.take_of_length_le (by omega)
      simp only [hbefore, List.drop_take, hdrop, hk, List.take_succ_cons]

theorem readAtRule_take {keyword : Token}
    (h : (Item.readAtRule keyword parts).2 ≤ m + 1) :
    Item.readAtRule keyword (parts.take m) =
      Item.readAtRule keyword parts := by
  rw [Item.readAtRule] at h
  rw [Item.readAtRule, Item.readAtRule, takeWhile_take]
  generalize parts.takeWhile (Item.continues true) = before at h ⊢
  cases hdrop : parts.drop before.length with
  | nil =>
      simp only [hdrop] at h
      have hbefore : before.take m = before :=
        List.take_of_length_le (by omega)
      simp only [hbefore, List.drop_take, hdrop, List.take_nil]
  | cons p rest =>
      simp only [hdrop] at h
      obtain ⟨k, hk⟩ : ∃ k, m - before.length = k + 1 :=
        Nat.exists_eq_add_one.2 (by omega)
      have hbefore : before.take m = before :=
        List.take_of_length_le (by omega)
      simp only [hbefore, List.drop_take, hdrop, hk, List.take_succ_cons]

/-- What stands behind an item makes no difference to it. -/
theorem read_take (h : (Item.read place parts).2 ≤ m) :
    Item.read place (parts.take m) = Item.read place parts := by
  cases parts with
  | nil => rw [List.take_nil]
  | cons p rest =>
      obtain ⟨k, rfl⟩ := Nat.exists_eq_add_one.2
        (Nat.lt_of_lt_of_le (Grammar.read_pos place p rest) h)
      rw [List.take_succ_cons]
      rcases read_cases place p with hgap | ⟨t, name, -, -, hatRule⟩ | hrule
      · rw [hgap, hgap]
      · rw [hatRule] at h
        rw [hatRule, hatRule, readAtRule_take h]
      · rw [hrule] at h
        rw [hrule, hrule]
        exact readRule_take h

/-- A semicolon ends the item of a body that it stands in or behind. -/
theorem read_le_of_semicolon {k : Nat} {q : Annotated α}
    (h : parts[k]? = some q) (hq : q.isToken .semicolon = true) :
    (Item.read .body parts).2 ≤ k + 1 := by
  have hends : Item.continues true q = false := by
    rw [Item.continues, hq, Bool.true_and, Bool.not_true, Bool.and_false]
  cases parts with
  | nil => cases h
  | cons p rest =>
      rcases read_cases .body p with hgap | ⟨t, name, ht, hkind, hatRule⟩ | hrule
      · rw [hgap]
        exact Nat.succ_le_succ (Nat.zero_le k)
      · cases k with
        | zero =>
            -- The keyword is no semicolon.
            rw [List.getElem?_cons_zero, Option.some.injEq] at h
            have hsemicolon : q.component.kind = .semicolon :=
              Grammar.kind_of_isToken hq
            rw [← h, ht, Component.kind, hkind] at hsemicolon
            cases hsemicolon
        | succ k =>
            have hlength := length_takeWhile_le (p := Item.continues true)
              (by simpa using h) hends
            rw [hatRule, Item.readAtRule]
            split <;> simp only [] <;> omega
      · have hlength := length_takeWhile_le h hends
        rw [hrule, Item.readRule]
        simp only [Place.stopsAtSemicolon]
        split
        · exact Nat.le_succ_of_le hlength
        · split <;> exact Nat.succ_le_succ hlength

theorem exists_take_of_stretch {whole : Parts α} {semicolon : Bool}
    (h : (Item.read .body parts).1 = .stretch whole semicolon) :
    ∃ ends, parts.take (Item.read .body parts).2 = whole ++ ends ∧
      (ends = [] ∨ ∃ q, q.isToken .semicolon = true ∧ ends = [q]) := by
  obtain ⟨behind, hparts, hlength, -, hbehind⟩ := exists_of_read_stretch h
  rw [hlength, hparts, List.take_length_add_append]
  cases behind with
  | nil => exact ⟨[], rfl, Or.inl rfl⟩
  | cons q behind => exact ⟨[q], rfl, Or.inr ⟨q, hbehind q rfl, rfl⟩⟩

/-! ## Where a sequence can be cut -/

theorem all_cons (place : Place) (p : Annotated α) (rest : Parts α) :
    Item.all place (p :: rest) = (Item.read place (p :: rest)).1 ::
      Item.all place ((p :: rest).drop (Item.read place (p :: rest)).2) := by
  rw [Item.all, divide_cons,
    Grammar.drop_cons_of_pos (Grammar.read_pos place p rest)]
  rfl

/-- The first `m` parts of a sequence are cut into items by themselves, and so
are the others. -/
def CutsAt (place : Place) (parts : Parts α) (m : Nat) : Prop :=
  Item.all place parts =
    Item.all place (parts.take m) ++ Item.all place (parts.drop m)

/-- The parts of one item make up that item. -/
theorem all_take_read (place : Place) (p : Annotated α) (rest : Parts α) :
    Item.all place ((p :: rest).take (Item.read place (p :: rest)).2) =
      [(Item.read place (p :: rest)).1] := by
  have htake := read_take (Nat.le_refl (Item.read place (p :: rest)).2)
  have hpos := Grammar.read_pos place p rest
  generalize hn : (Item.read place (p :: rest)).2 = n at htake hpos
  obtain ⟨k, rfl⟩ := Nat.exists_eq_add_one.2 hpos
  rw [List.take_succ_cons] at htake ⊢
  have hdrop : (p :: rest.take k).drop (k + 1) = [] := by
    refine List.drop_of_length_le (Nat.succ_le_succ ?_)
    exact List.length_take_le k rest
  rw [all_cons, htake, hn, hdrop]
  rfl

theorem cutsAt_read (place : Place) (p : Annotated α) (rest : Parts α) :
    CutsAt place (p :: rest) (Item.read place (p :: rest)).2 := by
  rw [CutsAt, all_take_read, all_cons]
  rfl

/-- A body can be cut behind a semicolon. Either the first item ends there, or
the semicolon stands in what the first item leaves. -/
theorem cutsAt_semicolon {parts : Parts α} {k : Nat} {q : Annotated α}
    (h : parts[k]? = some q) (hq : q.isToken .semicolon = true) :
    CutsAt .body parts (k + 1) := by
  match parts with
  | [] => cases h
  | p :: rest =>
      have hle := read_le_of_semicolon h hq
      have hpos := Grammar.read_pos .body p rest
      have htake := read_take hle
      rw [List.take_succ_cons] at htake
      rw [CutsAt, List.take_succ_cons, all_cons, all_cons, htake,
        ← List.take_succ_cons, List.drop_take, List.cons_append]
      generalize (Item.read .body (p :: rest)).2 = n at hle hpos
      refine congrArg _ ?_
      rcases Nat.eq_or_lt_of_le hle with hn | hlt
      · rw [hn, Nat.sub_self, List.take_zero]
        rfl
      · have hbehind : ((p :: rest).drop n)[k - n]? = some q := by
          rw [List.getElem?_drop, Nat.add_sub_cancel' (by omega), h]
        have hcut := cutsAt_semicolon hbehind hq
        rw [CutsAt, List.drop_drop] at hcut
        rw [hcut, show k + 1 - n = k - n + 1 by omega,
          show n + (k - n + 1) = k + 1 by omega]
termination_by parts.length
decreasing_by
  simp only [List.length_drop, List.length_cons]
  omega

end CssVendor.Syntax

namespace CssVendor.Grammar

open Syntax Text

/-! ## The pieces of the grammar -/

/-- The items that the grammar finds in the content of a rule, each with the
components it is made of. -/
def innerPieces (content : List Component) :
    List (Item Verdict × List Component) :=
  (divide (withSpan readInnerItem) (annotate Verdict.of content)).map
    fun p => (p.1, componentsOf p.2)

theorem map_fst_innerPieces (content : List Component) :
    (innerPieces content).map Prod.fst =
      divide readInnerItem (annotate Verdict.of content) := by
  rw [innerPieces, List.map_map]
  exact map_fst_divide_withSpan readInnerItem (annotate Verdict.of content)

theorem annotate_take {α : Type} (f : Parts α → α) (cs : List Component)
    (n : Nat) : (annotate f cs).take n = annotate f (cs.take n) := by
  induction cs generalizing n with
  | nil => simp
  | cons c cs ih => cases n <;> simp [ih]

theorem annotate_drop {α : Type} (f : Parts α → α) (cs : List Component)
    (n : Nat) : (annotate f cs).drop n = annotate f (cs.drop n) := by
  induction cs generalizing n with
  | nil => simp
  | cons c cs ih => cases n <;> simp [ih]

/-- How many components the first piece has. -/
def innerLength (content : List Component) : Nat :=
  (readInnerItem (annotate Verdict.of content)).2

theorem innerLength_pos (c : Component) (cs : List Component) :
    0 < innerLength (c :: cs) :=
  readInnerItem_pos _ _

/-- The first piece, and then the pieces of what it leaves. -/
theorem innerPieces_cons (c : Component) (cs : List Component) :
    innerPieces (c :: cs) =
      ((readInnerItem (annotate Verdict.of (c :: cs))).1,
          (c :: cs).take (innerLength (c :: cs))) ::
        innerPieces ((c :: cs).drop (innerLength (c :: cs))) := by
  have hstep : (withSpan readInnerItem (annotate Verdict.of (c :: cs))).2 =
      innerLength (c :: cs) := rfl
  have hcons : annotate Verdict.of (c :: cs) =
      c.annotate Verdict.of :: annotate Verdict.of cs := rfl
  rw [innerPieces, innerPieces, hcons, divide_cons, ← hcons, hstep,
    List.map_cons, ← drop_cons_of_pos (innerLength_pos c cs)
      (c.annotate Verdict.of), ← hcons, annotate_drop]
  refine congrArg (· :: _) ?_
  refine congrArg (Prod.mk _) ?_
  show componentsOf ((annotate Verdict.of (c :: cs)).take _) = _
  rw [annotate_take, componentsOf_annotate]
  rfl

/-- Induction over the pieces of a content: the first is taken off, and the
rest is what it leaves. -/
theorem inductionOnPieces {P : List Component → Prop}
    (content : List Component) (nil : P [])
    (cons : ∀ c cs, P ((c :: cs).drop (innerLength (c :: cs))) →
      P (c :: cs)) : P content := by
  match content with
  | [] => exact nil
  | c :: cs =>
      have hpos := innerLength_pos c cs
      exact cons c cs (inductionOnPieces _ nil cons)
termination_by content.length
decreasing_by
  simp only [List.length_drop, List.length_cons]
  omega

/-- What holds of the first piece of any content holds of all pieces. -/
theorem forall_innerPieces {P : Item Verdict × List Component → Prop}
    (h : ∀ c cs, P ((readInnerItem (annotate Verdict.of (c :: cs))).1,
      (c :: cs).take (innerLength (c :: cs)))) (content : List Component) :
    ∀ p ∈ innerPieces content, P p := by
  induction content using inductionOnPieces with
  | nil => exact List.forall_mem_nil _
  | cons c cs ih =>
      rw [innerPieces_cons]
      exact List.forall_mem_cons.2 ⟨h c cs, ih⟩

/-- The pieces make up the content. -/
theorem flatMap_innerPieces (content : List Component) :
    (innerPieces content).flatMap Prod.snd = content := by
  induction content using inductionOnPieces with
  | nil => rfl
  | cons c cs ih =>
      rw [innerPieces_cons, List.flatMap_cons, ih, List.take_append_drop]

variable {α : Type}

/-- How far an item reaches does not depend on what was worked out for the
blocks. -/
theorem length_read_annotate (place : Place) (f : Parts α → α)
    {β : Type} (g : Parts β → β) (cs : List Component) :
    (Item.read place (annotate f cs)).2 =
      (Item.read place (annotate g cs)).2 := by
  have hf := read_map (fun _ => ()) place (annotate f cs)
  have hg := read_map (fun _ => ()) place (annotate g cs)
  rw [map_annotate _ (g := fun _ => ()) (fun _ => rfl)] at hf hg
  rw [hf] at hg
  exact (Prod.mk.inj hg).2

theorem readInnerItem_cases (parts : Parts Verdict) :
    readInnerItem parts = readStretch parts ∨
      readInnerItem parts = Item.read .body parts := by
  rw [readInnerItem]
  split
  · next whole semicolon length hstretch =>
      split
      · exact Or.inl hstretch.symm
      · exact Or.inr rfl
  · exact Or.inr rfl

/-- A stretch ends with the sequence or behind a semicolon. -/
theorem cutsAt_readStretch (f : Parts α → α) (cs : List Component) :
    CutsAt .body (annotate f cs) (readStretch (annotate Verdict.of cs)).2 := by
  have hhead := List.head?_dropWhile_not
    (fun p : Annotated Verdict => !p.isToken .semicolon) (annotate Verdict.of cs)
  rw [← drop_length_takeWhile, annotate_drop] at hhead
  rw [readStretch]
  simp only []
  generalize ((annotate Verdict.of cs).takeWhile
    fun p => !p.isToken .semicolon).length = k at hhead ⊢
  cases hdrop : cs.drop k with
  | nil =>
      have hlength := List.drop_eq_nil_iff.1 hdrop
      rw [CutsAt, List.take_of_length_le (by simp; omega),
        List.drop_of_length_le (by simp; omega)]
      exact (List.append_nil _).symm
  | cons c rest =>
      have hsemicolon : (c.annotate f).isToken .semicolon = true := by
        rw [hdrop, annotate_cons, List.head?_cons] at hhead
        rw [Annotated.isToken, component_annotate]
        simpa [Annotated.isToken] using hhead
      refine cutsAt_semicolon ?_ hsemicolon
      rw [← List.head?_drop, annotate_drop, hdrop]
      rfl

/-- A piece of the grammar ends where an item of the reader ends. -/
theorem cutsAt_innerLength (f : Parts α → α) (c : Component)
    (cs : List Component) :
    CutsAt .body (annotate f (c :: cs)) (innerLength (c :: cs)) := by
  rw [innerLength]
  rcases readInnerItem_cases (annotate Verdict.of (c :: cs)) with h | h
  · rw [h]
    exact cutsAt_readStretch f (c :: cs)
  · rw [h, length_read_annotate .body Verdict.of f]
    exact cutsAt_read .body (c.annotate f) (annotate f cs)

/-- What the reader finds in a content is what it finds in its pieces. -/
theorem all_innerPieces (f : Parts α → α) (content : List Component) :
    Item.all .body (annotate f content) =
      (innerPieces content).flatMap
        fun p => Item.all .body (annotate f p.2) := by
  induction content using inductionOnPieces with
  | nil => rfl
  | cons c cs ih =>
      rw [cutsAt_innerLength, innerPieces_cons, List.flatMap_cons,
        annotate_take, annotate_drop, ih]

end CssVendor.Grammar
