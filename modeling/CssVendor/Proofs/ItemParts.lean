import CssVendor.Proofs.Brackets
import CssVendor.Proofs.Items

/-!
# Items and what they are made of

Where a sequence is cut into items depends on its components alone, not on what
has been worked out for the blocks among them. So a map over what was worked
out goes through the cutting: `Item.all_map`. And an item is made of parts of
the sequence and of what was worked out for one of them: `Item.within_of_mem`.
What holds of everything worked out for a sequence is carried over to its items
by these two, with no look at where they begin and end.

Where an item ends is looked at once, for the stretches of a body: each has a
semicolon or the end behind it (`exists_of_read_stretch`).

Two things that are worked out separately can be put next to each other by
working them out as a pair: `both`.
-/

namespace CssVendor.Text

variable {α β γ δ : Type}

/-- Steps that find corresponding pieces of the same length divide lists that
correspond into pieces that correspond. -/
theorem divide_map {step : List α → β × Nat} {step' : List γ → δ × Nat}
    (f : α → γ) (g : β → δ)
    (h : ∀ xs, step' (xs.map f) = (g (step xs).1, (step xs).2))
    (xs : List α) : divide step' (xs.map f) = (divide step xs).map g := by
  have hfrom : ∀ pending, divideFrom step' pending (xs.map f) =
      (divideFrom step pending xs).map g := by
    intro pending
    induction xs generalizing pending with
    | nil => cases pending <;> rfl
    | cons x xs ih =>
        cases pending with
        | succ pending => exact ih pending
        | zero =>
            have hx := h (x :: xs)
            rw [List.map_cons] at hx ⊢
            rw [divideFrom, divideFrom, hx, List.map_cons, ← ih]
  exact hfrom 0

theorem drop_length_takeWhile (p : α → Bool) (l : List α) :
    l.drop (l.takeWhile p).length = l.dropWhile p := by
  calc l.drop (l.takeWhile p).length
      = (l.takeWhile p ++ l.dropWhile p).drop (l.takeWhile p).length := by
        rw [List.takeWhile_append_dropWhile]
    _ = l.dropWhile p := List.drop_left

end CssVendor.Text

namespace CssVendor.Syntax

variable {α β : Type}

theorem exists_of_mem_annotate {f : Parts α → α} {cs : List Component}
    {p : Annotated α} (h : p ∈ annotate f cs) :
    ∃ c ∈ cs, p = c.annotate f := by
  induction cs with
  | nil => cases h
  | cons c cs ih =>
      rw [annotate_cons] at h
      rcases List.mem_cons.1 h with rfl | h
      · exact ⟨c, by simp, rfl⟩
      · obtain ⟨d, hd, hp⟩ := ih h
        exact ⟨d, by simp [hd], hp⟩

theorem forall_mem_annotate {f : Parts α → α} {cs : List Component}
    {P : Annotated α → Prop} (h : ∀ c ∈ cs, P (c.annotate f)) :
    ∀ p ∈ annotate f cs, P p := by
  intro p hp
  obtain ⟨c, hc, rfl⟩ := exists_of_mem_annotate hp
  exact h c hc

/-! ## Changing what was worked out -/

variable (φ : α → β)

/-- The part with what was worked out for it changed. -/
def Annotated.map (p : Annotated α) : Annotated β :=
  ⟨p.component, p.content.map φ⟩

/-- The parts with what was worked out for each changed. -/
def Parts.map (parts : Parts α) : Parts β := List.map (Annotated.map φ) parts

/-- The item with what was worked out for its parts changed. -/
def Item.map : Item α → Item β
  | .gap => .gap
  | .atRule keyword before block =>
      .atRule keyword (Parts.map φ before)
        (block.map fun b => (b.1.map φ, φ b.2))
  | .rule before block => .rule (Parts.map φ before) (block.1.map φ, φ block.2)
  | .stretch parts semicolon => .stretch (Parts.map φ parts) semicolon

theorem curly?_map (p : Annotated α) :
    (p.map φ).curly? = p.curly?.map φ := by
  show (if p.component.isCurly then p.content.map φ else none) =
    (if p.component.isCurly then p.content else none).map φ
  split <;> rfl

theorem continues_map (semicolonEnds : Bool) (p : Annotated α) :
    Item.continues semicolonEnds (p.map φ) =
      Item.continues semicolonEnds p := by
  rw [Item.continues, Item.continues, curly?_map, Option.isNone_map]
  rfl

theorem componentsOf_map (parts : Parts α) :
    componentsOf (Parts.map φ parts) = componentsOf parts := by
  rw [componentsOf, Parts.map, List.map_map]
  rfl

/-- What is worked out by one function is the image of what is worked out by
another, if the functions agree so on every content. -/
theorem map_annotate {f : Parts α → α} {g : Parts β → β}
    (h : ∀ parts, φ (f parts) = g (Parts.map φ parts)) (cs : List Component) :
    Parts.map φ (annotate f cs) = annotate g cs := by
  have hall : ∀ cs : List Component,
      (∀ c ∈ cs, (c.annotate f).map φ = c.annotate g) →
        Parts.map φ (annotate f cs) = annotate g cs := by
    intro cs hcs
    induction cs with
    | nil => rfl
    | cons c cs ih =>
        rw [annotate_cons, annotate_cons, ← hcs c (by simp),
          ← ih fun d hd => hcs d (by simp [hd])]
        rfl
  have hone : ∀ c : Component, (c.annotate f).map φ = c.annotate g := by
    intro c
    induction c using Component.inductionOn with
    | token t => rfl
    | block opener content closer ih =>
        show Annotated.mk _ (some (φ (f (annotate f content)))) = _
        rw [h, hall content ih]
        rfl
  exact hall cs fun c _ => hone c

theorem takeWhile_map (semicolonEnds : Bool) (parts : Parts α) :
    (Parts.map φ parts).takeWhile (Item.continues semicolonEnds) =
      Parts.map φ (parts.takeWhile (Item.continues semicolonEnds)) := by
  rw [Parts.map, Parts.map, List.takeWhile_map]
  congr 2
  funext p
  exact continues_map φ semicolonEnds p

theorem length_map (parts : Parts α) :
    (Parts.map φ parts).length = parts.length :=
  List.length_map ..

theorem drop_map (n : Nat) (parts : Parts α) :
    (Parts.map φ parts).drop n = Parts.map φ (parts.drop n) :=
  List.map_drop.symm

theorem readAtRule_map (keyword : Token) (rest : Parts α) :
    Item.readAtRule keyword (Parts.map φ rest) =
      ((Item.readAtRule keyword rest).1.map φ,
        (Item.readAtRule keyword rest).2) := by
  rw [Item.readAtRule, Item.readAtRule, takeWhile_map, length_map, drop_map]
  cases rest.drop (rest.takeWhile (Item.continues true)).length with
  | nil => rfl
  | cons p parts =>
      simp only [Parts.map, List.map_cons, Item.map, curly?_map,
        Option.map_map]
      rfl

theorem readRule_map (place : Place) (parts : Parts α) :
    Item.readRule place (Parts.map φ parts) =
      ((Item.readRule place parts).1.map φ,
        (Item.readRule place parts).2) := by
  rw [Item.readRule, Item.readRule, takeWhile_map, length_map, drop_map]
  cases parts.drop
      (parts.takeWhile (Item.continues place.stopsAtSemicolon)).length with
  | nil => rfl
  | cons p rest =>
      simp only [Parts.map, List.map_cons, curly?_map]
      cases p.curly? <;> rfl

theorem read_map (place : Place) (parts : Parts α) :
    Item.read place (Parts.map φ parts) =
      ((Item.read place parts).1.map φ, (Item.read place parts).2) := by
  cases parts with
  | nil => rfl
  | cons p rest =>
      have hkind : (p.map φ).kind = p.kind := rfl
      have hcomponent : (p.map φ).component = p.component := rfl
      show Item.read place (p.map φ :: Parts.map φ rest) = _
      rw [Item.read, Item.read, curly?_map, Option.isNone_map, hkind,
        hcomponent]
      split
      · rfl
      · split
        · split
          · exact readAtRule_map φ _ rest
          · exact readRule_map φ place (p :: rest)
        · exact readRule_map φ place (p :: rest)

/-- Cutting a sequence into items is blind to what was worked out for its
blocks. -/
theorem Item.all_map (place : Place) (parts : Parts α) :
    Item.all place (Parts.map φ parts) =
      (Item.all place parts).map (Item.map φ) :=
  Text.divide_map _ _ (read_map φ place) parts

/-- Items are the same whatever was worked out for the blocks in them. -/
theorem map_all_annotate (f : Parts α → α) (g : Parts β → β)
    (cs : List Component) :
    (Item.all .body (annotate f cs)).map (Item.map fun _ => ()) =
      (Item.all .body (annotate g cs)).map (Item.map fun _ => ()) := by
  rw [← Item.all_map, ← Item.all_map,
    map_annotate _ (g := fun _ => ()) (fun _ => rfl),
    map_annotate _ (g := fun _ => ()) (fun _ => rfl)]

/-! ## Two things at once -/

/-- Two things worked out as a pair. -/
def both (f : Parts α → α) (g : Parts β → β) (parts : Parts (α × β)) : α × β :=
  (f (Parts.map Prod.fst parts), g (Parts.map Prod.snd parts))

theorem map_fst_both (f : Parts α → α) (g : Parts β → β)
    (cs : List Component) :
    Parts.map Prod.fst (annotate (both f g) cs) = annotate f cs :=
  map_annotate Prod.fst (fun _ => rfl) cs

theorem map_snd_both (f : Parts α → α) (g : Parts β → β)
    (cs : List Component) :
    Parts.map Prod.snd (annotate (both f g) cs) = annotate g cs :=
  map_annotate Prod.snd (fun _ => rfl) cs

/-! ## The parts of an item -/

/-- The first part alone decides what kind of item begins with it. -/
theorem read_cases (place : Place) (p : Annotated α) :
    (∀ rest, Item.read place (p :: rest) = (.gap, 1)) ∨
    (∃ t name, p.component = .token t ∧ t.kind = .atKeyword name ∧
      ∀ rest, Item.read place (p :: rest) = Item.readAtRule t rest) ∨
    ∀ rest, Item.read place (p :: rest) =
      Item.readRule place (p :: rest) := by
  by_cases hgap : (p.curly?.isNone && place.isGap p.kind) = true
  · exact Or.inl fun rest => by rw [Item.read, if_pos hgap]
  · by_cases hkeyword : ∃ t name, p.component = .token t ∧
        t.kind = .atKeyword name
    · obtain ⟨t, name, hcomponent, hkind⟩ := hkeyword
      refine Or.inr (Or.inl ⟨t, name, hcomponent, hkind, fun rest => ?_⟩)
      rw [Item.read, if_neg hgap, hcomponent]
      simp only [hkind]
    · refine Or.inr (Or.inr fun rest => ?_)
      rw [Item.read, if_neg hgap]
      split
      · next t hcomponent =>
          split
          · next name hkind => exact absurd ⟨t, name, hcomponent, hkind⟩ hkeyword
          · rfl
      · rfl

theorem of_curly?_eq_some {p : Annotated α} {a : α} (h : p.curly? = some a) :
    p.component.isCurly = true ∧ p.content = some a := by
  rw [Annotated.curly?] at h
  split at h
  · next hcurly => exact ⟨hcurly, h⟩
  · cases h

/-- An item is made of parts that stand next to each other, and of what was
worked out for the one that is its block. -/
def Item.Within (parts : Parts α) : Item α → Prop
  | .gap => True
  | .atRule _ before block =>
      before <:+: parts ∧ ∀ b ∈ block, b.1 ∈ parts ∧ b.1.curly? = some b.2
  | .rule before block =>
      before ++ [block.1] <:+: parts ∧ block.1.curly? = some block.2
  | .stretch whole _ => whole <:+: parts

theorem Item.Within.mono {parts parts' : Parts α} {item : Item α}
    (h : item.Within parts) (hparts : parts <:+: parts') :
    item.Within parts' := by
  cases item with
  | gap => trivial
  | atRule keyword before block =>
      exact ⟨h.1.trans hparts,
        fun b hb => ⟨hparts.subset (h.2 b hb).1, (h.2 b hb).2⟩⟩
  | rule before block => exact ⟨h.1.trans hparts, h.2⟩
  | stretch whole semicolon => exact h.trans hparts

theorem takeWhile_within (p : Annotated α → Bool) (parts : Parts α) :
    parts.takeWhile p <:+: parts :=
  (List.takeWhile_prefix p).isInfix

theorem takeWhile_concat_within {p : Annotated α → Bool} {parts rest : Parts α}
    {q : Annotated α} (h : parts.drop (parts.takeWhile p).length = q :: rest) :
    parts.takeWhile p ++ [q] <:+: parts := by
  refine ⟨[], rest, ?_⟩
  rw [List.nil_append, List.append_assoc, List.singleton_append, ← h]
  exact List.prefix_iff_eq_append.1 (List.takeWhile_prefix p)

theorem within_readAtRule (keyword : Token) (rest : Parts α) :
    (Item.readAtRule keyword rest).1.Within rest := by
  have hbefore := takeWhile_within (Item.continues true) rest
  rw [Item.readAtRule]
  split
  · exact ⟨hbefore, by simp⟩
  · next p parts hdrop =>
      refine ⟨hbefore, fun b hb => ?_⟩
      obtain ⟨a, ha, rfl⟩ := Option.map_eq_some_iff.1 hb
      exact ⟨(takeWhile_concat_within hdrop).subset (by simp), ha⟩

theorem within_readRule (place : Place) (parts : Parts α) :
    (Item.readRule place parts).1.Within parts := by
  have hbefore :=
    takeWhile_within (Item.continues place.stopsAtSemicolon) parts
  rw [Item.readRule]
  split
  · exact hbefore
  · next p rest hdrop =>
      split
      · next a ha => exact ⟨takeWhile_concat_within hdrop, ha⟩
      · exact hbefore

theorem within_read (place : Place) (parts : Parts α) :
    (Item.read place parts).1.Within parts := by
  cases parts with
  | nil => trivial
  | cons p rest =>
      rcases read_cases place p with hgap | ⟨t, name, -, -, hatRule⟩ | hrule
      · rw [hgap]
        trivial
      · rw [hatRule]
        exact (within_readAtRule t rest).mono (List.suffix_cons p rest).isInfix
      · rw [hrule]
        exact within_readRule place (p :: rest)

/-- The items of a sequence are made of its parts. -/
theorem Item.within_of_mem {place : Place} {parts : Parts α} {item : Item α}
    (h : item ∈ Item.all place parts) : item.Within parts := by
  obtain ⟨ys, -, hys, rfl⟩ := Text.exists_of_mem_divide h
  exact (within_read place ys).mono hys.isInfix

/-! ## Stretches of a body -/

section Stretches

variable {parts whole : Parts α} {semicolon : Bool}

theorem exists_of_readRule_stretch
    (h : (Item.readRule .body parts).1 = .stretch whole semicolon) :
    ∃ behind, parts = whole ++ behind ∧
      (Item.readRule .body parts).2 = whole.length + (behind.take 1).length ∧
      (∀ p ∈ whole, Item.continues true p = true) ∧
      ∀ p ∈ behind.head?, p.isToken .semicolon = true := by
  have hall := List.takeWhile_append_dropWhile
    (p := Item.continues true) (l := parts)
  have hcontinues : ∀ p ∈ parts.takeWhile (Item.continues true),
      Item.continues true p = true := fun p hp => List.mem_takeWhile_imp hp
  have hhead := List.head?_dropWhile_not (Item.continues true) parts
  rw [Item.readRule] at h ⊢
  simp only [Place.stopsAtSemicolon, Text.drop_length_takeWhile] at h ⊢
  cases hdrop : parts.dropWhile (Item.continues true) with
  | nil =>
      simp only [hdrop, Item.stretch.injEq] at h hall ⊢
      obtain ⟨rfl, -⟩ := h
      exact ⟨[], hall.symm, rfl, hcontinues, by simp⟩
  | cons p behind =>
      cases hcurly : p.curly? with
      | some a =>
          simp only [hdrop, hcurly] at h
          cases h
      | none =>
          simp only [hdrop, hcurly, Item.stretch.injEq] at h hall hhead ⊢
          obtain ⟨rfl, -⟩ := h
          refine ⟨p :: behind, hall.symm, rfl, hcontinues, fun q hq => ?_⟩
          obtain rfl : p = q := by simpa using hq
          simpa [Item.continues, hcurly] using hhead

/-- A stretch of a body is all there is up to a semicolon or the end, and takes
in the semicolon. -/
theorem exists_of_read_stretch
    (h : (Item.read .body parts).1 = .stretch whole semicolon) :
    ∃ behind, parts = whole ++ behind ∧
      (Item.read .body parts).2 = whole.length + (behind.take 1).length ∧
      (∀ p ∈ whole, Item.continues true p = true) ∧
      ∀ p ∈ behind.head?, p.isToken .semicolon = true := by
  cases parts with
  | nil => cases h
  | cons p rest =>
      rcases read_cases .body p with hgap | ⟨t, name, -, -, hatRule⟩ | hrule
      · rw [hgap] at h
        cases h
      · rw [hatRule, Item.readAtRule] at h
        split at h <;> cases h
      · rw [hrule] at h ⊢
        exact exists_of_readRule_stretch h

/-- Behind a stretch of a body is a semicolon or the end. -/
theorem exists_of_stretch_mem
    (h : .stretch whole semicolon ∈ Item.all .body parts) :
    ∃ before behind, parts = before ++ (whole ++ behind) ∧
      (∀ p ∈ whole, Item.continues true p = true) ∧
      ∀ p ∈ behind.head?, p.isToken .semicolon = true := by
  obtain ⟨ys, -, ⟨before, rfl⟩, hread⟩ := Text.exists_of_mem_divide h
  obtain ⟨behind, rfl, -, hcontinues, hbehind⟩ :=
    exists_of_read_stretch hread.symm
  exact ⟨before, behind, rfl, hcontinues, hbehind⟩

end Stretches

end CssVendor.Syntax
