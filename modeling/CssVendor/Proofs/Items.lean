import CssVendor.Syntax.Item

/-!
# Items cut out of a sequence

`Yields place cs items` says that components are cut into these items, and that
the next item begins behind them, whatever it is. It holds for blanks between
items, for rules and at-rules with their block, and for a stretch with its
semicolon; only a stretch that ends with the sequence needs a lemma of its own.
-/

namespace CssVendor.Text

variable {α β : Type}

/-- A piece that is found in front of a list is divided off. -/
theorem divide_append {step : List α → β × Nat} {xs ys : List α} {piece : β}
    (hxs : xs ≠ []) (h : step (xs ++ ys) = (piece, xs.length)) :
    divide step (xs ++ ys) = piece :: divide step ys := by
  cases xs with
  | nil => exact absurd rfl hxs
  | cons x xs =>
      rw [List.cons_append] at h ⊢
      rw [divide_cons, h]
      simp

/-- Each piece is found at the head of an end of the list. -/
theorem exists_of_mem_divide {step : List α → β × Nat} {xs : List α}
    {piece : β} (h : piece ∈ divide step xs) :
    ∃ ys, ys ≠ [] ∧ ys <:+ xs ∧ piece = (step ys).1 := by
  have hfrom : ∀ pending, piece ∈ divideFrom step pending xs →
      ∃ ys, ys ≠ [] ∧ ys <:+ xs ∧ piece = (step ys).1 := by
    clear h
    induction xs with
    | nil =>
        intro pending h
        cases pending <;> cases h
    | cons x xs ih =>
        have hrest : ∀ pending, piece ∈ divideFrom step pending xs →
            ∃ ys, ys ≠ [] ∧ ys <:+ x :: xs ∧ piece = (step ys).1 := by
          intro pending h
          obtain ⟨ys, hne, hys, hpiece⟩ := ih pending h
          exact ⟨ys, hne, hys.trans (List.suffix_cons x xs), hpiece⟩
        intro pending h
        cases pending with
        | succ pending => exact hrest pending h
        | zero =>
            rw [divideFrom] at h
            rcases List.mem_cons.1 h with h | h
            · exact ⟨x :: xs, by simp, List.suffix_refl _, h⟩
            · exact hrest _ h
  exact hfrom 0 h

end CssVendor.Text

namespace CssVendor.Syntax

variable {α : Type} {f : Parts α → α} {place : Place} {c : Component}
  {cs cs' : List Component}

/-! ## Annotated components -/

@[simp] theorem annotate_nil (f : Parts α → α) : annotate f [] = [] := rfl

@[simp] theorem annotate_cons (f : Parts α → α) (c : Component)
    (cs : List Component) :
    annotate f (c :: cs) = c.annotate f :: annotate f cs := rfl

@[simp] theorem annotate_append (f : Parts α → α) (cs cs' : List Component) :
    annotate f (cs ++ cs') = annotate f cs ++ annotate f cs' := by
  induction cs with
  | nil => rfl
  | cons c cs ih => rw [List.cons_append, annotate_cons, ih]; rfl

@[simp] theorem length_annotate (f : Parts α → α) (cs : List Component) :
    (annotate f cs).length = cs.length := by
  induction cs with
  | nil => rfl
  | cons c cs ih => rw [annotate_cons, List.length_cons, ih, List.length_cons]

@[simp] theorem component_annotate (f : Parts α → α) (c : Component) :
    (c.annotate f).component = c := by
  cases c <;> rfl

@[simp] theorem componentsOf_annotate (f : Parts α → α)
    (cs : List Component) : componentsOf (annotate f cs) = cs := by
  induction cs with
  | nil => rfl
  | cons c cs ih =>
      show (c.annotate f).component :: componentsOf (annotate f cs) = c :: cs
      rw [component_annotate, ih]

theorem kind_annotate (f : Parts α → α) (c : Component) :
    (c.annotate f).kind = c.kind := by
  rw [Annotated.kind, component_annotate]

theorem isNone_curly?_annotate (f : Parts α → α) (c : Component) :
    (c.annotate f).curly?.isNone = !c.isCurly := by
  cases c with
  | token t => rfl
  | block opener content closer =>
      show (if opener.kind == .openCurly then some _ else none).isNone =
        !(opener.kind == .openCurly)
      split <;> simp_all

/-- The block in curly brackets with what was worked out for it. -/
def curly (f : Parts α → α) (opener : Token) (content : List Component)
    (closer : Option Token) : Annotated α × α :=
  (⟨.block opener content closer, some (f (annotate f content))⟩,
    f (annotate f content))

theorem curly?_annotate {opener : Token} (h : opener.kind = .openCurly)
    (content : List Component) (closer : Option Token) :
    ((Component.block opener content closer).annotate f).curly? =
      some (curly f opener content closer).2 := by
  show (if opener.kind == .openCurly then _ else none) = _
  rw [h]
  rfl

/-- Whether an item goes on with a component. -/
def Component.goesOn (semicolonEnds : Bool) (c : Component) : Bool :=
  !c.isCurly && !(semicolonEnds && c.isToken .semicolon)

theorem continues_annotate (semicolonEnds : Bool) (c : Component) :
    Item.continues semicolonEnds (c.annotate f) = c.goesOn semicolonEnds := by
  rw [Item.continues, isNone_curly?_annotate, Annotated.isToken,
    component_annotate, Component.goesOn]

theorem takeWhile_continues {semicolonEnds : Bool}
    (hcs : ∀ c ∈ cs, c.goesOn semicolonEnds = true) (parts : Parts α)
    (hparts : ∀ p ∈ parts.head?, Item.continues semicolonEnds p = false) :
    (annotate f cs ++ parts).takeWhile (Item.continues semicolonEnds) =
      annotate f cs := by
  induction cs with
  | nil =>
      cases parts with
      | nil => rfl
      | cons p parts =>
          rw [annotate_nil, List.nil_append, List.takeWhile_cons,
            hparts p rfl]
          rfl
  | cons c cs ih =>
      rw [annotate_cons, List.cons_append, List.takeWhile_cons,
        continues_annotate, hcs c (by simp), if_pos rfl,
        ih fun d hd => hcs d (by simp [hd])]

theorem drop_annotate (f : Parts α → α) (cs : List Component)
    (parts : Parts α) : (annotate f cs ++ parts).drop cs.length = parts :=
  List.drop_left' (length_annotate f cs)

/-! ## Rules and stretches -/

theorem readRule_block {opener : Token} (h : opener.kind = .openCurly)
    (hcs : ∀ c ∈ cs, c.goesOn place.stopsAtSemicolon = true)
    (content : List Component) (closer : Option Token) (parts : Parts α) :
    Item.readRule place (annotate f cs ++
        (Component.block opener content closer).annotate f :: parts) =
      (.rule (annotate f cs) (curly f opener content closer),
        cs.length + 1) := by
  have hends : Item.continues place.stopsAtSemicolon
      ((Component.block opener content closer).annotate f) = false := by
    rw [Item.continues, curly?_annotate h]
    rfl
  rw [Item.readRule, takeWhile_continues hcs _ (by simpa using hends)]
  simp only [length_annotate, drop_annotate, curly?_annotate h]
  rfl

theorem readRule_semicolon {t : Token} (h : t.kind = .semicolon)
    (hplace : place.stopsAtSemicolon = true)
    (hcs : ∀ c ∈ cs, c.goesOn true = true) (parts : Parts α) :
    Item.readRule place (annotate f cs ++
        (Component.token t).annotate f :: parts) =
      (.stretch (annotate f cs) true, cs.length + 1) := by
  have hends : Item.continues true ((Component.token t).annotate f) = false := by
    rw [continues_annotate]
    simp [Component.goesOn, Component.isToken, h]
  rw [Item.readRule, hplace, takeWhile_continues hcs _ (by simpa using hends)]
  simp only [length_annotate, drop_annotate]
  rfl

theorem readRule_end
    (hcs : ∀ c ∈ cs, c.goesOn place.stopsAtSemicolon = true) :
    Item.readRule place (annotate f cs) =
      (.stretch (annotate f cs) false, cs.length) := by
  have htake := takeWhile_continues (f := f) hcs [] (by simp)
  have hdrop := drop_annotate f cs []
  rw [List.append_nil] at htake hdrop
  rw [Item.readRule, htake]
  simp only [length_annotate, hdrop]

/-- Whether a token of this kind can begin a rule or a stretch, wherever items
stand. -/
def TokenKind.startsRule : TokenKind → Bool
  | .space | .comment | .atKeyword _ | .cdo | .cdc | .semicolon => false
  | _ => true

/-- What neither separates items nor begins an at-rule begins a rule or a
stretch. -/
theorem read_of_not_gap (hgap : place.isGap c.kind = false)
    (hkeyword : ∀ t name, c = .token t → t.kind ≠ .atKeyword name)
    (parts : Parts α) :
    Item.read place (c.annotate f :: parts) =
      Item.readRule place (c.annotate f :: parts) := by
  rw [Item.read, kind_annotate, hgap, Bool.and_false, if_neg (by simp),
    component_annotate]
  cases c with
  | block opener content closer => rfl
  | token t =>
      simp only []
      split
      · next name hkind => exact absurd hkind (hkeyword t name rfl)
      · rfl

theorem read_of_startsRule (h : c.kind.startsRule = true) (place : Place)
    (parts : Parts α) :
    Item.read place (c.annotate f :: parts) =
      Item.readRule place (c.annotate f :: parts) := by
  refine read_of_not_gap ?_ (fun t name ht hkind => ?_) parts
  · cases place <;> cases hkind : c.kind <;> simp_all [TokenKind.startsRule,
      Place.isGap, TokenKind.isBlank]
  · rw [ht, Component.kind, hkind] at h
    cases h

/-! ## Items that end before what follows -/

/-- Components are cut into items, and another item begins behind them. -/
def Yields (f : Parts α → α) (place : Place) (cs : List Component)
    (items : List (Item α)) : Prop :=
  ∀ rest, Item.all place (annotate f (cs ++ rest)) =
    items ++ Item.all place (annotate f rest)

theorem Yields.nil (f : Parts α → α) (place : Place) :
    Yields f place [] [] := fun _ => rfl

theorem Yields.append {items items' : List (Item α)}
    (h : Yields f place cs items) (h' : Yields f place cs' items') :
    Yields f place (cs ++ cs') (items ++ items') := by
  intro rest
  rw [List.append_assoc, h, h', List.append_assoc]

theorem Yields.all_eq {items : List (Item α)} (h : Yields f place cs items) :
    Item.all place (annotate f cs) = items := by
  have hnil := h []
  rw [List.append_nil] at hnil
  rw [hnil]
  exact List.append_nil items

theorem yields_gap {t : Token} (h : place.isGap t.kind = true) :
    Yields f place [.token t] [.gap] := by
  intro rest
  have hne : [(Component.token t).annotate f] ≠ [] := by simp
  refine Text.divide_append hne ?_
  have hgap : place.isGap ((Component.token t).annotate f).kind = true := h
  rw [List.singleton_append, Item.read, hgap]
  rfl

theorem yields_rule_of_read {opener : Token}
    (hopener : opener.kind = .openCurly)
    (hread : ∀ parts, Item.read place (c.annotate f :: parts) =
      Item.readRule place (c.annotate f :: parts))
    (hcs : ∀ d ∈ c :: cs, d.goesOn place.stopsAtSemicolon = true)
    (content : List Component) (closer : Option Token) :
    Yields f place (c :: cs ++ [.block opener content closer])
      [.rule (annotate f (c :: cs)) (curly f opener content closer)] := by
  intro rest
  rw [annotate_append]
  refine Text.divide_append (by simp) ?_
  rw [List.cons_append, annotate_cons, List.cons_append, hread,
    ← List.cons_append, ← annotate_cons, ← List.cons_append, annotate_append,
    List.append_assoc]
  refine (readRule_block hopener hcs content closer _).trans ?_
  simp

theorem yields_rule {opener : Token} (hopener : opener.kind = .openCurly)
    (hstarts : c.kind.startsRule = true)
    (hcs : ∀ d ∈ c :: cs, d.goesOn place.stopsAtSemicolon = true)
    (content : List Component) (closer : Option Token) :
    Yields f place (c :: cs ++ [.block opener content closer])
      [.rule (annotate f (c :: cs)) (curly f opener content closer)] :=
  yields_rule_of_read hopener (read_of_startsRule hstarts place) hcs content
    closer

theorem yields_stretch {t : Token} (ht : t.kind = .semicolon)
    (hplace : place.stopsAtSemicolon = true)
    (hstarts : c.kind.startsRule = true)
    (hcs : ∀ d ∈ c :: cs, d.goesOn true = true) :
    Yields f place (c :: cs ++ [.token t])
      [.stretch (annotate f (c :: cs)) true] := by
  intro rest
  rw [annotate_append]
  refine Text.divide_append (by simp) ?_
  have hread := read_of_startsRule (f := f) hstarts place
    (annotate f (cs ++ [.token t]) ++ annotate f rest)
  rw [List.cons_append, annotate_cons, List.cons_append, hread,
    ← List.cons_append, ← annotate_cons, ← List.cons_append, annotate_append,
    List.append_assoc]
  refine (readRule_semicolon ht hplace hcs _).trans ?_
  simp

/-- A stretch that ends with the sequence it stands in. -/
theorem all_stretch (hstarts : c.kind.startsRule = true)
    (hcs : ∀ d ∈ c :: cs, d.goesOn place.stopsAtSemicolon = true) :
    Item.all place (annotate f (c :: cs)) =
      [.stretch (annotate f (c :: cs)) false] := by
  have hread : Item.read place (annotate f (c :: cs) ++ []) =
      (.stretch (annotate f (c :: cs)) false,
        (annotate f (c :: cs)).length) := by
    rw [List.append_nil, annotate_cons, read_of_startsRule hstarts,
      ← annotate_cons, readRule_end hcs, length_annotate]
  have hdivide := Text.divide_append (by simp) hread
  rw [List.append_nil] at hdivide
  exact hdivide

theorem readAtRule_block {keyword opener : Token}
    (hopener : opener.kind = .openCurly)
    (hcs : ∀ d ∈ cs, d.goesOn true = true) (content : List Component)
    (closer : Option Token) (parts : Parts α) :
    Item.readAtRule keyword (annotate f cs ++
        (Component.block opener content closer).annotate f :: parts) =
      (.atRule keyword (annotate f cs)
        (some (curly f opener content closer)), cs.length + 2) := by
  have hends : Item.continues true
      ((Component.block opener content closer).annotate f) = false := by
    rw [Item.continues, curly?_annotate hopener]
    rfl
  rw [Item.readAtRule, takeWhile_continues hcs _ (by simpa using hends)]
  simp only [length_annotate, drop_annotate, curly?_annotate hopener]
  rfl

theorem yields_atRule {keyword opener : Token} {name : List Char}
    (hkeyword : keyword.kind = .atKeyword name)
    (hopener : opener.kind = .openCurly)
    (hcs : ∀ d ∈ cs, d.goesOn true = true) (content : List Component)
    (closer : Option Token) :
    Yields f place
      (.token keyword :: cs ++ [.block opener content closer])
      [.atRule keyword (annotate f cs)
        (some (curly f opener content closer))] := by
  intro rest
  rw [annotate_append]
  refine Text.divide_append (by simp) ?_
  have hread : ∀ parts, Item.read place
      ((Component.token keyword).annotate f :: parts) =
        Item.readAtRule keyword parts := by
    intro parts
    obtain ⟨kind, text⟩ := keyword
    obtain rfl : kind = .atKeyword name := hkeyword
    cases place <;> rfl
  rw [List.cons_append, annotate_cons, List.cons_append, hread,
    annotate_append, List.append_assoc]
  refine (readAtRule_block hopener hcs content closer _).trans ?_
  simp

end CssVendor.Syntax
