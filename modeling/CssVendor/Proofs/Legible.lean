import CssVendor.Printer
import CssVendor.Proofs.Pointwise
import CssVendor.Proofs.Says
import CssVendor.Proofs.ValueText

/-!
# Pieces that can be read back

The conditions under which a declaration and the header of a rule, once they
are printed, say what they said before. A text that is printed as it is must be
complete in itself, have no blanks at its ends, and have nothing at its top
level that would end it early.
-/

namespace CssVendor

open Syntax Text Sheet

/-- A text that can stand where a value or a prelude stands: it is closed and
trimmed, and neither a semicolon nor a block in curly brackets ends it. -/
structure LegibleText (s : List Char) : Prop where
  closed : Closed s
  trimmed : Trimmed s
  flat : ∀ c ∈ components s, c.goesOn true = true

/-- Whether a component can be the last of a selector. -/
def Syntax.Component.endsSelector : Component → Bool
  | .token t => !t.kind.isBlank
  | .block _ _ _ => false

/-- A text that can stand where a selector stands. Neither its first nor its
last token is a blank, and so no comment; it does not begin as an at-rule or
with the sign that opens or closes a comment in a page, and it does not end in
a function or in a block. -/
structure LegibleSelector (s : List Char) : Prop extends LegibleText s where
  nonempty : s ≠ []
  single : ∀ c ∈ components s, c.isToken .comma = false
  first : ∀ c ∈ (components s).head?, c.kind.startsRule = true
  last : ∀ c ∈ (components s).getLast?, c.endsSelector = true

/-- A declaration that can be printed and read back. -/
structure Declaration.Legible (d : Declaration) : Prop where
  name : isPlainName d.name.toList = true
  value : LegibleText d.value.toList
  plain : d.important = false → ¬ EndsImportant d.value.toList

/-- A kind of block that can be printed and read back. -/
def BlockKind.Legible : BlockKind → Prop
  | .root => False
  | .style selectors =>
      selectors ≠ [] ∧ ∀ s ∈ selectors, LegibleSelector s.toList
  | .atRule name prelude =>
      (name = "media" ∨ name = "supports") ∧ LegibleText prelude.toList

instance (s : List Char) : Decidable (LegibleText s) :=
  decidable_of_iff (_ ∧ _ ∧ _)
    ⟨fun h => ⟨h.1, h.2.1, h.2.2⟩, fun h => ⟨h.closed, h.trimmed, h.flat⟩⟩

instance (s : List Char) : Decidable (LegibleSelector s) :=
  decidable_of_iff (_ ∧ _ ∧ _ ∧ _ ∧ _)
    ⟨fun h => ⟨h.1, h.2.1, h.2.2.1, h.2.2.2.1, h.2.2.2.2⟩,
      fun h => ⟨h.toLegibleText, h.nonempty, h.single, h.first, h.last⟩⟩

instance (d : Declaration) : Decidable d.Legible :=
  decidable_of_iff (_ ∧ _ ∧ _)
    ⟨fun h => ⟨h.1, h.2.1, h.2.2⟩, fun h => ⟨h.name, h.value, h.plain⟩⟩

instance (kind : BlockKind) : Decidable kind.Legible :=
  match kind with
  | .root => inferInstanceAs (Decidable False)
  | .style _ | .atRule _ _ => inferInstanceAs (Decidable (_ ∧ _))

/-- The blank that a layout writes where one can be left out. -/
def Layout.pad : Layout → List Char
  | .pretty => [' ']
  | .compact => []

variable {x : List Char}

theorem Layout.isSpace_pad (layout : Layout) :
    ∀ c ∈ layout.pad, isSpace c = true := by
  cases layout <;> decide

theorem Layout.isBlank_pad (layout : Layout) :
    ∀ c ∈ layout.pad, isBlank c = true :=
  fun c hc => isBlank_of_isSpace (layout.isSpace_pad c hc)

/-! ## Components around which there are blanks -/

theorem endsSelector_of_like {c c' : Component} (h : c.Like c') :
    c'.endsSelector = c.endsSelector := by
  rcases h with rfl | ⟨t, t', rfl, rfl, hkind⟩
  · rfl
  · simp only [Component.endsSelector, hkind]

theorem exists_token_of_endsSelector {c : Component}
    (h : c.endsSelector = true) :
    ∃ t, c = .token t ∧ t.kind.isBlank = false := by
  cases c with
  | token t => exact ⟨t, rfl, by simpa [Component.endsSelector] using h⟩
  | block opener content closer => cases h

/-- What holds of a text's components holds of them with blanks around, if it
depends on their kinds alone and holds of blanks. -/
theorem forall_padded {p : Component → Prop}
    {cs blanks middle blanks' : List Component} (h : ∀ c ∈ cs, p c)
    (hlike : List.Forall₂ Component.Like cs middle)
    (hblanks : ∀ c ∈ blanks ++ blanks', c.IsSpace)
    (hp : ∀ c c', c.Like c' → p c → p c') (hspace : ∀ c, c.IsSpace → p c) :
    ∀ c ∈ blanks ++ (middle ++ blanks'), p c := by
  intro c hc
  rcases List.mem_append.1 hc with hc | hc
  · exact hspace c (hblanks c (List.mem_append_left _ hc))
  · rcases List.mem_append.1 hc with hc | hc
    · exact forall₂_mem_right (fun a b ha hab => hp a b hab ha) hlike h c hc
    · exact hspace c (hblanks c (List.mem_append_right _ hc))

theorem goesOn_padded {s : List Char} {blanks middle blanks' : List Component}
    (h : LegibleText s)
    (hlike : List.Forall₂ Component.Like (components s) middle)
    (hblanks : ∀ c ∈ blanks ++ blanks', c.IsSpace) :
    ∀ c ∈ blanks ++ (middle ++ blanks'), c.goesOn true = true := by
  refine forall_padded h.flat hlike hblanks
    (fun c c' hlike hc => (goesOn_of_like hlike true).trans hc) ?_
  rintro c ⟨w, rfl, -⟩
  rfl

/-! ## Declarations -/

/-- What is printed behind the colon. -/
def Declaration.payload (layout : Layout) (d : Declaration) : List Char :=
  layout.pad ++ (d.value.toList ++
    if d.important then layout.pad ++ "!important".toList else [])

theorem Declaration.tail_payload (d : Declaration) (layout : Layout) :
    Tail isSpace d.important
      (if d.important then layout.pad ++ "!important".toList else []) := by
  cases d.important with
  | false => exact .plain (List.forall_mem_nil _)
  | true =>
      have hword : isKeyword "important".toList "important" = true := by decide
      exact .important layout.isSpace_pad (List.forall_mem_nil _) hword
        (List.forall_mem_nil _)

/-- What is printed behind the colon reads as a value that says the same. -/
theorem Declaration.Legible.reads_payload {d : Declaration} (h : d.Legible)
    (layout : Layout) (hx : StartsBreak x)
    (hblank : headIs isSpace x = false) :
    ∃ value, Reads (d.payload layout) value x ∧
      Renders d.value.toList d.important value ∧
      splitImportant (textOf value) = (d.value.toList, d.important) := by
  have htail := d.tail_payload layout
  obtain ⟨value, hreads, hrenders⟩ := reads_value h.value.closed
    h.value.trimmed layout.isSpace_pad htail hx hblank
  refine ⟨value, hreads, hrenders, ?_⟩
  rw [hreads.text]
  exact splitImportant_append h.value.trimmed h.plain layout.isBlank_pad
    (htail.imp fun _ _ => isBlank_of_isSpace)

/-- A declaration as it is printed, without the semicolon. -/
def Declaration.written (layout : Layout) (d : Declaration) : List Char :=
  d.name.toList ++ ':' :: d.payload layout

theorem Declaration.Legible.reads_written {d : Declaration} (h : d.Legible)
    {layout : Layout} {value : List Component}
    (hreads : Reads (d.payload layout) value x) :
    Reads (d.written layout) (declarationParts d.name.toList value) x := by
  have hcolon := Reads.mark (c := ':') (by decide) rfl
    (d.payload layout ++ x)
  have hname := Reads.name (x := ':' :: (d.payload layout ++ x)) h.name
    (startsBreak_cons (by decide) (by decide) (by decide))
  exact hname.append (hcolon.append hreads)

theorem declaration?_written {d : Declaration} {value : List Component}
    (h : splitImportant (textOf value) = (d.value.toList, d.important)) :
    declaration? (annotate bodyOf (declarationParts d.name.toList value)) =
      some d := by
  rw [declaration?_parts h]
  simp

/-- A printed declaration reads as a name, a colon and a value, and says what
the declaration said. -/
theorem Declaration.Legible.reads {d : Declaration} (h : d.Legible)
    (layout : Layout) (hx : StartsBreak x)
    (hblank : headIs isSpace x = false) :
    ∃ value, Reads (d.written layout)
        (declarationParts d.name.toList value) x ∧
      (∀ c ∈ value, c.goesOn true = true) ∧
      declaration? (annotate bodyOf (declarationParts d.name.toList value)) =
        some d := by
  obtain ⟨value, hreads, hrenders, hsplit⟩ := h.reads_payload layout hx hblank
  exact ⟨value, h.reads_written hreads, hrenders.flat.2 h.value.flat,
    declaration?_written hsplit⟩

end CssVendor
