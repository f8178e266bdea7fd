import CssVendor.Proofs.PrintedPieces
import Mathlib.Data.List.Chain

/-!
# Printing is compositional

What is printed of a tree is made of what is printed of its parts. In the
pretty layout the text of a block is a list of lines behind an indent
(`Block.lines`), and these are all the lines there are if no text in the tree
contains a line end. In the compact layout what counts is what stands next to
what: `Piece.Precedes` says which piece may follow which, and every sheet is
written in a chain of that relation.
-/

namespace CssVendor

open Piece

/-! ## Lines -/

/-- The texts of a kind of block stay on one line. -/
def BlockKind.OneLine : BlockKind → Prop
  | .root => True
  | .style selectors => ∀ s ∈ selectors, '\n' ∉ s.toList
  | .atRule name prelude => '\n' ∉ name.toList ∧ '\n' ∉ prelude.toList

/-- The texts of a declaration stay on one line. -/
def Declaration.OneLine (d : Declaration) : Prop :=
  '\n' ∉ d.name.toList ∧ '\n' ∉ d.value.toList

/-- No text of a tree contains a line end. -/
def Block.OneLine (b : Block) : Prop :=
  ∀ c ∈ b.preorder, c.kind.OneLine ∧ ∀ d ∈ c.declarations, d.OneLine

/-- A text with `pad` before every line. The flag says whether a line begins
with the text. -/
def padLines (pad : List Char) : Bool → List Char → List Char
  | _, [] => []
  | start, c :: s =>
      (if start then pad else []) ++ c :: padLines pad (c == '\n') s

/-- The lines of a block in the pretty layout, as they are at the top of a
sheet. -/
def Block.lines : Block → List String
  | ⟨kind, declarations, children⟩ =>
      (kind.header .pretty ++ " \x7b") ::
        ((declarations.map fun d => "  " ++ d.text ++ ";") ++
          (go children).map ("  " ++ ·) ++ ["\x7d"])
where
  go : List Block → List String
    | [] => []
    | c :: cs => lines c ++ go cs

/-- Lines with an indent before and a line end behind each. -/
def joinLines (depth : Nat) (ls : List String) : String :=
  String.join (ls.map fun l => indent depth ++ l ++ "\n")

theorem joinLines_append (depth : Nat) (ls ms : List String) :
    joinLines depth (ls ++ ms) = joinLines depth ls ++ joinLines depth ms := by
  simp [joinLines]

/-- Two spaces before each line are one level more. -/
theorem joinLines_indented (depth : Nat) (ls : List String) :
    joinLines depth (ls.map ("  " ++ ·)) = joinLines (depth + 1) ls := by
  rw [joinLines, joinLines, List.map_map]
  refine congrArg String.join (List.map_congr_left fun l _ => ?_)
  rw [Function.comp_apply, indent, indent_comm, ← String.append_assoc]

theorem lines_go_eq (cs : List Block) :
    Block.lines.go cs = cs.flatMap Block.lines := by
  induction cs with
  | nil => rfl
  | cons c cs ih => rw [Block.lines.go, ih, List.flatMap_cons]

theorem joinLines_flatMap (depth : Nat) (cs : List Block) :
    joinLines depth (cs.flatMap Block.lines) =
      String.join (cs.map fun c => joinLines depth c.lines) := by
  induction cs with
  | nil => simp [joinLines]
  | cons c cs ih =>
      rw [List.flatMap_cons, joinLines_append, ih, List.map_cons,
        String.join_cons]

/-- The depth of a block decides how far its lines are indented and nothing
else. -/
theorem prettyText_eq_joinLines (b : Block) : ∀ depth,
    b.prettyText depth = joinLines depth b.lines := by
  induction b using Block.inductionOn with
  | h b ih =>
      intro depth
      obtain ⟨kind, ds, cs⟩ := b
      have hcs : cs.map (Block.prettyText (depth + 1)) =
          cs.map fun c => joinLines (depth + 1) c.lines :=
        List.map_congr_left fun c hc => ih c hc (depth + 1)
      have hds : joinLines depth (ds.map fun d => "  " ++ d.text ++ ";") =
          String.join (ds.map fun d =>
            indent depth ++ "  " ++ d.text ++ ";\n") := by
        rw [joinLines, List.map_map]
        refine congrArg String.join (List.map_congr_left fun d _ => ?_)
        simp [String.append_assoc]
      have hhead : joinLines depth [kind.header .pretty ++ " \x7b"] =
          indent depth ++ kind.header .pretty ++ " \x7b\n" := by
        simp [joinLines, String.append_assoc]
      have hlast : joinLines depth ["\x7d"] = indent depth ++ "\x7d\n" := by
        simp [joinLines, String.append_assoc]
      rw [Block.prettyText, Block.prettyText_go_eq, hcs, Block.lines,
        lines_go_eq, ← List.singleton_append, joinLines_append,
        joinLines_append, joinLines_append, joinLines_indented,
        joinLines_flatMap, hhead, hds, hlast]
      simp [String.append_assoc]

theorem not_mem_intercalate {c : Char} {sep : List Char}
    {ls : List (List Char)} (hsep : c ∉ sep) (h : ∀ l ∈ ls, c ∉ l) :
    c ∉ sep.intercalate ls := by
  induction ls with
  | nil => simp
  | cons l ls ih =>
      cases ls with
      | nil => simpa using h l (by simp)
      | cons m ls =>
          have hrest := ih fun n hn => h n (by simp [hn])
          rw [List.intercalate_cons_cons, List.mem_append, List.mem_append]
          simp [h l (by simp), hsep, hrest]

theorem BlockKind.OneLine.header {kind : BlockKind} (h : kind.OneLine) :
    '\n' ∉ (kind.header .pretty).toList := by
  cases kind with
  | root => simp [BlockKind.header]
  | style selectors =>
      rw [BlockKind.header, String.toList_intercalate]
      refine not_mem_intercalate (by decide) fun l hl => ?_
      obtain ⟨s, hs, rfl⟩ := List.mem_map.1 hl
      exact h s hs
  | atRule name prelude =>
      rw [BlockKind.header]
      split <;> simp [h.1, h.2]

theorem Declaration.OneLine.text {d : Declaration} (h : d.OneLine) :
    '\n' ∉ d.text.toList := by
  cases himportant : d.important <;>
    simp [Declaration.text, himportant, h.1, h.2]

theorem Block.OneLine.child {b c : Block} (h : b.OneLine)
    (hc : c ∈ b.children) : c.OneLine :=
  fun d hd => h d (Block.mem_preorder.2 (Or.inr ⟨c, hc, hd⟩))

/-- If no text contains a line end, what is called a line is one. -/
theorem Block.OneLine.lines {b : Block} (h : b.OneLine) :
    ∀ l ∈ b.lines, '\n' ∉ l.toList := by
  induction b using Block.inductionOn with
  | h b ih =>
      obtain ⟨hkind, hds⟩ := h b (Block.mem_preorder.2 (Or.inl rfl))
      obtain ⟨kind, ds, cs⟩ := b
      intro l hl
      rw [Block.lines, lines_go_eq] at hl
      simp only [List.mem_cons, List.mem_append, List.mem_map,
        List.mem_flatMap, List.not_mem_nil, or_false] at hl
      rcases hl with rfl | (⟨d, hd, rfl⟩ | ⟨line, ⟨c, hc, hline⟩, rfl⟩) | rfl
      · simp [hkind.header]
      · simp [(hds d hd).text]
      · simp [ih c hc (h.child hc) line hline]
      · decide

theorem toList_indent (depth : Nat) :
    (indent depth).toList = List.replicate (2 * depth) ' ' := by
  induction depth with
  | zero => rfl
  | succ depth ih =>
      rw [indent, String.toList_append, ih, Nat.mul_succ,
        Nat.add_comm, ← List.replicate_append_replicate]
      rfl

theorem padLines_of_not_mem {pad line : List Char} (h : '\n' ∉ line)
    (rest : List Char) :
    padLines pad false (line ++ '\n' :: rest) =
      line ++ '\n' :: padLines pad true rest := by
  induction line with
  | nil => rfl
  | cons c line ih =>
      have hc : (c == '\n') = false := by
        rw [beq_eq_false_iff_ne]
        rintro rfl
        exact h (List.mem_cons_self ..)
      have hline : '\n' ∉ line := fun hmem => h (List.mem_cons_of_mem _ hmem)
      rw [List.cons_append, padLines, hc, ih hline]
      rfl

/-- A line gets one indent, and the lines behind it get theirs. -/
theorem padLines_line {pad line : List Char} (h : '\n' ∉ line)
    (rest : List Char) :
    padLines pad true (line ++ '\n' :: rest) =
      pad ++ (line ++ '\n' :: padLines pad true rest) := by
  rw [← padLines_of_not_mem h]
  cases line <;> rfl

theorem padLines_joinLines (depth : Nat) {ls : List String}
    (h : ∀ l ∈ ls, '\n' ∉ l.toList) :
    padLines (indent depth).toList true (joinLines 0 ls).toList =
      (joinLines depth ls).toList := by
  induction ls with
  | nil => simp [joinLines, padLines]
  | cons l ls ih =>
      have hcons : ∀ depth, (joinLines depth (l :: ls)).toList =
          (indent depth).toList ++
            (l.toList ++ '\n' :: (joinLines depth ls).toList) := by
        intro depth
        simp [joinLines]
      rw [hcons, hcons, ← ih fun m hm => h m (by simp [hm]),
        ← padLines_line (h l (by simp))]
      rfl

/-- A block is printed at any depth as it is at the top of a sheet, with two
spaces a level before every line. -/
theorem prettyText_eq_padLines {b : Block} (h : b.OneLine) (depth : Nat) :
    (b.prettyText depth).toList =
      padLines (List.replicate (2 * depth) ' ') true
        (b.prettyText 0).toList := by
  rw [prettyText_eq_joinLines, prettyText_eq_joinLines, ← toList_indent,
    padLines_joinLines depth h.lines]

/-! ## What stands next to what -/

/-- Which piece may stand right behind which: behind a declaration only a
semicolon or the end of its block, and a semicolon only between a declaration
and a declaration or a block. -/
def Piece.Precedes : Piece → Piece → Prop
  | .declaration .., .semicolon => True
  | .declaration .., .closing _ => True
  | .declaration .., _ => False
  | .semicolon, .declaration .. => True
  | .semicolon, .opening .. => True
  | .semicolon, _ => False
  | _, .semicolon => False
  | _, _ => True

/-- Declarations are told apart by semicolons, and the last is told apart from
a child, but not from the closing brace. The induction needs to know what
stands before the declarations: an opening brace, or the semicolon behind
another declaration. -/
theorem isChain_declarations {lead : String} {hasChildren : Bool}
    {rest : List Piece} (hrest : rest.IsChain Piece.Precedes)
    (hopen : hasChildren = true →
      ∀ q ∈ rest.head?, ∃ lead header, q = .opening lead header)
    (hclose : hasChildren = false →
      ∀ q ∈ rest.head?, ∃ lead, q = .closing lead)
    (ds : List Declaration) : ∀ p : Piece,
    (∀ lead d, p.Precedes (.declaration lead d)) →
    (ds = [] → ∀ q ∈ rest.head?, p.Precedes q) →
    (p :: (declarationPieces .compact lead hasChildren ds ++ rest)).IsChain
      Piece.Precedes := by
  induction ds with
  | nil =>
      intro p _ hnil
      exact List.isChain_cons.2 ⟨hnil rfl, hrest⟩
  | cons d ds ih =>
      intro p hp _
      rw [declarationPieces, List.cons_append]
      refine List.isChain_cons_cons.2 ⟨hp lead d, ?_⟩
      by_cases hmore : ds ≠ [] ∨ hasChildren = true
      · rw [if_pos ⟨rfl, hmore⟩]
        refine List.isChain_cons_cons.2
          ⟨trivial, ih _ (fun _ _ => trivial) ?_⟩
        rintro rfl q hq
        obtain ⟨lead, header, rfl⟩ :=
          hopen (hmore.resolve_left fun h => h rfl) q hq
        exact trivial
      · obtain ⟨hds, hchildren⟩ := not_or.1 hmore
        obtain rfl := not_not.1 hds
        rw [if_neg fun h => hmore h.2]
        refine List.isChain_cons.2 ⟨fun q hq => ?_, hrest⟩
        obtain ⟨lead, rfl⟩ := hclose (by simpa using hchildren) q hq
        exact trivial

namespace Block

variable {layout : Layout} {depth : Nat}

theorem head?_write (b : Block) : (b.write layout depth []).head? =
    some (.opening (layout.lead depth) (b.kind.header layout)) := by
  rw [write_nil_eq]
  rfl

theorem getLast?_write (b : Block) : (b.write layout depth []).getLast? =
    some (.closing (layout.lead depth)) := by
  rw [write_nil_eq, ← List.cons_append, List.getLast?_concat]

/-- What begins with blocks begins with an opening brace. -/
theorem head?_blocks {cs : List Block} (h : cs ≠ []) (rest : List Piece) :
    ∀ q ∈ ((cs.flatMap fun c => c.write layout depth []) ++ rest).head?,
      ∃ lead header, q = .opening lead header := by
  intro q hq
  obtain ⟨c, cs, rfl⟩ := List.exists_cons_of_ne_nil h
  rw [List.flatMap_cons, List.append_assoc, List.head?_append, head?_write]
    at hq
  exact ⟨_, _, (Option.some.inj hq).symm⟩

theorem isChain_blocks {cs : List Block} {rest : List Piece}
    (h : ∀ c ∈ cs, (c.write .compact depth []).IsChain Piece.Precedes)
    (hrest : rest.IsChain Piece.Precedes)
    (hclose : ∀ q ∈ rest.head?, ∃ lead, q = .closing lead) :
    ((cs.flatMap fun c => c.write .compact depth []) ++ rest).IsChain
      Piece.Precedes := by
  induction cs with
  | nil => exact hrest
  | cons c cs ih =>
      rw [List.flatMap_cons, List.append_assoc]
      refine (h c (by simp)).append (ih fun d hd => h d (by simp [hd])) ?_
      intro p hp q hq
      rw [getLast?_write] at hp
      obtain rfl := Option.some.inj hp
      by_cases hcs : cs = []
      · subst hcs
        obtain ⟨lead, rfl⟩ := hclose q hq
        exact trivial
      · obtain ⟨lead, header, rfl⟩ := head?_blocks hcs rest q hq
        exact trivial

/-- Every block is written so that each piece may follow the one before. -/
theorem isChain_write (b : Block) : ∀ depth,
    (b.write .compact depth []).IsChain Piece.Precedes := by
  induction b using inductionOn with
  | h b ih =>
      intro depth
      obtain ⟨kind, ds, cs⟩ := b
      rw [write_nil_eq, List.append_assoc]
      have hrest := isChain_blocks (fun c hc => ih c hc (depth + 1))
        (List.isChain_singleton (.closing (Layout.lead depth .compact)))
        (fun q hq => ⟨_, (Option.some.inj hq).symm⟩)
      refine isChain_declarations hrest (fun hchildren => ?_)
        (fun hchildren => ?_) ds _ (fun _ _ => trivial) fun _ q hq => ?_
      · exact head?_blocks (by simpa using hchildren) _
      · rw [show cs = [] by simpa using hchildren]
        exact fun q hq => ⟨_, (Option.some.inj hq).symm⟩
      · by_cases hcs : cs = []
        · subst hcs
          obtain rfl := Option.some.inj hq
          exact trivial
        · obtain ⟨lead, header, rfl⟩ := head?_blocks hcs _ q hq
          exact trivial

/-- Printing is compositional. A sheet is the text of the pieces its blocks are
written in, and what a block is written in depends neither on what stands
before it nor, but for the indent, on its depth. Each block is made of its
header, its declarations and what is printed of its children, and each sheet of
what is printed of its blocks. In the compact layout a declaration always has a
semicolon between it and what follows it in its block, and no semicolon is
written right before a closing brace. -/
theorem printing_compositional :
    (∀ layout t, textAll layout (writeSheet layout t) = t.print layout) ∧
    (∀ layout depth out b,
      write layout depth out b = out ++ b.write layout depth []) ∧
    (∀ b : Block, b.OneLine → ∀ depth,
      (b.printed .pretty depth).toList =
        padLines (List.replicate (2 * depth) ' ') true
          (b.printed .pretty 0).toList) ∧
    (∀ b depth, printed .pretty depth b =
      indent depth ++ b.kind.header .pretty ++ " \x7b\n" ++
        String.join (b.declarations.map fun d =>
          indent (depth + 1) ++ d.text ++ ";\n") ++
        String.join (b.children.map (printed .pretty (depth + 1))) ++
        indent depth ++ "\x7d\n") ∧
    (∀ t : Block, t.kind = .root → (∀ c ∈ t.children, c.kind ≠ .root) →
      t.print .pretty =
        String.intercalate "\n" (t.children.map (print .pretty))) ∧
    (∀ b depth, printed .compact depth b =
      b.kind.header .compact ++ "\x7b" ++
        String.intercalate ";" (b.declarations.map Declaration.compactText) ++
        (if b.declarations ≠ [] ∧ b.children ≠ [] then ";" else "") ++
        String.join (b.children.map (printed .compact (depth + 1))) ++
        "\x7d") ∧
    (∀ t : Block, t.kind = .root → t.print .compact =
      String.join (t.children.map (printed .compact 0))) ∧
    (∀ t, (writeSheet .compact t).IsChain Piece.Precedes) := by
  refine ⟨textAll_writeSheet, fun layout depth out b =>
    b.write_append layout depth out, fun b h depth => ?_, printed_pretty,
    fun t ht hcs => ?_, printed_compact, fun t ht => ?_, fun t => ?_⟩
  · rw [printed_eq_prettyText, printed_eq_prettyText]
    exact prettyText_eq_padLines h depth
  · rw [print_of_root ht]
    refine congrArg _ (List.map_congr_left fun c hc => ?_)
    exact (print_of_not_root (hcs c hc) .pretty).symm
  · rw [print_of_root ht]
    have hprinted : printed .compact 0 = textIn .compact :=
      funext (printed_zero .compact)
    rw [hprinted]
    generalize t.children.map (textIn .compact) = texts
    cases texts with
    | nil => simp
    | cons s texts =>
        rw [intercalate_eq_join, String.join_cons]
        simp [Layout.gap]
  · rw [writeSheet, writeBlocks_compact, List.nil_append, ← List.append_nil
      (List.flatMap _ _)]
    exact isChain_blocks (fun c _ => c.isChain_write 0) .nil (by simp)

/-- A group with a rule in it, one level deep and twice in a sheet. -/
theorem printing_compositional_group :
    let b : Block := ⟨.atRule "media" "print", [],
      [⟨.style [".b", "p"], [⟨"width", "0", true⟩], []⟩]⟩
    (b.printed .pretty 1).toList =
        padLines "  ".toList true (b.printed .pretty 0).toList ∧
      print .pretty ⟨.root, [], [b, b]⟩ =
        String.intercalate "\n" [b.print .pretty, b.print .pretty] ∧
      print .compact ⟨.root, [], [b, b]⟩ =
        String.join [b.printed .compact 0, b.printed .compact 0] := by
  intro b
  have hline : b.OneLine := by
    simp [b, OneLine, preorder, preorder.go, BlockKind.OneLine,
      Declaration.OneLine]
  obtain ⟨-, -, hpretty, -, hsheet, -, hcompact, -⟩ := printing_compositional
  exact ⟨hpretty b hline 1,
    hsheet ⟨.root, [], [b, b]⟩ rfl (by simp [b]),
    hcompact ⟨.root, [], [b, b]⟩ rfl⟩

end Block

end CssVendor
