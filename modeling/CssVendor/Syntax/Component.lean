import CssVendor.Syntax.Lexer

/-!
# Component values

Tokens with their brackets matched: a component is a token, or a block between
an opening token and the token that closes it. A closing token closes the
innermost open block or, if it does not fit that block, stands by itself. The
end of the text closes everything that is open.

Brackets are matched by a fold over the tokens that keeps the open blocks on a
stack. `Component.annotate` works a value out for every block from the values
of the blocks inside it, so that what reads a sheet can look at one level at a
time.
-/

namespace CssVendor.Syntax

/-- A token, or a block with its content. -/
inductive Component
  | token (t : Token)
  | block (opener : Token) (content : List Component) (closer : Option Token)
  deriving Repr, Inhabited

namespace Component

/-- The kind of the token, or of the token that opens the block. -/
def kind : Component → TokenKind
  | .token t => t.kind
  | .block opener _ _ => opener.kind

/-- Whether the component is a token of a kind. -/
def isToken (kind : TokenKind) : Component → Bool
  | .token t => t.kind == kind
  | .block _ _ _ => false

/-- Whether the component is a block in curly brackets. -/
def isCurly : Component → Bool
  | .token _ => false
  | .block opener _ _ => opener.kind == .openCurly

/-- Whether the component only separates others. -/
def isBlank (c : Component) : Bool := c.kind.isBlank

/-- The text the component was read from. -/
def text : Component → List Char
  | .token t => t.text
  | .block opener content closer =>
      opener.text ++ textOfAll content ++ (closer.map Token.text).getD []
where
  /-- The text the components of a list were read from. -/
  textOfAll : List Component → List Char
    | [] => []
    | c :: cs => text c ++ textOfAll cs

/-- The text before the content of a block, or all of a token. -/
def openingText : Component → List Char
  | .token t => t.text
  | .block opener _ _ => opener.text

/-- Whether no token at any depth is an error. -/
def isClean : Component → Bool
  | .token t => !t.kind.isError
  | .block _ content _ => allClean content
where
  /-- Whether no token of a list at any depth is an error. -/
  allClean : List Component → Bool
    | [] => true
    | c :: cs => isClean c && allClean cs

/-- How deep blocks are nested in the component. -/
def height : Component → Nat
  | .token _ => 0
  | .block _ content _ => heightOfAll content + 1
where
  /-- How deep blocks are nested in the components of a list. -/
  heightOfAll : List Component → Nat
    | [] => 0
    | c :: cs => max (height c) (heightOfAll cs)

end Component

/-- The text that components were read from. -/
def textOf (cs : List Component) : List Char := Component.text.textOfAll cs

@[simp] theorem textOf_nil : textOf [] = [] := rfl

@[simp] theorem textOf_cons (c : Component) (cs : List Component) :
    textOf (c :: cs) = c.text ++ textOf cs := rfl

theorem textOf_append (cs ds : List Component) :
    textOf (cs ++ ds) = textOf cs ++ textOf ds := by
  induction cs with
  | nil => rfl
  | cons c cs ih => simp [ih]

/-! ## Matching brackets -/

/-- An open block: the token that opened it, and the components before it on
its level, last one first. -/
structure Frame where
  opener : Token
  before : List Component
  deriving Repr, Inhabited

/-- A stage of matching brackets: the components of the innermost level, last
one first, and the blocks that are open, innermost first. -/
structure Nesting where
  level : List Component
  frames : List Frame
  deriving Repr, Inhabited

namespace Nesting

/-- Takes in one token. -/
def push (n : Nesting) (t : Token) : Nesting :=
  match t.kind.closer?, n.frames with
  | some _, frames => ⟨[], ⟨t, n.level⟩ :: frames⟩
  | none, [] => ⟨.token t :: n.level, []⟩
  | none, f :: frames =>
      if f.opener.kind.closer? == some t.kind then
        ⟨.block f.opener n.level.reverse (some t) :: f.before, frames⟩
      else ⟨.token t :: n.level, f :: frames⟩

/-- Closes the open blocks, given the components of the innermost level. -/
def close (level : List Component) : List Frame → List Component
  | [] => level.reverse
  | f :: frames => close (.block f.opener level.reverse none :: f.before) frames

end Nesting

/-- The components that tokens make up. -/
def nest (tokens : List Token) : List Component :=
  let n := tokens.foldl Nesting.push ⟨[], []⟩
  Nesting.close n.level n.frames

/-- The components of a text. -/
def components (s : List Char) : List Component := nest (tokenize s)

/-! ## Values worked out level by level -/

/-- A component and, if it is a block, what was worked out for it. -/
structure Annotated (α : Type) where
  component : Component
  content : Option α
  deriving Inhabited

/-- The parts of a text at one level: its components, each worked out. -/
abbrev Parts (α : Type) := List (Annotated α)

namespace Annotated

variable {α : Type}

/-- The kind of the token, or of the token that opens the block. -/
def kind (p : Annotated α) : TokenKind := p.component.kind

/-- Whether the part only separates others. -/
def isBlank (p : Annotated α) : Bool := p.component.isBlank

/-- Whether the part is a token of a kind. -/
def isToken (p : Annotated α) (kind : TokenKind) : Bool :=
  p.component.isToken kind

/-- What was worked out for a block in curly brackets. -/
def curly? (p : Annotated α) : Option α :=
  if p.component.isCurly then p.content else none

end Annotated

/-- The component with what `f` makes of its content, if it is a block. The
parts that `f` is given have been worked out before. -/
def Component.annotate {α : Type} (f : Parts α → α) : Component → Annotated α
  | .token t => ⟨.token t, none⟩
  | .block opener content closer =>
      ⟨.block opener content closer, some (f (all content))⟩
where
  /-- The components of a list, each worked out. -/
  all : List Component → Parts α
    | [] => []
    | c :: cs => annotate f c :: all cs

/-- The components of a list with what `f` makes of their contents. -/
def annotate {α : Type} (f : Parts α → α) (cs : List Component) : Parts α :=
  Component.annotate.all f cs

/-- The components of parts. -/
def componentsOf {α : Type} (parts : Parts α) : List Component :=
  parts.map Annotated.component

/-- The parts between top-level commas. -/
def splitCommas {α : Type} : Parts α → List (Parts α)
  | [] => [[]]
  | p :: parts =>
      if p.isToken .comma then [] :: splitCommas parts
      else match splitCommas parts with
        | segment :: segments => (p :: segment) :: segments
        | [] => [[p]]

end CssVendor.Syntax
