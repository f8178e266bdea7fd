import CssVendor.Grammar.Selector.Arguments
import CssVendor.Grammar.Stream

/-!
# Pieces of a selector

A selector is made of simple selectors, combinators and blanks. `Simple.read`
tells what the piece at the head of some parts is. What the content of a pair
of brackets is good for has been worked out before and comes with its part, as
a value of `Arguments`.
-/

namespace CssVendor.Grammar

open Syntax

/-- A piece of a selector. -/
inductive Simple
  | space
  /-- One of `>`, `+` and `~`. -/
  | combinator
  /-- The selector `&`. -/
  | nesting
  /-- An element name or `*`, with or without a namespace. -/
  | type
  /-- A namespace at the end of a selector, with nothing behind its bar. -/
  | openNamespace
  /-- An id, a class, or a well-formed attribute selector. -/
  | feature
  /-- A pseudo-class without arguments. -/
  | pseudoClass (name : List Char)
  /-- A pseudo-class with arguments. -/
  | pseudoFunction (name : List Char) (arguments : Arguments)
  /-- A pseudo-element without arguments. -/
  | pseudoElement (name : List Char)
  /-- A pseudo-element with arguments. -/
  | elementFunction (name : List Char) (arguments : Arguments)
  /-- Anything that cannot stand in a selector. -/
  | wrong
  deriving Inhabited

namespace Simple

/-- Pseudo-elements that may be written with one colon. -/
def singleColonElements : List String :=
  ["before", "after", "first-line", "first-letter"]

/-- Whether a part is an element name or `*`. -/
def isLocalName (p : Annotated Arguments) : Bool := isIdent p || isDelim '*' p

/-- A type selector behind a bar, and its length with `before` parts and the
bar. -/
def readNamespaced (before : Nat) : Parts Arguments → Simple × Nat
  | p :: _ => if isLocalName p then (.type, before + 2) else (.wrong, 1)
  | [] => (.openNamespace, before + 1)

/-- A type selector after its first name, and its length. -/
def readType : Parts Arguments → Simple × Nat
  | bar :: rest =>
      if isDelim '|' bar then readNamespaced 1 rest else (.type, 1)
  | [] => (.type, 1)

/-- What a name or function behind one colon is. -/
def readPseudoClass (p : Annotated Arguments) : Simple × Nat :=
  match ident? p, function? p with
  | some name, _ =>
      (if Text.isOneOf name singleColonElements then .pseudoElement name
        else .pseudoClass name, 2)
  | none, some (name, arguments) =>
      (if Text.isOneOf name singleColonElements then
          .elementFunction name arguments
        else .pseudoFunction name arguments, 2)
  | none, none => (.wrong, 1)

/-- What a name or function behind two colons is. -/
def readPseudoElement : Parts Arguments → Simple × Nat
  | p :: _ =>
      match ident? p, function? p with
      | some name, _ => (.pseudoElement name, 3)
      | none, some (name, arguments) => (.elementFunction name arguments, 3)
      | none, none => (.wrong, 1)
  | [] => (.wrong, 1)

/-- A pseudo-class or pseudo-element after its first colon. -/
def readPseudo : Parts Arguments → Simple × Nat
  | p :: rest =>
      if p.isToken .colon then readPseudoElement rest else readPseudoClass p
  | [] => (.wrong, 1)

/-- A class after its dot. -/
def readClass : Parts Arguments → Simple × Nat
  | p :: _ => if isIdent p then (.feature, 2) else (.wrong, 1)
  | [] => (.wrong, 1)

/-- The piece of a selector at the head of some parts, and its length. -/
def read : Parts Arguments → Simple × Nat
  | [] => (.space, 0)
  | p :: rest =>
      match p.component.kind with
      | .space => (.space, 1)
      | .ident _ => readType rest
      | .hash _ true => (.feature, 1)
      | .colon => readPseudo rest
      | .openSquare =>
          match p.content with
          | some arguments =>
              (if arguments.attributeTest then .feature else .wrong, 1)
          | none => (.wrong, 1)
      | .delim '*' => readType rest
      | .delim '|' => readNamespaced 0 rest
      | .delim '.' => readClass rest
      | .delim '&' => (.nesting, 1)
      | .delim '>' => (.combinator, 1)
      | .delim '+' => (.combinator, 1)
      | .delim '~' => (.combinator, 1)
      | _ => (.wrong, 1)

/-- The pieces of a selector. -/
def all (parts : Parts Arguments) : List Simple :=
  Text.divide read parts

end Simple

end CssVendor.Grammar
