import CssVendor.Syntax.Component

/-!
# Looking at parts

Small readers that the grammars share. Each looks at the head of a list of
parts and, if it finds what it is named for, gives back what follows. Comments
mean nothing to any grammar and are taken out beforehand; white space is
passed over where a grammar does not ask for it.

Where it matters why a reader fails, it answers with a `Failure`: parts that
end too early may be forgiven where parts with something wrong in them are
not.
-/

namespace CssVendor.Grammar

open Syntax

variable {α : Type}

/-! ## Failures -/

/-- Why parts cannot be read. -/
inductive Failure
  /-- They end where more is needed. -/
  | early
  /-- They hold something that cannot stand where it does. -/
  | wrong
  deriving DecidableEq, Repr, Inhabited

/-- Whether a reader succeeded. -/
def isOk {β : Type} : Except Failure β → Bool
  | .ok _ => true
  | .error _ => false

/-- The failure of a reader that does not accept what it finds. -/
def failureAt : Parts α → Failure
  | [] => .early
  | _ :: _ => .wrong

/-! ## Heads of parts -/

/-- The parts without the comments among them. -/
def withoutComments (parts : Parts α) : Parts α :=
  parts.filter fun p => p.kind != .comment

/-- The parts of components whose brackets have no meaning of their own. -/
def plainParts (cs : List Component) : Parts Unit :=
  withoutComments (annotate (fun _ => ()) cs)

/-- The parts from the first one on that is not white space. -/
def skipSpace (parts : Parts α) : Parts α :=
  parts.dropWhile fun p => p.kind == .space

/-- Whether nothing but white space is left. -/
def isEnd (parts : Parts α) : Bool := (skipSpace parts).isEmpty

/-- Accepts parts of which nothing but white space is left. -/
def finish (parts : Parts α) : Except Failure Unit :=
  if isEnd parts then .ok () else .error .wrong

/-- The name that an identifier token writes. -/
def ident? (p : Annotated α) : Option (List Char) :=
  match p.component with
  | .token ⟨.ident name, _⟩ => some name
  | _ => none

/-- Whether a part is an identifier. -/
def isIdent (p : Annotated α) : Bool := (ident? p).isSome

/-- Whether a part is an identifier that reads as one of some keywords. -/
def isKeyword (keywords : List String) (p : Annotated α) : Bool :=
  match ident? p with
  | some name => Text.isOneOf name keywords
  | none => false

/-- What follows an identifier. -/
def afterIdent? (parts : Parts α) : Option (Parts α) :=
  match skipSpace parts with
  | p :: rest => if isIdent p then some rest else none
  | [] => none

/-- What follows one of some keywords. -/
def afterKeyword? (keywords : List String) (parts : Parts α) :
    Option (Parts α) :=
  match skipSpace parts with
  | p :: rest => if isKeyword keywords p then some rest else none
  | [] => none

/-- Whether a part is a string. -/
def isString (p : Annotated α) : Bool := p.isToken .string

/-- Whether a part is a token of one character without a meaning of its own. -/
def isDelim (c : Char) (p : Annotated α) : Bool := p.isToken (.delim c)

/-- The name and the content of a function. -/
def function? (p : Annotated α) : Option (List Char × α) :=
  match p.component.kind, p.content with
  | .function name, some a => some (name, a)
  | _, _ => none

/-- The content of a block in round brackets. -/
def round? (p : Annotated α) : Option α :=
  if p.kind == .openRound then p.content else none

/-- Whether parts are, white space apart, one part of a kind. -/
def isOne (accepts : Annotated α → Bool) (parts : Parts α) : Bool :=
  match skipSpace parts with
  | p :: rest => accepts p && isEnd rest
  | [] => false

/-- Whether parts are a list with commas in between of parts of a kind. -/
def isListOf (accepts : Annotated α → Bool) (parts : Parts α) : Bool :=
  (splitCommas parts).all (isOne accepts)

end CssVendor.Grammar
