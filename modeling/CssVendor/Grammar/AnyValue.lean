import CssVendor.Grammar.Name
import CssVendor.Grammar.Stream

/-!
# Values without a grammar of their own

Where no grammar says what a value is, any tokens may stand for one, provided
that none of them is an error and that brackets are not nested too deep. Three
functions keep their form even there: `url()` holds one string, `var()` names
a custom property, and `env()` names a variable of the environment with its
indices. Behind the name of a variable, a comma and a value to fall back on may
follow. The names of the three are told by their exact letters.

A fallback of `var()` lies one level deeper than the function, as the content
of any bracket does, and that of `env()` two levels. The two colours of
`light-dark()` are values in themselves, for which the count begins anew.
-/

namespace CssVendor.Grammar

open Syntax

/-- How deep values may be nested. -/
def maxDepth : Nat := 500

/-! ## Functions that keep their form -/

/-- The components that do more than separate others. -/
def significant (cs : List Component) : List Component :=
  cs.filter fun c => !c.isBlank

/-- Whether components are one string, as `url()` holds it. -/
def isQuotedAddress (cs : List Component) : Bool :=
  match significant cs with
  | [c] => c.isToken .string
  | _ => false

/-- Whether nothing follows, or a comma. -/
def isFallback : List Component → Bool
  | [] => true
  | c :: _ => c.isToken .comma

/-- Whether components name a custom property, as `var()` does. -/
def isVariable (cs : List Component) : Bool :=
  match significant cs with
  | .token ⟨.ident name, _⟩ :: rest => isCustomName name && isFallback rest
  | _ => false

/-- Whether a component is a whole number. -/
def isIndex : Component → Bool
  | .token ⟨.number, text⟩ => (wholeNumber? text).isSome
  | _ => false

/-- Whether components name a variable of the environment, as `env()` does. -/
def isEnvironment (cs : List Component) : Bool :=
  match significant cs with
  | .token ⟨.ident name, _⟩ :: rest =>
      isFreeName name && isFallback (rest.dropWhile isIndex)
  | _ => false

/-- Whether the content of a block keeps the form that its opening asks
for. -/
def isContentOf (opener : TokenKind) (content : List Component) : Bool :=
  match opener with
  | .function name =>
      if name == "url".toList then isQuotedAddress content
      else if name == "var".toList then isVariable content
      else if name == "env".toList then isEnvironment content
      else true
  | _ => true

/-! ## Depth -/

/-- Whether a comma stands at the top level of components. -/
def hasComma (cs : List Component) : Bool := cs.any (·.isToken .comma)

/-- The depth of the content of a block at a given depth. Without a comma, the
three functions that keep their form hold no value. -/
def contentDepth (depth : Nat) (opener : TokenKind)
    (content : List Component) : Nat :=
  match opener with
  | .function name =>
      if name == "env".toList then
        if hasComma content then depth + 2 else depth
      else if name == "url".toList || name == "var".toList then
        if hasComma content then depth + 1 else depth
      else if Text.isKeyword name "light-dark" && hasComma content then 0
      else depth + 1
  | _ => depth + 1

/-- Whether a component may stand in a value at a given depth. -/
def isAnyComponent (depth : Nat) : Component → Bool
  | .token t => !t.kind.isError
  | .block opener content _ =>
      isContentOf opener.kind content &&
        contentDepth depth opener.kind content ≤ maxDepth &&
        areAnyComponents (contentDepth depth opener.kind content) content
where
  /-- Whether the components of a list may stand in a value at a given
  depth. -/
  areAnyComponents (depth : Nat) : List Component → Bool
    | [] => true
    | c :: cs => isAnyComponent depth c && areAnyComponents depth cs

/-! ## Values -/

/-- Whether components are a value without a grammar. -/
def isAnyValue (cs : List Component) : Bool := cs.all (isAnyComponent 0)

/-- Whether components are a value in which no function keeps a form. -/
def isRawValue (cs : List Component) : Bool :=
  cs.all fun c => c.isClean && c.height ≤ maxDepth

end CssVendor.Grammar
