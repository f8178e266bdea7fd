import CssVendor.Grammar.Selector.Target

/-!
# Arguments of selectors

What the content of a pair of brackets in a selector is good for. Selectors
among the arguments of a pseudo-class are judged by the setting in which the
pseudo-class stands: what has been come to before it is where they begin. So
the content is worked out as a function of the setting.
-/

namespace CssVendor.Grammar

/-- Where a selector stands, as far as that decides what it may contain. -/
structure Setting where
  /-- What a compound selector begins with, or has come to. -/
  target : Target
  /-- There may be combinators. -/
  combinators : Bool
  /-- There may be pseudo-elements. -/
  pseudoElements : Bool
  deriving DecidableEq, Repr, Inhabited

namespace Setting

/-- Where the selectors of a style rule stand. -/
def outer : Setting := ⟨.element, true, true⟩

/-- Inside the arguments of a pseudo-class. -/
def inner (s : Setting) : Setting := { s with pseudoElements := false }

/-- Where there may be one compound selector only. -/
def compound (s : Setting) : Setting := { s.inner with combinators := false }

end Setting

/-- How the reading of a selector ended. -/
structure Ending where
  /-- The selector is well formed. -/
  complete : Bool
  /-- The selector `&` was met, at whatever depth. -/
  nesting : Bool
  deriving DecidableEq, Repr, Inhabited

/-- What the content of a pair of brackets can be read as. -/
structure Arguments where
  /-- A list of selectors, which may begin with a combinator if they are
  relative. -/
  list : (relative : Bool) → Setting → List Ending
  /-- One selector. -/
  single : Setting → Ending
  /-- A position. -/
  position : Bool
  /-- A position, and possibly a list of what to count among. -/
  positionOf : Bool
  /-- A list of languages. -/
  languages : Bool
  /-- A direction of writing. -/
  direction : Bool
  /-- A list of names that an author may choose. -/
  freeNames : Bool
  /-- One name or more, without commas. -/
  names : Bool
  /-- One name that an author may choose, or an asterisk. -/
  nameOrAny : Bool
  /-- Anything without an error in it. -/
  rawValue : Bool
  /-- An attribute, and possibly a value to compare it with. -/
  attributeTest : Bool
  deriving Inhabited

namespace Setting

/-- Pseudo-classes whose arguments may be anything, since selectors in them
that are not understood are passed over. -/
def forgivingFunctions : List String :=
  ["is", "where", "-webkit-any", "-moz-any"]

/-- Whether a pseudo-class may stand behind an element with the given
arguments, unless they are selectors. -/
def admitsArguments (name : List Char) (a : Arguments) : Bool :=
  if Text.isOneOf name ["nth-child", "nth-last-child"] then a.positionOf
  else if Text.isOneOf name
      ["nth-of-type", "nth-last-of-type", "nth-col", "nth-last-col"] then
    a.position
  else if Text.isKeyword name "lang" then a.languages
  else if Text.isKeyword name "dir" then a.direction
  else if Text.isKeyword name "active-view-transition-type" then a.freeNames
  else a.rawValue

/-- Reads a pseudo-class with arguments: whether there is a `&` in it, if it
may stand where it does. -/
def classFunction? (s : Setting) (name : List Char) (a : Arguments) :
    Option Bool :=
  if Text.isOneOf name forgivingFunctions then
    some ((a.list false s.inner).any Ending.nesting)
  else if Text.isKeyword name "has" then
    some ((a.list true s).any Ending.nesting)
  else if Text.isKeyword name "not" then
    let endings := a.list false s.inner
    if endings.all Ending.complete then some (endings.any Ending.nesting)
    else none
  else if s.target != .element then none
  else if Text.isKeyword name "host" then
    let ending := a.single s.compound
    if ending.complete then some ending.nesting else none
  else if admitsArguments name a then some false
  else none

/-- Reads a pseudo-element with arguments: what a selector has come to behind
it and whether there is a `&` in it, if it may stand where it does. -/
def elementFunction? (s : Setting) (name : List Char) (a : Arguments) :
    Option (Target × Bool) :=
  if !s.pseudoElements || !s.target.admitsElement name then none
  else if Text.isKeyword name "part" then
    if s.target == .element && a.names then some (.part, false) else none
  else if Text.isKeyword name "slotted" then
    let ending := a.single s.compound
    if s.target == .element && ending.complete then
      some (.slotted, ending.nesting)
    else none
  else if Text.isOneOf name ["cue", "cue-region"] then
    if (a.single outer).complete then some (.pseudo, false) else none
  else if Text.isOneOf name transitionElements then
    if a.nameOrAny then some (.transition, false) else none
  else if a.rawValue then some (s.target, false)
  else none

end Setting

end CssVendor.Grammar
