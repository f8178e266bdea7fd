import CssVendor.Grammar.Selector.Simple

/-!
# Selectors, piece by piece

`Progress.next` says which pieces of a selector may follow one another. A
selector is well formed if its pieces lead from the start to a stage at which
it may end. Pseudo-elements end a selector but for pseudo-classes of a state
that an element's part can be in.
-/

namespace CssVendor.Grammar

open Syntax

/-- How far a selector has been read. -/
inductive Stage
  /-- Before the first compound selector. -/
  | start
  /-- Behind a combinator. -/
  | expecting
  /-- Behind the `&` that a compound selector begins with, where a type may
  still follow. -/
  | nested
  /-- In a compound selector. -/
  | within
  /-- In white space behind a compound selector. -/
  | behind
  /-- In white space behind a pseudo-element, where nothing more may come. -/
  | finished
  | failed
  deriving DecidableEq, Repr, Inhabited

/-- What is known of a selector that has been read in part. -/
structure Progress where
  stage : Stage
  /-- What may still come, and what has been come to. -/
  setting : Setting
  /-- The selector `&` was met. -/
  nesting : Bool
  deriving DecidableEq, Repr, Inhabited

namespace Progress

/-- Whether nothing but an element has been come to. -/
def onElement (p : Progress) : Bool := p.setting.target == .element

/-- The same with another stage. -/
def goTo (p : Progress) (stage : Stage) : Progress := { p with stage }

/-- In a compound selector, if a condition holds. -/
def goWithinIf (p : Progress) (condition : Bool) : Progress :=
  p.goTo (if condition then .within else .failed)

/-- In a compound selector that has come to a target. -/
def reach (p : Progress) (target : Target) (nesting : Bool) : Progress :=
  { stage := .within
    setting := { p.setting with target }
    nesting := p.nesting || nesting }

/-- A simple selector further on in a compound one. -/
def further (p : Progress) : Simple → Progress
  | .nesting => p.reach p.setting.target true
  | .feature => p.goWithinIf p.onElement
  | .pseudoClass name => p.goWithinIf (p.setting.target.admitsClass name)
  | .pseudoFunction name a =>
      match p.setting.classFunction? name a with
      | some nesting => p.reach p.setting.target nesting
      | none => p.goTo .failed
  | .pseudoElement name =>
      if p.setting.pseudoElements && p.setting.target.admitsElement name then
        p.reach (p.setting.target.afterElement name) false
      else p.goTo .failed
  | .elementFunction name a =>
      match p.setting.elementFunction? name a with
      | some (target, nesting) => p.reach target nesting
      | none => p.goTo .failed
  | _ => p.goTo .failed

/-- The first simple selector of a compound one. -/
def first (p : Progress) : Simple → Progress
  | .nesting => { p with stage := .nested, nesting := true }
  | .type => p.goWithinIf p.onElement
  | s => p.further s

/-- Behind a combinator, if there may be one. -/
def combine (p : Progress) : Progress :=
  p.goTo (if p.onElement && p.setting.combinators then .expecting else .failed)

/-- What comes behind the first simple selector of a compound one. -/
def proceed (p : Progress) : Simple → Progress
  | .space => p.goTo (if p.onElement then .behind else .finished)
  | .combinator => p.combine
  | s => p.further s

/-- How far a selector has been read with one more piece. A relative one may
begin with a combinator. A namespace that is not finished counts for nothing
behind a `&`. -/
def next (relative : Bool) (p : Progress) (s : Simple) : Progress :=
  match p.stage with
  | .start =>
      match s with
      | .space => p
      | .combinator => p.goTo (if relative then .expecting else .failed)
      | s => p.first s
  | .expecting => match s with
      | .space => p
      | s => p.first s
  | .nested =>
      match s with
      | .type => p.goWithinIf p.onElement
      | .openNamespace => p.goTo .within
      | s => p.proceed s
  | .within => p.proceed s
  | .behind =>
      match s with
      | .space => p
      | .combinator => p.combine
      | s => if p.setting.combinators then p.first s else p.goTo .failed
  | .finished => match s with
      | .space => p
      | _ => p.goTo .failed
  | .failed => p

/-- Whether a selector may end here. -/
def isComplete (p : Progress) : Bool :=
  p.stage == .nested || p.stage == .within || p.stage == .behind ||
    p.stage == .finished

end Progress

/-- How the reading of one selector ends. -/
def readSelector (relative : Bool) (setting : Setting)
    (parts : Parts Arguments) : Ending :=
  let p := (Simple.all (withoutComments parts)).foldl (Progress.next relative)
    ⟨.start, setting, false⟩
  ⟨p.isComplete, p.nesting⟩

/-- How the reading of each selector of a list ends. -/
def readSelectors (relative : Bool) (setting : Setting)
    (parts : Parts Arguments) : List Ending :=
  (splitCommas parts).map (readSelector relative setting)

end CssVendor.Grammar
