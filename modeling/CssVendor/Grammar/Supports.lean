import CssVendor.Grammar.Stream

/-!
# Support conditions

Which preludes of `@supports` are conditions. What stands in parentheses, or
behind the name of a function, is a question to the browser and may be
anything without an error in it; such questions are put together with `not`,
`and` and `or`, of which only one may be used at a time.
-/

namespace CssVendor.Grammar

open Syntax

/-- What follows a question in parentheses or behind a name. -/
def afterSupported? (parts : Parts Unit) : Option (Parts Unit) :=
  match skipSpace parts with
  | p :: rest =>
      if ((round? p).isSome || (function? p).isSome) && p.component.isClean
      then some rest
      else none
  | [] => none

/-- Whether parts are further questions with one operator before each. Each of
the `count` steps reads one. -/
def areSupported (operator : String) : (count : Nat) → Parts Unit → Bool
  | 0, parts => isEnd parts
  | count + 1, parts =>
      isEnd parts ||
        match (afterKeyword? [operator] parts).bind afterSupported? with
        | some rest => areSupported operator count rest
        | none => false

/-- Whether components are a condition on what is supported. -/
def isSupportsCondition (cs : List Component) : Bool :=
  let parts := plainParts cs
  match afterKeyword? ["not"] parts with
  | some rest => ((afterSupported? rest).map isEnd).getD false
  | none =>
      match afterSupported? parts with
      | some rest =>
          areSupported "and" rest.length rest ||
            areSupported "or" rest.length rest
      | none => false

end CssVendor.Grammar
