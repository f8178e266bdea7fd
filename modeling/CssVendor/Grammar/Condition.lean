import CssVendor.Grammar.Stream

/-!
# Conditions

Questions put together with `not`, `and` and `or` and grouped by parentheses.
What can be asked depends on the at-rule and is given as a vocabulary. Whether
the content of a pair of parentheses asks something, itself a condition or a
single question, is worked out from the inside and comes with its part.

A condition may end too early, behind an operator or inside a question; this
is told apart from one with something wrong in it.
-/

namespace CssVendor.Grammar

open Syntax

/-- Whether parts ask something. -/
abbrev Asked := Except Failure Unit

/-- What the conditions of an at-rule can ask. -/
structure Vocabulary where
  /-- Accepts a single question, as it stands in parentheses. -/
  question : Parts Asked → Asked
  /-- Accepts the arguments of a function that asks something; `none` if the
  function of this name asks nothing. -/
  function? : List Char → List Component → Option Asked

/-- What a part asks by itself, if it is a question at all. -/
def asked? (v : Vocabulary) (p : Annotated Asked) : Option Asked :=
  match p.component with
  | .block ⟨.openRound, _⟩ _ _ => p.content
  | .block ⟨.function name, _⟩ content _ => v.function? name content
  | _ => none

/-- What follows one question. -/
def afterQuestion (v : Vocabulary) (parts : Parts Asked) :
    Except Failure (Parts Asked) :=
  match skipSpace parts with
  | [] => .error .early
  | p :: rest =>
      match asked? v p with
      | some (.ok ()) => .ok rest
      | some (.error failure) => .error failure
      | none => .error .wrong

/-- What follows further questions with one operator before each. Each of the
`count` steps reads one. -/
def afterQuestions (v : Vocabulary) (operator : String) :
    (count : Nat) → Parts Asked → Except Failure (Parts Asked)
  | 0, parts => .ok parts
  | count + 1, parts =>
      match afterKeyword? [operator] parts with
      | none => .ok parts
      | some rest =>
          match afterQuestion v rest with
          | .ok rest => afterQuestions v operator count rest
          | .error failure => .error failure

/-- What follows a condition. -/
def afterCondition (v : Vocabulary) (allowOr : Bool) (parts : Parts Asked) :
    Except Failure (Parts Asked) :=
  match afterKeyword? ["not"] parts with
  | some rest => afterQuestion v rest
  | none => do
      let rest ← afterQuestion v parts
      match afterKeyword? ["and"] rest, afterKeyword? ["or"] rest with
      | some _, _ => afterQuestions v "and" rest.length rest
      | none, some _ =>
          if allowOr then afterQuestions v "or" rest.length rest
          else .error .wrong
      | none, none => .ok rest

/-- Accepts a condition with nothing behind it. -/
def readCondition (v : Vocabulary) (allowOr : Bool) (parts : Parts Asked) :
    Asked := do
  finish (← afterCondition v allowOr parts)

/-- Accepts the content of a pair of parentheses: a condition or a single
question. -/
def Vocabulary.read (v : Vocabulary) (content : Parts Asked) : Asked :=
  let parts := withoutComments content
  match readCondition v true parts with
  | .ok () => .ok ()
  | .error _ => v.question parts

/-- The parts of components, with what their parentheses ask. -/
def Vocabulary.parts (v : Vocabulary) (cs : List Component) : Parts Asked :=
  withoutComments (annotate v.read cs)

end CssVendor.Grammar
