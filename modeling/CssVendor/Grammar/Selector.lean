import CssVendor.Grammar.DataType
import CssVendor.Grammar.Nth
import CssVendor.Grammar.Selector.Stage

/-!
# Selectors

Which preludes of style rules are lists of selectors. The arguments of
pseudo-classes and the tests of attributes are worked out from the inside: for
the content of every pair of brackets, all that it can be read as.
-/

namespace CssVendor.Grammar

open Syntax

/-- What follows a name that stands right at the head of some parts. -/
def afterName? : Parts Arguments → Option (Parts Arguments)
  | p :: rest => if isIdent p then some rest else none
  | [] => none

/-- What follows the name of an attribute, which may have a namespace. -/
def afterAttributeName? (parts : Parts Arguments) : Option (Parts Arguments) :=
  match skipSpace parts with
  | [] => none
  | p :: rest =>
      match rest with
      | bar :: name =>
          if isDelim '|' p then afterName? rest
          else if isDelim '|' bar then
            if Simple.isLocalName p then afterName? name else none
          else afterName? (p :: rest)
      | [] => afterName? [p]

/-- Whether a part compares an attribute with a value. -/
def isAttributeMatcher (p : Annotated Arguments) : Bool :=
  match p.component with
  | .token ⟨.matcher _, _⟩ => true
  | .token ⟨.delim '=', _⟩ => true
  | _ => false

/-- Whether parts are the content of an attribute selector. -/
def isAttribute (parts : Parts Arguments) : Bool :=
  match afterAttributeName? parts with
  | none => false
  | some rest =>
      match skipSpace rest with
      | [] => true
      | matcher :: rest =>
          isAttributeMatcher matcher &&
            match skipSpace rest with
            | [] => false
            | value :: rest =>
                (isIdent value || isString value) &&
                  (isEnd rest ||
                    match afterKeyword? ["i", "s"] rest with
                    | some rest => isEnd rest
                    | none => false)

/-- Whether parts are one name or more. -/
def areNames (parts : Parts Arguments) : Bool :=
  let names := parts.filter fun p => p.kind != .space
  !names.isEmpty && names.all isIdent

/-- Whether parts are a position, and possibly what to count among. What is
not understood there is passed over. -/
def isPositionOf (parts : Parts Arguments) : Bool :=
  match afterPosition? parts with
  | none => false
  | some rest => isEnd rest || (afterKeyword? ["of"] rest).isSome

/-- Whether a part is a name that an author may choose. -/
def isFreeIdent (p : Annotated Arguments) : Bool :=
  DataType.customIdent.admits p.component

/-- What the content of a pair of brackets can be read as. -/
def Arguments.of (content : Parts Arguments) : Arguments :=
  let parts := withoutComments content
  { list := fun relative setting => readSelectors relative setting parts
    single := fun setting => readSelector false setting parts
    position := ((afterPosition? parts).map isEnd).getD false
    positionOf := isPositionOf parts
    languages := isListOf (fun p => isIdent p || isString p) parts
    direction := isOne (isKeyword ["ltr", "rtl"]) parts
    freeNames := isListOf isFreeIdent parts
    names := areNames parts
    nameOrAny := isOne (fun p => isDelim '*' p || isFreeIdent p) parts
    rawValue := isRawValue (componentsOf parts)
    attributeTest := isAttribute parts }

/-- How the reading of each selector in a prelude ends. -/
def preludeSelectors (relative : Bool) (cs : List Component) : List Ending :=
  readSelectors relative .outer (annotate Arguments.of cs)

/-- Whether components are the list of selectors of a style rule. Inside
another style rule, a selector may begin with a combinator. -/
def isRulePrelude (nested : Bool) (cs : List Component) : Bool :=
  (preludeSelectors nested cs).all Ending.complete

/-- Whether components are a list of selectors each of which refers to the
rule around it. -/
def isNestPrelude (cs : List Component) : Bool :=
  (preludeSelectors false cs).all fun e => e.complete && e.nesting

end CssVendor.Grammar
