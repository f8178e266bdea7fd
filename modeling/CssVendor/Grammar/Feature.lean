import CssVendor.Grammar.DataType

/-!
# Features

What a condition asks about one feature of a medium or a container: whether it
has the feature at all, whether the feature has a value, or whether its value
lies in a range. Ranges are written with signs of comparison or, for one bound,
with `min-` and `max-` in front of the feature's name.

A feature that is known must be given a value of its type. One that is not
known may have a value of any type.

Parts that do not ask about a feature by its name first are read again with a
value first. So a name with a sign of comparison and nothing behind it counts
as a value whose feature is still missing: it ends too early.
-/

namespace CssVendor.Grammar

open Syntax

variable {α : Type}

/-! ## Values -/

/-- What the value of a feature can be. -/
inductive ValueType
  | length
  | ratio
  | resolution
  | number
  | integer
  /-- Zero or one. -/
  | flag
  | word
  /-- The value of a feature that is not known, or a value that is not known
  yet. -/
  | any
  deriving DecidableEq, Repr, Inhabited

namespace ValueType

/-- Whether there are ranges of values of a type. -/
def isOrdered : ValueType → Bool
  | .word | .flag => false
  | _ => true

/-- Whether a value of type `found` may stand where one of type `t` is
expected. -/
def admits (t found : ValueType) : Bool :=
  t == .any || found == .any || t == found

end ValueType

/-- Whether a component is zero or one. -/
def isFlag : Component → Bool
  | .token ⟨.number, text⟩ =>
      (wholeNumber? text).isSome &&
        (numberValue text == 0 || numberValue text == 1)
  | _ => false

/-- What follows a ratio: two numbers with a stroke in between or, where the
second is not required, a single one. -/
def afterRatio? (required : Bool) (parts : Parts α) : Option (Parts α) := do
  let rest ← DataType.number.after? parts
  match skipSpace rest with
  | stroke :: divisor =>
      if isDelim '/' stroke then DataType.number.after? divisor
      else if required then none
      else some rest
  | [] => if required then none else some rest

/-- What follows a value of a known type. -/
def afterKnown? (type : ValueType) (parts : Parts α) : Option (Parts α) :=
  match type with
  | .length => DataType.length.after? parts
  | .ratio => afterRatio? false parts
  | .resolution => DataType.resolution.after? parts
  | .number => DataType.number.after? parts
  | .integer => DataType.integer.after? parts
  | .flag =>
      match skipSpace parts with
      | p :: rest => if isFlag p.component then some rest else none
      | [] => none
  | .word => afterIdent? parts
  | .any => none

/-- Whether a component is a variable of the environment. -/
def isEnvironmentValue : Component → Bool
  | .block ⟨.function name, _⟩ content _ =>
      Text.isKeyword name "env" && isEnvironment content &&
        isAnyComponent.areAnyComponents
          (if hasComma content then 1 else 0) content
  | _ => false

/-- What follows a variable of the environment. -/
def afterEnvironment? (parts : Parts α) : Option (Parts α) :=
  match skipSpace parts with
  | p :: rest => if isEnvironmentValue p.component then some rest else none
  | [] => none

/-- The type of the value at the head of some parts, and what follows it, if
nothing is known of the type. -/
def readUnknown (parts : Parts α) : Except Failure (ValueType × Parts α) :=
  match afterRatio? true parts with
  | some rest => .ok (.ratio, rest)
  | none =>
      let types := [ValueType.number, .length, .resolution]
      let found := types.findSome? fun type =>
        (afterKnown? type parts).map fun rest => (type, rest)
      match found, afterEnvironment? parts, afterIdent? parts with
      | some value, _, _ => .ok value
      | none, some rest, _ => .ok (.any, rest)
      | none, none, some rest => .ok (.word, rest)
      | none, none, none => .error (failureAt (skipSpace parts))

/-- The type of the value at the head of some parts, and what follows it. -/
def readValue (expected : ValueType) (parts : Parts α) :
    Except Failure (ValueType × Parts α) :=
  match afterKnown? expected parts with
  | some rest => .ok (expected, rest)
  | none => readUnknown parts

/-- What follows a value, which must be of the expected type. -/
def afterValue (expected : ValueType) (parts : Parts α) :
    Except Failure (Parts α) := do
  let (found, rest) ← readValue expected parts
  if expected.admits found then .ok rest else .error .wrong

/-! ## Comparisons -/

/-- Reads a sign of comparison: whether it points to the greater, to the
smaller, or is an equals sign, and what follows it. -/
def readComparison (parts : Parts α) : Except Failure (Char × Parts α) :=
  match skipSpace parts with
  | [] => .error .early
  | p :: rest =>
      let afterEquals :=
        match skipSpace rest with
        | q :: more => if isDelim '=' q then more else rest
        | [] => rest
      if isDelim '=' p then .ok ('=', rest)
      else if isDelim '>' p then .ok ('>', afterEquals)
      else if isDelim '<' p then .ok ('<', afterEquals)
      else .error .wrong

/-! ## Names -/

/-- The types of the features that are known. -/
abbrev FeatureTable := List (String × ValueType)

/-- A name without what it begins with in any letter case, and whether it began
so. -/
def dropStart (start : String) (name : List Char) : List Char × Bool :=
  if start.toList.isPrefixOf (Text.lower name) then
    (name.drop start.length, true)
  else (name, false)

/-- A name without `min-` or `max-`, and whether it had that. -/
def dropBound (name : List Char) : List Char × Bool :=
  let (rest, bound) := dropStart "min-" name
  if bound then (rest, true) else dropStart "max-" name

/-- The keyword that a text writes, with its escapes resolved and in lower
case. -/
def keyword? (text : List Char) : Option String :=
  match significant (components text) with
  | [.token ⟨.ident name, _⟩] => some (String.ofList (Text.lower name))
  | _ => none

/-- The type of the feature of a name, and whether the name sets a bound. A
vendor's mark stands before the word for the bound. What is left of a name is
itself read as a keyword. -/
def featureType (table : FeatureTable) (name : List Char) : ValueType × Bool :=
  let (base, marked) := dropStart "-webkit-" name
  let (base, bound) := dropBound base
  let full := if marked then "-webkit-".toList ++ base else base
  match isCustomName name, (keyword? full).bind fun k => table.lookup k with
  | false, some type => (type, bound)
  | _, _ => (.any, false)

/-! ## Features -/

/-- Whether a name with what follows it asks about a feature. The answer is
`none` if no value follows where one should, so that the parts are to be read
with a value first. -/
def readNameFirst (table : FeatureTable) (name : List Char)
    (rest : Parts α) : Option (Except Failure Unit) :=
  let (type, bound) := featureType table name
  let judge (ranged : Bool) (value : Parts α) : Option (Except Failure Unit) :=
    match readValue type value with
    | .error _ => none
    | .ok (found, rest) =>
        some (if type.admits found && (!ranged || type.isOrdered) then
          finish rest else .error .wrong)
  match skipSpace rest with
  | [] => some (.ok ())
  | p :: value =>
      if p.isToken .colon then judge bound value
      else
        match readComparison rest with
        | .ok (_, value) =>
            if bound then some (.error .wrong) else judge true value
        | .error _ => some (.error .wrong)

/-- Accepts what may follow a range that begins with a value and a sign of
comparison: nothing, or the same sign and a second value. -/
def finishRange (type : ValueType) (first : Char) (rest : Parts α) :
    Except Failure Unit :=
  match readComparison rest with
  | .error _ => finish rest
  | .ok (second, value) => do
      if first == '=' || first != second then .error .wrong
      finish (← afterValue type value)

/-- Accepts a range that begins with a value. -/
def readValueFirst (table : FeatureTable) (parts : Parts α) :
    Except Failure Unit :=
  match parts.findSome? ident? with
  | none => .error .wrong
  | some name =>
      let (type, bound) := featureType table name
      if bound then .error .wrong
      else do
        let (found, rest) ← readValue type parts
        let (first, rest) ← readComparison rest
        let rest := skipSpace rest
        match afterIdent? rest with
        | none => .error (failureAt rest)
        | some rest =>
            if type.isOrdered && type.admits found then
              finishRange type first rest
            else .error .wrong

/-- Accepts parts that ask about a feature. -/
def readFeature (table : FeatureTable) (parts : Parts α) :
    Except Failure Unit :=
  match skipSpace parts with
  | [] => .error .wrong
  | p :: rest =>
      match (ident? p).bind fun name => readNameFirst table name rest with
      | some answer => answer
      | none => readValueFirst table parts

end CssVendor.Grammar
