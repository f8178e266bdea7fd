import CssVendor.Grammar.Calculation.Quantity
import CssVendor.Grammar.Stream

/-!
# Calculations

The functions of CSS whose result is a number or a quantity, from `calc()` to
`atan2()`, and the sums and products in them. A calculation is read for what
it is to measure, since what its terms may be depends on that.

For the content of every pair of brackets it is worked out, the innermost
first, what it comes to as a sum and as the arguments of a function.
-/

namespace CssVendor.Grammar

open Syntax

/-- What the content of a pair of brackets comes to. -/
structure Operand where
  /-- Its value as a sum. -/
  sum? : Measure → Option Quantity
  /-- The result of the function of a name, given in lower case, with the
  content as its arguments. -/
  result? : String → Measure → Option Quantity
  deriving Inhabited

namespace Calculation

/-! ## Sums -/

/-- The constants that have a name. -/
def constants : List (String × Float32) :=
  [("e", 2.7182818), ("pi", 3.1415927), ("infinity", 1 / 0),
   ("-infinity", -1 / 0), ("nan", 0 / 0)]

/-- The value of one term. -/
def term? (m : Measure) (p : Annotated Operand) : Option Quantity :=
  match p.component, p.content with
  | .block opener _ _, some operand =>
      match opener.kind with
      | .openRound => operand.sum? m
      | .function name => operand.result? (String.ofList (Text.lower name)) m
      | _ => none
  | .token t, _ =>
      match t.kind with
      | .number => some (.number (numberValue t.text))
      | .ident name =>
          (constants.lookup (String.ofList (Text.lower name))).map .number
      | _ => Quantity.ofToken? m t
  | _, none => none

/-- Reads one term. -/
def readTerm (m : Measure) (parts : Parts Operand) :
    Option (Quantity × Parts Operand) :=
  match skipSpace parts with
  | p :: rest => (term? m p).map fun q => (q, rest)
  | [] => none

/-- Reads further factors of a product that has come to `q`. Each of the
`count` steps reads one. -/
def readFactors (m : Measure) :
    (count : Nat) → Quantity → Parts Operand →
      Option (Quantity × Parts Operand)
  | 0, q, parts => some (q, parts)
  | count + 1, q, parts =>
      match skipSpace parts with
      | [] => some (q, parts)
      | p :: rest =>
          if isDelim '*' p then do
            let (factor, rest) ← readTerm m rest
            readFactors m count (← q.mul? factor) rest
          else if isDelim '/' p then do
            let (divisor, rest) ← readTerm m rest
            readFactors m count (← q.div? divisor) rest
          else some (q, parts)

/-- Reads a product. -/
def readProduct (m : Measure) (parts : Parts Operand) :
    Option (Quantity × Parts Operand) := do
  let (q, rest) ← readTerm m parts
  readFactors m rest.length q rest

/-- Reads further products of a sum that has come to `q`. White space must
stand before a sign, and nothing but a sign may stand behind white space. Each
of the `count` steps reads one. -/
def readSummands (m : Measure) :
    (count : Nat) → Quantity → Parts Operand →
      Option (Quantity × Parts Operand)
  | 0, q, parts => some (q, parts)
  | count + 1, q, parts =>
      match parts with
      | [] => some (q, [])
      | space :: rest =>
          if space.kind != .space then some (q, parts)
          else match skipSpace rest with
            | [] => some (q, [])
            | sign :: rest =>
                if isDelim '+' sign then do
                  let (r, rest) ← readProduct m rest
                  readSummands m count (q.add r) rest
                else if isDelim '-' sign then do
                  let (r, rest) ← readProduct m rest
                  readSummands m count (q.add (r.scale (-1))) rest
                else none

/-- Reads a sum. -/
def readSum (m : Measure) (parts : Parts Operand) :
    Option (Quantity × Parts Operand) := do
  let (q, rest) ← readProduct m parts
  readSummands m rest.length q rest

/-- The value of a sum with nothing behind it. -/
def wholeSum? (m : Measure) (parts : Parts Operand) : Option Quantity := do
  let (q, rest) ← readSum m parts
  if isEnd rest then some q else none

/-! ## Arguments -/

/-- What follows a comma. -/
def afterComma? (parts : Parts Operand) : Option (Parts Operand) :=
  match skipSpace parts with
  | p :: rest => if p.isToken .comma then some rest else none
  | [] => none

/-- The sums of a list. -/
def sums? (m : Measure) (parts : Parts Operand) : Option (List Quantity) :=
  (splitCommas parts).mapM (wholeSum? m)

/-- Sums that are read one after the other. Unlike in a list, there may be no
white space before the commas. -/
def successiveSums? (m : Measure) :
    (count : Nat) → Parts Operand → Option (List Quantity)
  | 0, parts => if isEnd parts then some [] else none
  | 1, parts => (wholeSum? m parts).map fun q => [q]
  | count + 1, parts => do
      let (q, rest) ← readSum m parts
      let qs ← successiveSums? m count (← afterComma? rest)
      some (q :: qs)

/-- What a function of two values makes of two sums. -/
def combined? (f : Float32 → Float32 → Float32) (m : Measure)
    (parts : Parts Operand) : Option Quantity :=
  match successiveSums? m 2 parts with
  | some [q, r] => some (q.combine f r)
  | _ => none

/-- A number that is the only argument. -/
def number? (parts : Parts Operand) : Option Float32 :=
  match wholeSum? .number parts with
  | some (.number x) => some x
  | _ => none

/-- A function of one number. -/
def ofNumber? (f : Float32 → Float32) (parts : Parts Operand) :
    Option Quantity :=
  (number? parts).map fun x => .number (f x)

/-- Two numbers. -/
def numbers? (parts : Parts Operand) : Option (Float32 × Float32) :=
  match successiveSums? .number 2 parts with
  | some [.number x, .number y] => some (x, y)
  | _ => none

/-! ## Functions -/

/-- How `round()` chooses among the multiples of its second argument. -/
def roundings : List (String × (Float32 → Float32)) :=
  [("nearest", Float32.round), ("up", Float32.ceil), ("down", Float32.floor),
   ("to-zero", truncate)]

/-- The result of `round()`, which may be told first how to choose. -/
def rounded? (m : Measure) (parts : Parts Operand) : Option Quantity :=
  let toMultiple (f : Float32 → Float32) (x y : Float32) := f (x / y) * y
  let chosen := match skipSpace parts with
    | p :: rest =>
        ((ident? p).bind fun name =>
          roundings.lookup (String.ofList (Text.lower name))).map fun f =>
            (f, rest)
    | [] => none
  match chosen with
  | some (f, rest) => (afterComma? rest).bind (combined? (toMultiple f) m)
  | none => combined? (toMultiple Float32.round) m parts

/-- A trigonometric function of an angle or a number. -/
def ofAngle? (f : Float32 → Float32) (parts : Parts Operand) :
    Option Quantity :=
  match wholeSum? .angle parts with
  | some (.number x) => some (.number (f x))
  | some (.measured degrees _) =>
      some (.number (f (degrees * 3.1415927 / 180)))
  | _ => none

/-- An angle, where angles are called for. -/
def angle? (m : Measure) (radians : Float32) : Option Quantity :=
  if m == .angle then some (.measured (radians * 57.29578) "deg") else none

/-- An inverse trigonometric function. Outside its domain the result is a
number, though not one with a value. -/
def toAngle? (f : Float32 → Float32) (m : Measure) (parts : Parts Operand) :
    Option Quantity :=
  match wholeSum? .angle parts with
  | some (.number x) =>
      let y := f x
      if y.isNaN then some (.number y) else angle? m y
  | _ => none

/-- The angle of the point with two coordinates, of whatever measure. -/
def direction? (m : Measure) (parts : Parts Operand) : Option Quantity :=
  [Measure.length, .percentage, .angle, .time].findSome? fun n =>
    match combined? Float32.atan2 n parts with
    | some (.number x) => angle? m x
    | some (.measured x _) => angle? m x
    | _ => none

/-- The logarithm of a number, to the base of another if there are two. -/
def logarithm? (parts : Parts Operand) : Option Quantity :=
  match readSum .number parts with
  | some (.number x, rest) =>
      if isEnd rest then some (.number x.log)
      else ((afterComma? rest).bind number?).map fun base =>
        .number (x.log / base.log)
  | _ => none

/-- The root of the sum of squares. -/
def root (qs : List Quantity) : Quantity :=
  match qs with
  | [] => .pending
  | [q] => q.mapValue Float32.abs
  | [q, r] => q.combine hypotenuse r
  | q :: rs =>
      (rs.foldl (·.combine fun x y => x + y * y)
        (q.combine (· * ·) q)).mapValue Float32.sqrt

/-- The result of the function of a name, given in lower case. -/
def result? (name : String) (m : Measure) (parts : Parts Operand) :
    Option Quantity :=
  match name with
  | "calc" => wholeSum? m parts
  | "min" => (sums? m parts).map (.best .lt)
  | "max" => (sums? m parts).map (.best .gt)
  | "clamp" =>
      match successiveSums? m 3 parts with
      | some [low, q, high] => some (.clamp low q high)
      | _ => none
  | "round" => rounded? m parts
  | "rem" => combined? remainder m parts
  | "mod" => combined? modulus m parts
  | "sin" => ofAngle? Float32.sin parts
  | "cos" => ofAngle? Float32.cos parts
  | "tan" => ofAngle? Float32.tan parts
  | "asin" => toAngle? Float32.asin m parts
  | "acos" => toAngle? Float32.acos m parts
  | "atan" => toAngle? Float32.atan m parts
  | "atan2" => direction? m parts
  | "pow" => (numbers? parts).map fun (x, y) => .number (x.pow y)
  | "log" => logarithm? parts
  | "sqrt" => ofNumber? Float32.sqrt parts
  | "exp" => ofNumber? Float32.exp parts
  | "hypot" => (sums? m parts).map root
  | "abs" => (wholeSum? m parts).map (.mapValue Float32.abs)
  | "sign" => (wholeSum? m parts).map .sign
  | _ => none

end Calculation

/-- What the content of a pair of brackets comes to. -/
def Operand.of (content : Parts Operand) : Operand :=
  let parts := withoutComments content
  { sum? := fun m => Calculation.wholeSum? m parts
    result? := fun name m => Calculation.result? name m parts }

/-- The result of a function whose result is a number or a quantity. -/
def calculated? (m : Measure) : Component → Option Quantity
  | .block ⟨.function name, _⟩ content _ =>
      (Operand.of (annotate Operand.of content)).result?
        (String.ofList (Text.lower name)) m
  | _ => none

end CssVendor.Grammar
