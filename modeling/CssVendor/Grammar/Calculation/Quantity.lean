import CssVendor.Syntax.Number
import CssVendor.Syntax.Token
import CssVendor.Text.Ascii

/-!
# Quantities

What calculations in a sheet work with: plain numbers, and numbers with a unit
of what is measured. Units that have a fixed size are brought to one of their
kind, so that quantities can be put together just if their units agree. A
result that has to wait for the browser, such as the sum of a length and a
share of something, has no value here.
-/

namespace CssVendor.Grammar

open Syntax

/-! ## Units -/

/-- The units of length that have a fixed size, in pixels. -/
def absoluteLengths : List (String × Float32) :=
  [("px", 1), ("in", 96), ("cm", 96 / 2.54), ("mm", 96 / 25.4),
   ("q", 96 / 101.6), ("pt", 96 / 72), ("pc", 16)]

/-- The units of length whose size is known to the browser only. -/
def relativeLengths : List String :=
  ["em", "rem", "ex", "rex", "ch", "rch", "cap", "rcap", "ic", "ric",
   "lh", "rlh", "vw", "lvw", "svw", "dvw", "cqw", "vh", "lvh", "svh", "dvh",
   "cqh", "vi", "lvi", "svi", "dvi", "cqi", "vb", "lvb", "svb", "dvb", "cqb",
   "vmin", "lvmin", "svmin", "dvmin", "cqmin", "vmax", "lvmax", "svmax",
   "dvmax", "cqmax"]

/-- The units of angle, in degrees. -/
def angleUnits : List (String × Float32) :=
  [("deg", 1), ("grad", 0.9), ("rad", 57.29578), ("turn", 360)]

/-- The units of time, in seconds. -/
def timeUnits : List (String × Float32) := [("s", 1), ("ms", 0.001)]

/-- What a value measures. -/
inductive Measure
  | number
  | length
  | percentage
  /-- A length or a percentage. -/
  | extent
  | angle
  | time
  deriving DecidableEq, Repr, Inhabited

/-- The result of a calculation. -/
inductive Quantity
  | number (value : Float32)
  | measured (value : Float32) (unit : String)
  /-- A result that the browser has to work out. -/
  | pending
  deriving Repr, Inhabited

namespace Quantity

/-! ## Reading -/

/-- A number with one of some units of fixed size, in the unit `base`. -/
def ofFixed? (units : List (String × Float32)) (base : String) (value : Float32)
    (unit : String) : Option Quantity :=
  (units.lookup unit).map fun size => .measured (value * size) base

/-- A length. -/
def ofLength? (value : Float32) (unit : String) : Option Quantity :=
  (ofFixed? absoluteLengths "px" value unit).or
    (if relativeLengths.contains unit then some (.measured value unit)
      else none)

/-- What a token with a unit stands for, if it is of the given measure. -/
def ofToken? (m : Measure) (t : Token) : Option Quantity :=
  let value := numberValue t.text
  match m, t.kind with
  | .length, .dimension unit | .extent, .dimension unit =>
      ofLength? value (String.ofList (Text.lower unit))
  | .angle, .dimension unit =>
      ofFixed? angleUnits "deg" value (String.ofList (Text.lower unit))
  | .time, .dimension unit =>
      ofFixed? timeUnits "s" value (String.ofList (Text.lower unit))
  | .percentage, .percentage | .extent, .percentage =>
      some (.measured value "%")
  | _, _ => none

/-! ## Arithmetic -/

/-- Puts two quantities together by their values, which takes the same unit. -/
def combine (f : Float32 → Float32 → Float32) : Quantity → Quantity → Quantity
  | .number x, .number y => .number (f x y)
  | .measured x u, .measured y v =>
      if u == v then .measured (f x y) u else .pending
  | _, _ => .pending

/-- The sum. Nothing of one unit can be added to any quantity of another. -/
def add : Quantity → Quantity → Quantity
  | .measured x u, .measured y v =>
      if u == v then .measured (x + y) u
      else if x == 0 then .measured y v
      else if y == 0 then .measured x u
      else .pending
  | q, r => q.combine (· + ·) r

/-- A multiple. -/
def scale (factor : Float32) : Quantity → Quantity
  | .number x => .number (x * factor)
  | .measured x u => .measured (x * factor) u
  | .pending => .pending

/-- The product, of which one factor must be a number. -/
def mul? : Quantity → Quantity → Option Quantity
  | q, .number y => some (q.scale y)
  | .number x, r => some (r.scale x)
  | _, _ => none

/-- The quotient by a number other than zero. -/
def div? : Quantity → Quantity → Option Quantity
  | q, .number y => if y == 0 then none else some (q.scale (1 / y))
  | _, _ => none

/-- How two quantities compare, if that is known. -/
def compare? : Quantity → Quantity → Option Ordering
  | .number x, .number y => compareValues x y
  | .measured x u, .measured y v =>
      if u == v then compareValues x y else none
  | _, _ => none
where
  /-- How two values compare: not at all, if one of them is no number. -/
  compareValues (x y : Float32) : Option Ordering :=
    if x < y then some .lt
    else if x > y then some .gt
    else if x == y then some .eq
    else none

/-- The quantities of which each is better than what it was compared with:
`q` takes the place of the first one that it compares with, if it compares to
it as `better` says. -/
def enterAmong (better : Ordering) (q : Quantity) :
    List Quantity → List Quantity
  | [] => [q]
  | r :: rs =>
      match q.compare? r with
      | some order => (if order == better then q else r) :: rs
      | none => r :: enterAmong better q rs

/-- The least or the greatest of some quantities. -/
def best (better : Ordering) (qs : List Quantity) : Quantity :=
  match qs.foldl (fun found q => enterAmong better q found) [] with
  | [q] => q
  | _ => .pending

/-- A quantity held between two bounds, of which the lower one counts more. -/
def clamp (low q high : Quantity) : Quantity :=
  let (held, aboveKnown) :=
    match q.compare? high with
    | some .gt => (high, true)
    | some _ => (q, true)
    | none => (q, false)
  match held.compare? low with
  | some order =>
      if aboveKnown then if order == .lt then low else held else .pending
  | none => .pending

/-- What a function of the value makes of a quantity. What a percentage is of
is not known, so its value does not count. -/
def mapValue (f : Float32 → Float32) : Quantity → Quantity
  | .number x => .number (f x)
  | .measured x u => if u == "%" then .pending else .measured (f x) u
  | .pending => .pending

/-- The sign as a number. -/
def sign (q : Quantity) : Quantity :=
  match q.mapValue signOf with
  | .measured x _ => .number x
  | r => r
where
  /-- One with the sign of a value, and the value itself if it has none. -/
  signOf (x : Float32) : Float32 :=
    if x > 0 then 1 else if x < 0 then -1 else x

end Quantity

/-! ## Values -/

/-- A value without its fraction. -/
def truncate (x : Float32) : Float32 := if x < 0 then x.ceil else x.floor

/-- The remainder that has the sign of the dividend. -/
def remainder (x y : Float32) : Float32 := x - y * truncate (x / y)

/-- The remainder that has the sign of the divisor. -/
def modulus (x y : Float32) : Float32 :=
  remainder (remainder x y + y) y

/-- The length of the hypotenuse. -/
def hypotenuse (x y : Float32) : Float32 := (x * x + y * y).sqrt

end CssVendor.Grammar
