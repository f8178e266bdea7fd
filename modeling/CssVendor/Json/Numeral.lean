/-!
# Numbers as JSON writes them

A numeral keeps the digits it was written with. `natural?` is its value as a
natural number, for numerals written without sign, fraction and exponent.
`float?` is its value as a double: the leading digits that fit 64 bits are
taken as one integer, the other digits are dropped, and the integer is scaled
once by a power of ten, so the last bit may differ from the nearest double.
-/

namespace CssVendor.Json

/-- A JSON number with the digits it was written with. -/
structure Numeral where
  negative : Bool
  whole : List Nat
  /-- The digits after the point, if there is one. -/
  fraction : Option (List Nat)
  /-- Whether the exponent is negative, and its digits, if there is one. -/
  exponent : Option (Bool × List Nat)
  deriving DecidableEq, Repr, Inhabited

namespace Numeral

/-- The number that a list of decimal digits writes. -/
def ofDigits (digits : List Nat) : Nat :=
  digits.foldl (fun n d => 10 * n + d) 0

/-- The numeral's value, if it is written as a natural number. -/
def natural? (n : Numeral) : Option Nat :=
  if n.negative || n.fraction.isSome || n.exponent.isSome then none
  else some (ofDigits n.whole)

/-- The largest integer of 64 bits. -/
def significandLimit : Nat := UInt64.size - 1

/-- The largest exponent that is not out of range by itself. -/
def exponentLimit : Nat := 0x7FFFFFFF

/-- Writes digits behind a significand for as long as it fits 64 bits: the new
significand and the number of digits written. -/
def extend : Nat → List Nat → Nat × Nat
  | n, [] => (n, 0)
  | n, d :: ds =>
      if 10 * n + d ≤ significandLimit then
        let (m, written) := extend (10 * n + d) ds
        (m, written + 1)
      else
        (n, 0)

/-- The leading digits as an integer, and the power of ten that puts the point
back in its place. -/
def significand (n : Numeral) : Nat × Int :=
  let (whole, written) := extend 0 n.whole
  let (all, places) := extend whole (n.fraction.getD [])
  (all, (n.whole.length - written : Nat) - (places : Int))

/-- A power of ten. -/
def powerOfTen (n : Nat) : Float := Float.ofScientific 1 false n

/-- A double times a power of ten: none if that is too large. Powers beyond
308 do not exist as doubles; a quotient by one is taken in two steps. -/
def scale (f : Float) (power : Int) : Option Float :=
  match power with
  | .ofNat n =>
      if n ≤ 308 then
        let product := f * powerOfTen n
        if product.isInf then none else some product
      else if f == 0.0 then some f else none
  | .negSucc m =>
      let n := m + 1
      if n ≤ 308 then some (f / powerOfTen n)
      else if n ≤ 616 then some (f / powerOfTen 308 / powerOfTen (n - 308))
      else some 0.0

/-- The magnitude of the numeral as a double: none if that is too large. -/
def magnitude? (n : Numeral) : Option Float :=
  let (value, places) := n.significand
  let f := (UInt64.ofNat value).toFloat
  match n.exponent with
  | none => scale f places
  | some (negative, digits) =>
      let power := ofDigits digits
      if power ≤ exponentLimit then
        scale f (if negative then places - power else places + power)
      else if value != 0 && !negative then none
      else some 0.0

/-- The numeral's value as a double: none if that is too large. -/
def float? (n : Numeral) : Option Float :=
  n.magnitude?.map fun f => if n.negative then -f else f

example : (extend 0 [1, 2, 3]) = (123, 3) := by decide
example :
    (Numeral.mk false [1] (some [5, 0]) none).significand = (150, -2) := by
  decide

end Numeral

end CssVendor.Json
