import CssVendor.Syntax.Character

/-!
# Numbers

How far a number reaches: a sign, digits, a point with digits, and an exponent
with digits, of which the digits before or behind the point must be there. A
number without point and exponent is a whole one.

The value of a number is worked out in double precision, digit by digit, and
then rounded to single precision, in which all arithmetic of a sheet is done.
-/

namespace CssVendor.Syntax

/-- The number of digits at the head of a text. -/
def digitsLength (s : List Char) : Nat := (s.takeWhile Char.isDigit).length

/-- The length of a sign at the head of a text. -/
def signLength (s : List Char) : Nat :=
  if headIs (fun c => c == '+' || c == '-') s then 1 else 0

/-- The length of a point with digits behind it. -/
def fractionLength : List Char → Nat
  | '.' :: s => if headIs Char.isDigit s then digitsLength s + 1 else 0
  | _ => 0

/-- The length of an exponent with digits in it. -/
def exponentLength : List Char → Nat
  | c :: s =>
      let sign := signLength s
      let digits := digitsLength (s.drop sign)
      if (c == 'e' || c == 'E') && 0 < digits then 1 + sign + digits else 0
  | [] => 0

/-- The length of the number at the head of a text: zero if there is none. -/
def numberLength (s : List Char) : Nat :=
  let sign := signLength s
  let whole := digitsLength (s.drop sign)
  let fraction := fractionLength (s.drop (sign + whole))
  if whole + fraction == 0 then 0
  else
    let mantissa := sign + whole + fraction
    mantissa + exponentLength (s.drop mantissa)

/-- A whole number: whether it is written with a sign. -/
def wholeNumber? (text : List Char) : Option Bool :=
  let signed := headIs (fun c => c == '+' || c == '-') text
  let digits := if signed then text.drop 1 else text
  if !digits.isEmpty && digits.all Char.isDigit then some signed else none

/-! ## Values -/

/-- The value of a digit. -/
def digitValue (c : Char) : Float := Float.ofNat (c.toNat - '0'.toNat)

/-- The value of digits before a point. -/
def wholeValue (digits : List Char) : Float :=
  digits.foldl (fun x c => x * 10 + digitValue c) 0

/-- The value of digits behind a point. -/
def fractionValue (digits : List Char) : Float :=
  (digits.foldl (fun (x, place) c => (x + digitValue c * place, place * 0.1))
    (0, 0.1)).1

/-- The power of ten that an exponent stands for: one if there is none. -/
def exponentValue (s : List Char) : Float :=
  let digits := (s.take (exponentLength s)).filter Char.isDigit
  let x := wholeValue digits
  Float.pow 10 (if headIs (· == '-') (s.drop 1) then -x else x)

/-- The value that the text of a number begins with. -/
def numberValue (text : List Char) : Float32 :=
  let unsigned := text.drop (signLength text)
  let whole := unsigned.takeWhile Char.isDigit
  let rest := unsigned.drop whole.length
  let fraction := (rest.take (fractionLength rest)).drop 1
  let x := wholeValue whole + fractionValue fraction
  let signed := if headIs (· == '-') text then -x else x
  (signed * exponentValue (rest.drop (fractionLength rest))).toFloat32

end CssVendor.Syntax
