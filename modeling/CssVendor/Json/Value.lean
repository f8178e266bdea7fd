import CssVendor.Json.Numeral

/-!
# JSON values

A JSON text as a tree. A string may be written with escapes for UTF-16 code
units that do not pair up; such a string is well formed but has no text.
-/

namespace CssVendor.Json

/-- A JSON value. A string or key is `none` if it has no text. -/
inductive Value
  | null
  | bool (b : Bool)
  | number (n : Numeral)
  | string (text : Option String)
  | array (items : List Value)
  | object (members : List (Option String × Value))
  deriving Inhabited

/-- One piece of a string: a character, or an escaped UTF-16 code unit. -/
inductive StringPiece
  | char (c : Char)
  | unit (n : Nat)
  deriving DecidableEq, Repr

namespace StringPiece

/-- Whether a code unit is the first half of a pair. -/
def isHigh (n : Nat) : Bool := 0xD800 ≤ n && n < 0xDC00

/-- Whether a code unit is the second half of a pair. -/
def isLow (n : Nat) : Bool := 0xDC00 ≤ n && n < 0xE000

/-- The text of the pieces, if halves of pairs stand only side by side. -/
def decode : List StringPiece → Option (List Char)
  | [] => some []
  | .char c :: rest => (decode rest).map (c :: ·)
  | .unit n :: .unit m :: rest =>
      if isHigh n then
        if isLow m then
          (decode rest).map
            (Char.ofNat (0x10000 + (n - 0xD800) * 0x400 + (m - 0xDC00)) :: ·)
        else none
      else if isLow n then none
      else (decode (.unit m :: rest)).map (Char.ofNat n :: ·)
  | .unit n :: rest =>
      if isHigh n || isLow n then none
      else (decode rest).map (Char.ofNat n :: ·)

end StringPiece

end CssVendor.Json
