import CssVendor.Entry
import CssVendor.Fault
import CssVendor.Json.Reader
import CssVendor.Options

/-!
# Options as JSON

Options are written as a JSON object, or as an array with the settings in
their order. A setting that is missing or null is left open. Unknown keys are
passed over; a known key must not stand twice.
-/

namespace CssVendor.Options

open Json (Value)

/-- The names of the settings, in order. -/
def keys : List String :=
  ["baseSize", "riUnit", "unit", "absoluteUnit", "minUnitSize", "minSize",
   "precision"]

/-- A setting that may be left open: missing and null mean the same. -/
def setting {α : Type} (read : Value → Option α) :
    Option Value → Option (Option α)
  | none => some none
  | some .null => some none
  | some value => (read value).map some

/-- A number as a double. -/
def readFloat : Value → Option Float
  | .number n => n.float?
  | _ => none

/-- A string that has a text. -/
def readText : Value → Option String
  | .string text => text
  | _ => none

/-- A natural number of 32 bits. -/
def readCount : Value → Option Nat
  | .number n =>
      match n.natural? with
      | some n => if n < UInt32.size then some n else none
      | none => none
  | _ => none

/-- The options whose settings `find` looks up by their place. -/
def ofSettings (find : Nat → Option Value) : Option Options := do
  let baseSize ← setting readFloat (find 0)
  let riUnit ← setting readText (find 1)
  let unit ← setting readText (find 2)
  let absoluteUnit ← setting readText (find 3)
  let minUnitSize ← setting readFloat (find 4)
  let minSize ← setting readFloat (find 5)
  let precision ← setting readCount (find 6)
  return ⟨baseSize, riUnit, unit, absoluteUnit, minUnitSize, minSize,
    precision⟩

/-- The members of an object by key, if every key has a text and no known key
stands twice. -/
def members? (members : List (Option String × Value)) :
    Option (List (String × Value)) := do
  let named ← members.mapM fun (key, value) => key.map fun k => (k, value)
  let known := (named.map Prod.fst).filter keys.contains
  if known.eraseDups.length == known.length then some named else none

/-- The options that a JSON value writes. -/
def ofValue? : Value → Option Options
  | .object members => do
      let named ← members? members
      ofSettings fun place => keys[place]?.bind fun key => named.lookup key
  | .array items =>
      if items.length ≤ keys.length then
        ofSettings fun place => items[place]?
      else none
  | _ => none

/-- Reads options from a JSON text. -/
def read (text : String) : Except Fault Options :=
  match (Json.read? text).bind ofValue? with
  | some options => .ok options
  | none => .error .malformedOptions

/-- Reads options from what was found at a path. -/
def readEntry (path : String) (entry : Entry) : Except Fault Options :=
  match entry.text with
  | .ok text => read text
  | .error _ => .error (.unreadable path)

end CssVendor.Options
