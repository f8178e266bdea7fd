/-!
# Vendor prefixes

A vendor marks a property of its own by writing a marker and a hyphen in
front of the standard name: `-webkit-transform`. `Vendor.apply` writes the
mark, `NameForm.of` reads it, and `expandable` lists the standard names whose
vendored forms are filled in even when none of them has been declared.
-/

namespace CssVendor

/-- The vendors whose forms are filled in, in the order in which missing forms
are appended. -/
inductive Vendor
  | webkit
  | moz
  | o
  | ms
  deriving DecidableEq, Repr, Inhabited

namespace Vendor

/-- Every vendor, in order. -/
def all : List Vendor := [.webkit, .moz, .o, .ms]

/-- The text that stands before the hyphen of a vendored name. -/
def marker : Vendor → String
  | .webkit => "-webkit"
  | .moz => "-moz"
  | .o => "-o"
  | .ms => "-ms"

/-- The vendor with the given marker. Letter case counts. -/
def ofMarker? (text : String) : Option Vendor :=
  all.find? fun v => v.marker == text

/-- A vendor's place in `all`. -/
def index : Vendor → Nat
  | .webkit => 0
  | .moz => 1
  | .o => 2
  | .ms => 3

/-- The vendor's form of a standard name: `transform` becomes
`-webkit-transform`. -/
def apply (v : Vendor) (canonical : String) : String :=
  v.marker ++ "-" ++ canonical

theorem mem_all (v : Vendor) : v ∈ all := by
  cases v <;> decide

theorem all_getElem?_index (v : Vendor) : all[v.index]? = some v := by
  cases v <;> rfl

end Vendor

/-- Standard names whose vendored forms are filled in whenever they are
declared, vendored or not. -/
def expandable : List String :=
  ["animation-direction", "animation-duration", "animation-name",
   "animation-timing-function", "animation-fill-mode", "animation-play-state",
   "appearance", "background-clip", "box-orient", "box-sizing",
   "font-kerning", "line-clamp", "transform-origin", "tap-highlight-color",
   "transform-style", "transform", "transition", "user-select"]

/-- Whether a name is listed in `expandable`. -/
def isExpandable (name : String) : Bool := expandable.contains name

/-- What a property name says about vendors. -/
inductive NameForm
  /-- A vendor's form of `canonical`, which is not empty. -/
  | vendored (vendor : Vendor) (canonical : String)
  /-- A vendor's marker with nothing after it, the second hyphen written or
  not. -/
  | dangling (vendor : Vendor)
  /-- Any other name, custom properties included. -/
  | plain
  deriving DecidableEq, Repr

namespace NameForm

/-- Reads a name: the marker reaches up to the second hyphen, or to the end of
the name if there is none, and what follows that hyphen is the standard name,
listed or not. -/
def ofChars : List Char → NameForm
  | '-' :: rest =>
      let marker := '-' :: rest.takeWhile (· != '-')
      let canonical := (rest.dropWhile (· != '-')).drop 1
      match Vendor.ofMarker? (String.ofList marker) with
      | none => .plain
      | some v =>
          if canonical.isEmpty then .dangling v
          else .vendored v (String.ofList canonical)
  | _ => .plain

/-- What `name` says about vendors. -/
def of (name : String) : NameForm := ofChars name.toList

example :
    of "-webkit-transform-origin" = .vendored .webkit "transform-origin" := by
  decide +kernel
example : of "-webkit-" = .dangling .webkit := by decide +kernel
example : of "--webkit-x" = .plain := by decide +kernel

end NameForm

end CssVendor
