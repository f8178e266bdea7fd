import CssVendor.Text.Ascii

/-!
# Targets

What a compound selector has come to, an element or a part of one, decides
what may be asked of it next: pseudo-elements lead from target to target, and
pseudo-classes may follow some targets and not others. Pseudo-classes and
pseudo-elements that are not known here are taken as they come.
-/

namespace CssVendor.Grammar

/-- Pseudo-elements that end a selector. -/
def knownElements : List String :=
  ["before", "after", "first-line", "first-letter", "cue", "cue-region",
   "selection", "-moz-selection", "placeholder", "-webkit-input-placeholder",
   "-moz-placeholder", "-ms-input-placeholder", "marker", "backdrop",
   "-webkit-backdrop", "file-selector-button", "-webkit-file-upload-button",
   "-ms-browse", "view-transition"]

/-- Pseudo-elements for the parts of a scroll bar. -/
def scrollbarElements : List String :=
  ["-webkit-scrollbar", "-webkit-scrollbar-button", "-webkit-scrollbar-track",
   "-webkit-scrollbar-track-piece", "-webkit-scrollbar-thumb",
   "-webkit-scrollbar-corner", "-webkit-resizer"]

/-- Pseudo-elements for the parts of a transition, which take a name. -/
def transitionElements : List String :=
  ["view-transition-group", "view-transition-image-pair",
   "view-transition-old", "view-transition-new"]

/-- Pseudo-elements that may stand behind `::slotted()`. -/
def slottableElements : List String :=
  ["before", "after", "marker", "placeholder", "-webkit-input-placeholder",
   "-moz-placeholder", "-ms-input-placeholder", "file-selector-button",
   "-webkit-file-upload-button", "-ms-browse"]

/-- Pseudo-classes of what a user does with an element. -/
def actionClasses : List String :=
  ["hover", "active", "focus", "focus-within", "focus-visible"]

/-- Pseudo-classes that only parts of a scroll bar have. -/
def scrollbarClasses : List String :=
  ["horizontal", "vertical", "decrement", "increment", "start", "end",
   "double-button", "single-button", "no-button", "corner-present",
   "window-inactive"]

/-- Pseudo-classes that parts of a scroll bar share with elements. -/
def sharedScrollbarClasses : List String :=
  ["enabled", "disabled", "hover", "active"]

/-- The part of a document that a compound selector has come to. -/
inductive Target
  /-- An element. -/
  | element
  /-- A pseudo-element. -/
  | pseudo
  /-- A part of a scroll bar. -/
  | scrollbar
  /-- A part of a transition. -/
  | transition
  /-- What a slot holds. -/
  | slotted
  /-- A pseudo-element of what a slot holds. -/
  | slottedPseudo
  /-- A named part of a component. -/
  | part
  deriving DecidableEq, Repr, Inhabited

namespace Target

/-- Whether a pseudo-class without arguments may stand behind a target. -/
def admitsClass (t : Target) (name : List Char) : Bool :=
  match t with
  | .element | .part => !Text.isOneOf name scrollbarClasses
  | .pseudo => Text.isOneOf name actionClasses
  | .scrollbar =>
      Text.isOneOf name scrollbarClasses ||
        Text.isOneOf name sharedScrollbarClasses
  | .transition => Text.isOneOf name ("only-child" :: actionClasses)
  | .slotted | .slottedPseudo => false

/-- Whether a pseudo-element may stand behind a target. -/
def admitsElement (t : Target) (name : List Char) : Bool :=
  match t with
  | .element | .part => true
  | .slotted => Text.isOneOf name slottableElements
  | .pseudo | .scrollbar | .transition | .slottedPseudo => false

/-- What a selector has come to behind a pseudo-element without arguments that
may stand there. -/
def afterElement (t : Target) (name : List Char) : Target :=
  if t == .slotted then .slottedPseudo
  else if Text.isOneOf name scrollbarElements then .scrollbar
  else if Text.isOneOf name knownElements then .pseudo
  else t

end Target

end CssVendor.Grammar
