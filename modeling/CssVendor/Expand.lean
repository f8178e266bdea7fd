import CssVendor.Block
import CssVendor.Fault
import CssVendor.Group
import CssVendor.Record

/-!
# Expanded blocks

Expanding a block appends the missing forms of its properties, group by group.
A root is left alone. A block with an unnamed property fails before anything
is changed or reported.
-/

namespace CssVendor

/-- The forms that the groups of a list of declarations lack, in the order in
which they are appended. -/
def missingForms (declarations : List Declaration) : List Declaration :=
  (gather declarations).flatMap PropertyGroup.missing

/-- A warning for each declaration that is a vendor's marker with nothing
after it. -/
def danglingRecords (declarations : List Declaration) : List Record :=
  declarations.filterMap fun d =>
    match NameForm.of d.name with
    | .dangling v =>
        some (.warn ("ignoring \x60" ++ d.name ++ "\x60: no property after " ++
          v.marker))
    | _ => none

/-- The outcome of expanding a block. -/
structure Expansion where
  block : Block
  /-- How many declarations were appended. -/
  added : Nat
  records : List Record

namespace Block

/-- The place of the first declaration without a name. -/
def unnamed? (b : Block) : Option Nat :=
  b.declarations.findIdx? fun d => d.name == ""

/-- What expanding a block reports, given its label and the forms that were
appended. -/
def expansionRecords (b : Block) (appended : List Declaration) : List Record :=
  danglingRecords b.declarations ++
  (appended.map fun d => .trace (b.label ++ ": adding " ++ d.text)) ++
  if appended.isEmpty then [] else
    [.debug (b.label ++ ": appended " ++ Nat.repr appended.length ++
      " declarations for " ++ Nat.repr (gather b.declarations).length ++
      " properties")]

/-- Appends the missing forms of the block's properties. -/
def expand (b : Block) : Except Fault Expansion :=
  if b.isRoot then
    .ok ⟨b, 0, []⟩
  else
    match b.unnamed? with
    | some index => .error (.unnamedProperty b.label index)
    | none =>
        let appended := missingForms b.declarations
        .ok {
          block := { b with declarations := b.declarations ++ appended }
          added := appended.length
          records := b.expansionRecords appended }

end Block

end CssVendor
