import CssVendor.Declaration
import CssVendor.Vendor

/-!
# Property groups

The declarations of one block, gathered by standard property name. A group is
opened by the first declaration that is a vendor's form of its property or,
for an expandable property, the property itself; that declaration represents
the group. A group records which of the five forms are declared, and
`PropertyGroup.missing` makes the others.

Gathering reads the declarations once. A name that belongs to no group when
it is read may still turn out to be the unprefixed form of a group opened
later, so such names are set aside and settled at the end.
-/

namespace CssVendor

/-- What is known of one property in one block. -/
structure PropertyGroup where
  /-- The standard name. -/
  canonical : String
  /-- The declaration whose payload every filled-in form copies. -/
  representative : Declaration
  /-- The vendors whose form is declared. -/
  vendors : Vendor → Bool
  /-- Whether the standard name itself is declared. -/
  unprefixed : Bool

namespace PropertyGroup

/-- A group nothing is known of yet. -/
def fresh (canonical : String) (representative : Declaration) :
    PropertyGroup :=
  ⟨canonical, representative, fun _ => false, false⟩

/-- The group after a vendor's form was read. -/
def markVendor (v : Vendor) (g : PropertyGroup) : PropertyGroup :=
  { g with vendors := fun w => w == v || g.vendors w }

/-- The group after the standard name was read. -/
def markUnprefixed (g : PropertyGroup) : PropertyGroup :=
  { g with unprefixed := true }

/-- The declarations that complete the group: vendors' forms in order, then
the standard name. -/
def missing (g : PropertyGroup) : List Declaration :=
  ((Vendor.all.filter fun v => !g.vendors v).map fun v =>
    g.representative.rename (v.apply g.canonical)) ++
  if g.unprefixed then [] else [g.representative.rename g.canonical]

end PropertyGroup

/-- Whether a group of the given name is in the list. -/
def hasGroup (groups : List PropertyGroup) (canonical : String) : Bool :=
  groups.any fun g => g.canonical == canonical

/-- Changes the group of the given name; if there is none, a group represented
by `d` is put at the end and changed. -/
def updateGroup (canonical : String) (d : Declaration)
    (change : PropertyGroup → PropertyGroup) :
    List PropertyGroup → List PropertyGroup
  | [] => [change (.fresh canonical d)]
  | g :: gs =>
      if g.canonical == canonical then change g :: gs
      else g :: updateGroup canonical d change gs

/-- The groups opened so far, in order, and the names that belonged to none of
them when they were read. -/
structure Gathering where
  groups : List PropertyGroup
  bare : List String

namespace Gathering

/-- Reads a declaration's name as a vendor's form. -/
def readVendor (s : Gathering) (d : Declaration) : Gathering :=
  match NameForm.of d.name with
  | .vendored v canonical =>
      { s with groups := updateGroup canonical d (.markVendor v) s.groups }
  | _ => s

/-- Reads a declaration's name as a standard name. -/
def readStandard (s : Gathering) (d : Declaration) : Gathering :=
  if hasGroup s.groups d.name || isExpandable d.name then
    { s with groups := updateGroup d.name d .markUnprefixed s.groups }
  else
    { s with bare := d.name :: s.bare }

/-- Reads one declaration. One without a name is passed over. -/
def read (s : Gathering) (d : Declaration) : Gathering :=
  if d.name == "" then s else (s.readVendor d).readStandard d

/-- Marks the groups whose standard name had been set aside. -/
def settle (s : Gathering) : List PropertyGroup :=
  s.groups.map fun g =>
    if s.bare.contains g.canonical then g.markUnprefixed else g

end Gathering

/-- The groups of a list of declarations, in the order in which they were
opened. -/
def gather (declarations : List Declaration) : List PropertyGroup :=
  (declarations.foldl Gathering.read ⟨[], []⟩).settle

end CssVendor
