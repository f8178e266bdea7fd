import CssVendor.Expand

/-!
# Expanding step by step

The expansion of a block in the order in which things happen. The declarations
are read one after the other, and a mark with nothing behind it is reported
when it is read. Then the groups are gone through, and each form that is
missing is reported and appended before the next one is made. A block to which
something was appended is summed up at the end. What has been done so far is
kept in a journal.
-/

namespace CssVendor

/-- How far the expansion of a block has come. -/
structure Journal where
  declarations : List Declaration
  /-- How many of the declarations were appended. -/
  added : Nat
  records : List Record

namespace Journal

/-- Makes one record. -/
def report (r : Record) (j : Journal) : Journal :=
  { j with records := j.records ++ [r] }

/-- Reports a form that is missing in the block of the given label, and appends
it. -/
def append (label : String) (j : Journal) (d : Declaration) : Journal :=
  let reported := j.report (.trace (label ++ ": adding " ++ d.text))
  { reported with
    declarations := j.declarations ++ [d]
    added := j.added + 1 }

/-- Appends what a group lacks, form by form. -/
def complete (label : String) (j : Journal) (g : PropertyGroup) : Journal :=
  g.missing.foldl (append label) j

/-- Sums up what was done, if anything was. -/
def sumUp (label : String) (groups : List PropertyGroup) (j : Journal) :
    Journal :=
  if 0 < j.added then
    j.report (.debug (label ++ ": appended " ++ Nat.repr j.added ++
      " declarations for " ++ Nat.repr groups.length ++ " properties"))
  else j

end Journal

/-- Reads one declaration behind others, of which `records` have been made. -/
def Gathering.note : Gathering × List Record → Declaration →
    Gathering × List Record
  | (s, records), d =>
      if d.name == "" then (s, records)
      else
        match NameForm.of d.name with
        | .vendored v canonical =>
            let opened := updateGroup canonical d (.markVendor v) s.groups
            ({ s with groups := opened }.readStandard d, records)
        | .dangling v =>
            (s.readStandard d, records ++
              [.warn ("ignoring \x60" ++ d.name ++
                "\x60: no property after " ++ v.marker)])
        | .plain => (s.readStandard d, records)

/-- Appends the missing forms of the block's properties one by one. -/
def Block.expandByStep (b : Block) : Except Fault Expansion :=
  if b.isRoot then
    .ok ⟨b, 0, []⟩
  else
    match b.unnamed? with
    | some index => .error (.unnamedProperty b.label index)
    | none =>
        let (s, warnings) := b.declarations.foldl Gathering.note (⟨[], []⟩, [])
        let groups := s.settle
        let filled := groups.foldl (Journal.complete b.label)
          ⟨b.declarations, 0, warnings⟩
        let j := filled.sumUp b.label groups
        .ok ⟨{ b with declarations := j.declarations }, j.added, j.records⟩

end CssVendor
