/-!
# Options

Settings for converting lengths to other units. Filling in vendors' forms does
not depend on them: they are read, kept and shown.
-/

namespace CssVendor

/-- Settings, each of which may be left open. -/
structure Options where
  /-- The root font size that conversions are based on. -/
  baseSize : Option Float
  /-- The unit of resolution-independent lengths. -/
  riUnit : Option String
  /-- The unit that is converted to `riUnit`. -/
  unit : Option String
  /-- The unit that is replaced by `unit` without scaling. -/
  absoluteUnit : Option String
  /-- The smallest absolute size a length may shrink to. -/
  minUnitSize : Option Float
  /-- The root font size at the lowest supported resolution. -/
  minSize : Option Float
  /-- The largest number of fraction digits in a converted length. -/
  precision : Option Nat
  deriving Inhabited

namespace Options

/-- All settings left open. -/
def default : Options := ⟨none, none, none, none, none, none, none⟩

/-- Whether every setting is left open. -/
def isDefault (o : Options) : Bool :=
  o.baseSize.isNone && o.riUnit.isNone && o.unit.isNone &&
    o.absoluteUnit.isNone && o.minUnitSize.isNone && o.minSize.isNone &&
    o.precision.isNone

theorem isDefault_iff {o : Options} : o.isDefault = true ↔ o = default := by
  rcases o with ⟨_ | _, _ | _, _ | _, _ | _, _ | _, _ | _, _ | _⟩ <;>
    simp [isDefault, default]

end Options

end CssVendor
