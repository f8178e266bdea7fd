/-!
# Log records

What an operation reports about its progress. Records are part of an
operation's answer, in the order in which they were made.
-/

namespace CssVendor

/-- How much a record matters. -/
inductive Level
  | warn
  | debug
  | trace
  deriving DecidableEq, Repr, Inhabited

/-- The level as it is shown. -/
def Level.name : Level → String
  | .warn => "WARN"
  | .debug => "DEBUG"
  | .trace => "TRACE"

/-- One line of the log. -/
structure Record where
  level : Level
  message : String
  deriving DecidableEq, Repr, Inhabited

namespace Record

/-- A record of something that was left out. -/
def warn (message : String) : Record := ⟨.warn, message⟩

/-- A record of a finished step. -/
def debug (message : String) : Record := ⟨.debug, message⟩

/-- A record of a single change. -/
def trace (message : String) : Record := ⟨.trace, message⟩

end Record

end CssVendor
