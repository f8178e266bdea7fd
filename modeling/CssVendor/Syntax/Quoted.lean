import CssVendor.Syntax.Name

/-!
# Strings and addresses

How far a string reaches, and how far the address in `url(…)` reaches that is
written without quotes. Either may go wrong: a string at a bare line end, an
address at a character that must not stand in it.
-/

namespace CssVendor.Syntax

/-- The length of what follows a backslash in a string: a line end, an escape,
or nothing at the end of the text. -/
def stringEscapeLength (s : List Char) : Nat :=
  if headIs isNewline s then newlineLength s else escapeLength s

/-- The length of a string after its opening quote, and whether it is a good
one. A string ends behind its closing quote or at the end of the text; a bare
line end makes it a bad one and does not belong to it. -/
def stringLengthFrom (quote : Char) : Nat → List Char → Nat × Bool
  | _, [] => (0, true)
  | pending + 1, _ :: s =>
      let (n, good) := stringLengthFrom quote pending s
      (n + 1, good)
  | 0, c :: s =>
      if c == quote then (1, true)
      else if isNewline c then (0, false)
      else
        let pending := if c == '\\' then stringEscapeLength s else 0
        let (n, good) := stringLengthFrom quote pending s
        (n + 1, good)

/-- The value of a string after its opening quote, after its first `pending`
characters. A line end behind a backslash is left out. -/
def stringValueFrom (quote : Char) : Nat → List Char → List Char
  | _, [] => []
  | pending + 1, _ :: s => stringValueFrom quote pending s
  | 0, c :: s =>
      if c == quote then []
      else if c == '\\' then
        let rest := stringValueFrom quote (stringEscapeLength s) s
        if s.isEmpty || headIs isNewline s then rest else escapeValue s :: rest
      else plainValue c :: stringValueFrom quote 0 s

/-- The value of the text of a string. -/
def stringValue : List Char → List Char
  | quote :: s => stringValueFrom quote 0 s
  | [] => []

/-- Where in a bare address a reader is. -/
inductive UrlState
  /-- Before the address. -/
  | before
  /-- In the address. -/
  | inside
  /-- Behind the address. -/
  | behind
  /-- In an address that went wrong. -/
  | wrong
  deriving DecidableEq, Repr, Inhabited

/-- The length of a bare address after `url(`, and whether it is a good one.
It ends behind the closing parenthesis or at the end of the text. -/
def urlLengthFrom : UrlState → Nat → List Char → Nat × Bool
  | state, _, [] => (0, state != .wrong)
  | state, pending + 1, _ :: s =>
      let (n, good) := urlLengthFrom state pending s
      (n + 1, good)
  | state, 0, c :: s =>
      if c == ')' then (1, state != .wrong)
      else
        let (next, pending) :=
          match state with
          | .wrong =>
              (.wrong,
                if c == '\\' && headIs (fun d => d == ')' || d == '\\') s
                then 1 else 0)
          | .behind => (if isSpace c then .behind else .wrong, 0)
          | _ =>
              if isSpace c then
                (if state == .before then .before else .behind, 0)
              else if c == '\\' then
                if startsEscape s then (.inside, escapeLength s)
                else (.wrong, 0)
              else if c == '"' || c == '\'' || c == '(' || isUnprintable c then
                (.wrong, 0)
              else (UrlState.inside, 0)
        let (n, good) := urlLengthFrom next pending s
        (n + 1, good)

/-- Whether the address after `url(` is quoted, which makes the whole a
function. -/
def startsQuoted (s : List Char) : Bool :=
  headIs (fun c => c == '"' || c == '\'') (s.dropWhile isSpace)

end CssVendor.Syntax
