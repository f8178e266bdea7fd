import CssVendor.Syntax.Number
import CssVendor.Syntax.Quoted
import CssVendor.Syntax.Token
import CssVendor.Text.Ascii
import CssVendor.Text.Divide

/-!
# Reading tokens

`tokenize` divides a text into tokens. How long a token is depends on all that
follows it.

The text is taken as it is: line ends are not unified, and the NUL character
is a name character whose value is U+FFFD.
-/

namespace CssVendor.Syntax

/-- The end of a comment after its opening: behind its closing, or at the end
of the text. -/
def commentLength : List Char → Nat
  | '*' :: '/' :: _ => 2
  | _ :: s => commentLength s + 1
  | [] => 0

/-- A number with what is written right behind it. -/
def readNumber (s : List Char) (length : Nat) : TokenKind × Nat :=
  let rest := s.drop length
  if headIs (· == '%') rest then (.percentage, length + 1)
  else if startsIdent rest then
    let unit := nameLength rest
    (.dimension (unescape (rest.take unit)), length + unit)
  else (.number, length)

/-- An identifier, a function, or an address. -/
def readIdentLike (s : List Char) : TokenKind × Nat :=
  let length := nameLength s
  let name := unescape (s.take length)
  match s.drop length with
  | '(' :: rest =>
      if Text.isKeyword name "url" && !startsQuoted rest then
        let (address, good) := urlLengthFrom .before 0 rest
        (if good then .url else .badUrl, length + 1 + address)
      else (.function name, length + 1)
  | _ => (.ident name, length)

/-- A hash, or its sign alone. -/
def readHash (rest : List Char) : TokenKind × Nat :=
  let isId := startsIdent rest
  if isId || headIs (fun c => c.isDigit || c == '-') rest then
    let length := nameLength rest
    (.hash (unescape (rest.take length)) isId, length + 1)
  else (.delim '#', 1)

/-- An at-keyword, or its sign alone. -/
def readAtKeyword (rest : List Char) : TokenKind × Nat :=
  if startsIdent rest then
    let length := nameLength rest
    (.atKeyword (unescape (rest.take length)), length + 1)
  else (.delim '@', 1)

/-- A string after its opening quote. -/
def readString (quote : Char) (rest : List Char) : TokenKind × Nat :=
  let (length, good) := stringLengthFrom quote 0 rest
  (if good then .string else .badString, length + 1)

/-- A token of one fixed character. -/
def punctuation? : Char → Option TokenKind
  | ':' => some .colon
  | ';' => some .semicolon
  | ',' => some .comma
  | '(' => some .openRound
  | ')' => some .closeRound
  | '[' => some .openSquare
  | ']' => some .closeSquare
  | '\x7b' => some .openCurly
  | '\x7d' => some .closeCurly
  | _ => none

/-- Whether a character makes a token together with an equals sign. -/
def isMatcher (c : Char) : Bool :=
  c == '~' || c == '|' || c == '^' || c == '$' || c == '*'

/-- The kind and the length of the token at the head of a text that is not
empty. -/
def readKind : List Char → TokenKind × Nat
  | '/' :: '*' :: rest => (.comment, commentLength rest + 2)
  | '<' :: '!' :: '-' :: '-' :: _ => (.cdo, 4)
  | '-' :: '-' :: '>' :: _ => (.cdc, 3)
  | c :: rest =>
      let number := numberLength (c :: rest)
      if isSpace c then (.space, (rest.takeWhile isSpace).length + 1)
      else if c == '"' || c == '\'' then readString c rest
      else if 0 < number then readNumber (c :: rest) number
      else if startsIdent (c :: rest) then readIdentLike (c :: rest)
      else if c == '#' then readHash rest
      else if c == '@' then readAtKeyword rest
      else if isMatcher c && headIs (· == '=') rest then (.matcher c, 2)
      else match punctuation? c with
        | some kind => (kind, 1)
        | none => (.delim c, 1)
  | [] => (.space, 0)

/-- The token at the head of a text that is not empty, and its length. -/
def readToken (s : List Char) : Token × Nat :=
  let (kind, length) := readKind s
  (⟨kind, s.take length⟩, length)

/-- The tokens of a text. -/
def tokenize (s : List Char) : List Token := Text.divide readToken s

end CssVendor.Syntax
