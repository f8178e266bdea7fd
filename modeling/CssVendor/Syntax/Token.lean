/-!
# Tokens

The tokens of CSS Syntax Level 3. A token carries the text it was read from,
so that a list of tokens still is the sheet it came from; where a token has a
name, the name is kept with its escapes resolved.
-/

namespace CssVendor.Syntax

/-- What a token is. -/
inductive TokenKind
  | space
  | comment
  | ident (name : List Char)
  /-- A name and the opening parenthesis right behind it. -/
  | function (name : List Char)
  | atKeyword (name : List Char)
  /-- A hash; `isId` if what follows the sign could be an identifier. -/
  | hash (name : List Char) (isId : Bool)
  | string
  | badString
  /-- A `url(…)` whose address is written without quotes. -/
  | url
  | badUrl
  | number
  | percentage
  | dimension (unit : List Char)
  /-- One of `~=`, `|=`, `^=`, `$=` and `*=`, by its first character. -/
  | matcher (c : Char)
  | colon
  | semicolon
  | comma
  | cdo
  | cdc
  | openRound
  | closeRound
  | openSquare
  | closeSquare
  | openCurly
  | closeCurly
  /-- Any other character. -/
  | delim (c : Char)
  deriving DecidableEq, Repr, Inhabited

namespace TokenKind

/-- Whether a token of this kind only separates others. -/
def isBlank : TokenKind → Bool
  | .space | .comment => true
  | _ => false

/-- The kind of token that closes what a token of this kind opens. -/
def closer? : TokenKind → Option TokenKind
  | .function _ | .openRound => some .closeRound
  | .openSquare => some .closeSquare
  | .openCurly => some .closeCurly
  | _ => none

/-- Whether a token of this kind is an error wherever it stands by itself. -/
def isError : TokenKind → Bool
  | .badString | .badUrl | .closeRound | .closeSquare | .closeCurly => true
  | _ => false

end TokenKind

/-- A token with the text it was read from. -/
structure Token where
  kind : TokenKind
  text : List Char
  deriving DecidableEq, Repr, Inhabited

end CssVendor.Syntax
