import CssVendor.Grammar.Color
import CssVendor.Grammar.Transform

/-!
# Definitions of values

The texts by which a custom property says what its values are: `*` for any
value, or alternatives divided by bars, each a data type in angle brackets or a
word of its own, with a sign behind it if there may be a list of them.
-/

namespace CssVendor.Grammar

open Syntax

variable {α : Type}

/-- What one alternative of a definition stands for. -/
inductive DefinedType
  | basic (type : DataType)
  | color
  | image
  | transform
  | transformList
  /-- A word, in exactly these letters. -/
  | word (name : List Char)
  deriving DecidableEq, Repr, Inhabited

/-- How many values of an alternative there may be. -/
inductive Multiplicity
  | one
  /-- One or more with white space in between. -/
  | spaced
  /-- One or more with commas in between. -/
  | separated
  deriving DecidableEq, Repr, Inhabited

/-- What the values of a custom property are. -/
inductive Definition
  | universal
  | alternatives (of : List (DefinedType × Multiplicity))
  deriving DecidableEq, Repr, Inhabited

namespace Definition

/-! ## Reading definitions -/

/-- The data types that have a name. -/
def namedTypes : List (String × DefinedType) :=
  [("length", .basic .length), ("number", .basic .number),
   ("percentage", .basic .percentage),
   ("length-percentage", .basic .lengthPercentage),
   ("string", .basic .string), ("color", .color), ("image", .image),
   ("url", .basic .url), ("integer", .basic .integer),
   ("angle", .basic .angle), ("time", .basic .time),
   ("resolution", .basic .resolution), ("transform-function", .transform),
   ("transform-list", .transformList), ("custom-ident", .basic .customIdent)]

/-- Whether a character separates the pieces of a definition. -/
def isGap (c : Char) : Bool := c == ' ' || c == '\t'

/-- The text without the gaps it begins with. -/
def skipGaps (s : List Char) : List Char := s.dropWhile isGap

/-- Whether a character can begin a word of a definition. -/
def isWordStart (c : Char) : Bool :=
  c.isAlpha || c == '_' || 0x80 ≤ c.toNat

/-- Whether a character can stand inside a word of a definition. -/
def isWordChar (c : Char) : Bool :=
  isWordStart c || c.isDigit || c == '-'

/-- Reads a data type or a word. -/
def readType? (s : List Char) : Option (DefinedType × List Char) :=
  match s with
  | '<' :: s =>
      let name := s.takeWhile (· != '>')
      match s.drop name.length with
      | [] => none
      | _ :: rest =>
          (namedTypes.lookup (String.ofList (Text.lower name))).map fun type =>
            (type, rest)
  | _ =>
      if headIs isWordStart s then
        let name := s.takeWhile isWordChar
        some (.word name, s.drop name.length)
      else none

/-- Reads the sign for a list. What is a list already cannot have one. -/
def readMultiplicity (type : DefinedType) (s : List Char) :
    Multiplicity × List Char :=
  match type, s with
  | .transformList, _ => (.one, s)
  | _, '+' :: rest => (.spaced, rest)
  | _, '#' :: rest => (.separated, rest)
  | _, _ => (.one, s)

/-- Reads alternatives, one in each of the `count` steps. -/
def readAlternatives? :
    (count : Nat) → List Char → Option (List (DefinedType × Multiplicity))
  | 0, _ => none
  | count + 1, s => do
      let (type, rest) ← readType? (skipGaps s)
      let (multiplicity, rest) := readMultiplicity type rest
      match skipGaps rest with
      | [] => some [(type, multiplicity)]
      | '|' :: rest =>
          (readAlternatives? count rest).map ((type, multiplicity) :: ·)
      | _ => none

/-- The definition that a text writes. -/
def ofText? (s : List Char) : Option Definition :=
  match (skipGaps s).reverse.dropWhile isGap with
  | ['*'] => some .universal
  | _ => (readAlternatives? (s.length + 1) s).map .alternatives

/-! ## Values of a definition -/

/-- What follows further functions of a list of transformations. Each of the
`count` steps reads one. -/
def afterTransforms : (count : Nat) → Parts α → Parts α
  | 0, parts => parts
  | count + 1, parts =>
      match skipSpace parts with
      | p :: rest =>
          if isTransform p.component then afterTransforms count rest else parts
      | [] => parts

/-- What follows one value. -/
def after? (type : DefinedType) (parts : Parts α) : Option (Parts α) :=
  let afterPart (accepts : Annotated α → Bool) : Option (Parts α) :=
    match skipSpace parts with
    | p :: rest => if accepts p then some rest else none
    | [] => none
  match type with
  | .basic type => type.after? parts
  | .color => afterPart fun p => isColor p.component
  | .image => afterPart fun p => isImage p.component
  | .transform => afterPart fun p => isTransform p.component
  | .transformList =>
      (afterPart (isKeyword ["none"])).or
        ((afterPart fun p => isTransform p.component).map fun rest =>
          afterTransforms rest.length rest)
  | .word name => afterPart fun p => ident? p == some name

/-- Whether parts begin with the values of one alternative. Values of which
there is one may have anything behind them. Each of the `count` steps reads
one. -/
def fits (type : DefinedType) (multiplicity : Multiplicity) :
    (count : Nat) → Parts α → Bool
  | 0, _ => false
  | count + 1, parts =>
      match after? type parts, multiplicity with
      | none, _ => false
      | some _, .one => true
      | some rest, .spaced => isEnd rest || fits type multiplicity count rest
      | some rest, .separated =>
          match skipSpace rest with
          | [] => true
          | p :: rest => p.isToken .comma && fits type multiplicity count rest

/-- Whether parts are the first value of a custom property. -/
def admits (definition : Definition) (parts : Parts α) : Bool :=
  match definition with
  | .universal => isAnyValue (componentsOf parts)
  | .alternatives of =>
      of.any fun (type, multiplicity) =>
        fits type multiplicity (parts.length + 1) parts

end Definition

end CssVendor.Grammar
