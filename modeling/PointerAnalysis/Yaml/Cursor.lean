/-!
# Places in a YAML text

The rest of a text behind a place, together with the line and the column of that place.  Columns
count characters and tell how far a line is indented; the length of a key is measured in bytes.
-/

namespace PointerAnalysis.Yaml

/-! ## Characters -/

/-- Whether a character may stand in a text at all. -/
def isAllowed (c : Char) : Bool :=
  let n := c.toNat
  n = 0x9 || n = 0xA || n = 0xD || (0x20 ≤ n && n ≤ 0x7E) || n = 0x85
    || (0xA0 ≤ n && n ≤ 0xFFFD) || 0x10000 ≤ n

/-- Whether a character ends a line, the ends of lines being normal. -/
def isBreak (c : Char) : Bool := c = '\n' || c = '\u2028' || c = '\u2029'

/-- Whether a character is a blank inside a line. -/
def isBlank (c : Char) : Bool := c = ' ' || c = '\t'

/-- Whether a character separates words. -/
def isGap (c : Char) : Bool := isBlank c || isBreak c

/-- Whether a gap or the end of the text follows. -/
def startsGap : List Char → Bool
  | [] => true
  | c :: _ => isGap c

/-- A text whose lines end in line feeds; only the two separators of Unicode stay what they are. -/
def normalBreaks : List Char → List Char
  | '\r' :: '\n' :: rest => '\n' :: normalBreaks rest
  | c :: rest => (if c = '\r' ∨ c = '\u0085' then '\n' else c) :: normalBreaks rest
  | [] => []

/-! ## Places -/

/-- A place in a text. -/
structure Cursor where
  rest : List Char
  line : Nat := 0
  /-- The number of characters before it on its line. -/
  column : Nat := 0
  /-- The number of bytes before it on its line. -/
  offset : Nat := 0
deriving DecidableEq, Repr

namespace Cursor

/-- The place behind `n` more characters. -/
def skip (c : Cursor) : Nat → Cursor
  | 0 => c
  | n + 1 =>
    match c.rest with
    | [] => c
    | a :: rest =>
      if isBreak a then skip { rest, line := c.line + 1 } n
      else
        skip { rest, line := c.line, column := c.column + 1, offset := c.offset + a.utf8Size } n

/-- The later place behind which only `rest` is left. -/
def skipTo (c : Cursor) (rest : List Char) : Cursor := c.skip (c.rest.length - rest.length)

/-- The beginning of a text. -/
def ofText (text : List Char) : Cursor := { rest := normalBreaks text }

/-- Whether a line begins here that starts or ends a document. -/
def atDocumentMark (c : Cursor) : Bool :=
  c.column = 0 &&
    match c.rest with
    | '-' :: '-' :: '-' :: rest | '.' :: '.' :: '.' :: rest => startsGap rest
    | _ => false

end Cursor

end PointerAnalysis.Yaml
