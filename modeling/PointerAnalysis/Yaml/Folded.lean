import PointerAnalysis.Text.Digits
import PointerAnalysis.Yaml.Cursor

/-!
# Folded text

Plain and quoted scalars may go on over several lines.  Their lines are folded: the break between
two lines becomes a single space, and of several breaks in a row the first is dropped.

A plain scalar ends in front of a colon that a gap follows, in front of a comment, and inside a flow
collection also in front of a comma or a bracket.  A quoted scalar ends at its quotation mark.
-/

namespace PointerAnalysis.Yaml

/-! ## Gaps -/

/-- What stands for the gap between two words. -/
def fold (gap : List Char) : List Char :=
  match gap.filter isBreak with
  | [] => gap
  | ['\n'] => [' ']
  | '\n' :: breaks => breaks
  | breaks => breaks

/-- The gap at a place. -/
def gapAt (c : Cursor) : List Char := c.rest.takeWhile isGap

/-- Whether a gap has a tab in the first `indent` columns of a line that begins in it. -/
def hasTabBefore (indent : Nat) : (column : Option Nat) → List Char → Bool
  | _, [] => false
  | column, c :: rest =>
    if isBreak c then hasTabBefore indent (some 0) rest
    else (c = '\t' && column.any (· < indent)) || hasTabBefore indent (column.map (· + 1)) rest

/-! ## Plain scalars -/

/-- Whether a character ends a plain scalar inside a flow collection. -/
def isFlowMark (c : Char) : Bool := ",[]\x7b\x7d".toList.contains c

/-- The characters of a plain scalar up to a gap or its end.  Inside a flow collection no mark may
follow a colon. -/
def plainWord (inFlow : Bool) : List Char → Option (List Char)
  | [] => some []
  | c :: rest =>
    if isGap c || (c = ':' && startsGap rest) || (inFlow && isFlowMark c) then some []
    else if inFlow && c = ':' && rest.head?.any fun d => d = '?' || isFlowMark d then none
    else (c :: ·) <$> plainWord inFlow rest

/-- A plain scalar as it was read. -/
structure Plain where
  text : List Char
  /-- The place behind the scalar and the gap after it. -/
  after : Cursor
  /-- Whether that gap has a break. -/
  endsLine : Bool

/-- Reads a plain scalar.  Outside of flow collections its lines begin at the column `indent` or
right of it.  Each word takes a character, so the length of the text is room enough. -/
def plain (inFlow : Bool) (indent : Nat) :
    (room : Nat) → (gap : List Char) → Cursor → Option Plain
  | 0, _, _ => none
  | room + 1, gap, c =>
    let ended : Plain := { text := [], after := c, endsLine := gap.any isBreak }
    if c.atDocumentMark || c.rest.head? = some '#' then some ended
    else do
      let word ← plainWord inFlow c.rest
      if word.isEmpty then
        return ended
      let c := c.skip word.length
      let next := gapAt c
      let after := c.skip next.length
      if hasTabBefore indent none next then none
      let text := fold gap ++ word
      if next.isEmpty || (!inFlow && next.any isBreak && after.column < indent) then
        return { text, after, endsLine := next.any isBreak }
      let more ← plain inFlow indent room next after
      return { more with text := text ++ more.text }

/-! ## Quoted scalars -/

/-- The characters of a single-quoted scalar up to a gap or its end, and what follows.  A quotation
mark is written twice. -/
def singleQuotedWord : List Char → List Char × List Char
  | '\'' :: '\'' :: rest =>
    let (word, rest) := singleQuotedWord rest
    ('\'' :: word, rest)
  | c :: rest =>
    if c = '\'' || isGap c then ([], c :: rest)
    else
      let (word, rest) := singleQuotedWord rest
      (c :: word, rest)
  | [] => ([], [])

/-- The character of a code. -/
def ofCode? (digits : List Char) : Option Char := do
  let n ← Text.ofDigits? 16 digits
  if n.isValidChar then return Char.ofNat n else none

/-- The character that one letter behind a backslash stands for. -/
def unescape? : Char → Option Char
  | '0' => some '\x00'
  | 'a' => some '\x07'
  | 'b' => some '\x08'
  | 't' | '\t' => some '\t'
  | 'n' => some '\n'
  | 'v' => some '\x0b'
  | 'f' => some '\x0c'
  | 'r' => some '\r'
  | 'e' => some '\x1b'
  | ' ' => some ' '
  | '"' => some '"'
  | '/' => some '/'
  | '\\' => some '\\'
  | 'N' => some '\u0085'
  | '_' => some '\u00a0'
  | 'L' => some '\u2028'
  | 'P' => some '\u2029'
  | _ => none

/-- The characters of a double-quoted scalar up to a gap, an escaped break or its end; whether it is
an escaped break, which is passed over; and what follows. -/
def doubleQuotedWord : List Char → Option (List Char × Bool × List Char)
  | '\\' :: 'x' :: a :: b :: rest => do
    let c ← ofCode? [a, b]
    let (word, isJoined, rest) ← doubleQuotedWord rest
    return (c :: word, isJoined, rest)
  | '\\' :: 'u' :: a :: b :: c :: d :: rest => do
    let e ← ofCode? [a, b, c, d]
    let (word, isJoined, rest) ← doubleQuotedWord rest
    return (e :: word, isJoined, rest)
  | '\\' :: 'U' :: a :: b :: c :: d :: e :: f :: g :: h :: rest => do
    let i ← ofCode? [a, b, c, d, e, f, g, h]
    let (word, isJoined, rest) ← doubleQuotedWord rest
    return (i :: word, isJoined, rest)
  | '\\' :: c :: rest =>
    if isBreak c then some ([], true, rest)
    else do
      let c ← unescape? c
      let (word, isJoined, rest) ← doubleQuotedWord rest
      return (c :: word, isJoined, rest)
  | c :: rest =>
    if c = '"' || isGap c then some ([], false, c :: rest)
    else do
      let (word, isJoined, rest) ← doubleQuotedWord rest
      return (c :: word, isJoined, rest)
  | [] => some ([], false, [])

/-- Reads a quoted scalar behind its opening quotation mark, and the place behind the closing one.
An escaped break joins two lines without a space.  Each word with the gap after it takes a
character, so the length of the text is room enough. -/
def quoted (isDouble : Bool) : (room : Nat) → Cursor → Option (List Char × Cursor)
  | 0, _ => none
  | room + 1, c =>
    if c.atDocumentMark then none
    else do
      let (word, isJoined, rest) ←
        if isDouble then doubleQuotedWord c.rest
        else
          let (word, rest) := singleQuotedWord c.rest
          some (word, false, rest)
      let c := c.skipTo rest
      let quote := if isDouble then '"' else '\''
      if c.rest.head? = some quote then
        return (word, c.skip 1)
      let gap := gapAt c
      if gap.isEmpty && !isJoined then none
      let (more, after) ← quoted isDouble room (c.skip gap.length)
      return (word ++ (if isJoined then gap.filter isBreak else fold gap) ++ more, after)

end PointerAnalysis.Yaml
