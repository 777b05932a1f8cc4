import PointerAnalysis.Yaml.Folded

/-!
# YAML tokens

The tokens of a text.  Block collections have no marks of their own where they begin and end, so
their tokens follow from the indentation.  Keys have none either: wherever a key may begin, the place
is kept as a candidate, and a colon on the same line makes a key of it.

Anchors, aliases, tags, directives, block scalars and keys with a question mark are not read.
-/

namespace PointerAnalysis.Yaml

/-- A token. -/
inductive Token where
  | documentStart
  | documentEnd
  | openBlockMap
  | openBlockSeq
  | closeBlock
  | openFlowMap
  | closeFlowMap
  | openFlowSeq
  | closeFlowSeq
  /-- The hyphen in front of an element. -/
  | item
  /-- The comma between elements. -/
  | comma
  /-- A key follows. -/
  | key
  /-- The colon behind a key. -/
  | value
  /-- A scalar that is plain or quoted. -/
  | scalar (isPlain : Bool) (text : String)
deriving DecidableEq, Repr

/-! ## State -/

/-- A place where a key may begin. -/
structure Candidate where
  /-- The number of tokens before it. -/
  position : Nat
  line : Nat
  column : Nat
  offset : Nat
  /-- Whether the text is wrong unless a key begins there. -/
  isRequired : Bool
deriving DecidableEq, Repr

/-- What has been read of a text. -/
structure TokenState where
  cursor : Cursor
  /-- The tokens so far, newest first. -/
  tokens : List Token := []
  /-- The columns of the open block collections, innermost first. -/
  indents : List Nat := []
  /-- The candidate in the innermost collection. -/
  candidate : Option Candidate := none
  /-- The candidates around the open flow collections, innermost first. -/
  outer : List (Option Candidate) := []
  /-- Whether a key may begin here. -/
  keyAllowed : Bool := true
deriving DecidableEq, Repr

namespace TokenState

/-- Whether a flow collection is open. -/
def inFlow (s : TokenState) : Bool := !s.outer.isEmpty

/-- Adds a token. -/
def emit (s : TokenState) (t : Token) : TokenState := { s with tokens := t :: s.tokens }

/-- Adds a token of some characters. -/
def emitMark (s : TokenState) (t : Token) (length : Nat) : TokenState :=
  { s.emit t with cursor := s.cursor.skip length }

/-- Adds tokens, given in reverse, behind the first `position` ones. -/
def insertAt (s : TokenState) (position : Nat) (ts : List Token) : TokenState :=
  let (newer, older) := s.tokens.splitAt (s.tokens.length - position)
  { s with tokens := newer ++ ts ++ older }

/-! ### Indentation -/

/-- Opens a block collection, if the column is right of all open ones, with its token behind the
first `position` ones. -/
def openBlock (s : TokenState) (column position : Nat) (t : Token) : TokenState :=
  if s.inFlow || s.indents.head?.any (column ≤ ·) then s
  else { s.insertAt position [t] with indents := column :: s.indents }

/-- Closes the block collections in columns that do not satisfy a test. -/
def closeBlocks (s : TokenState) (keep : Nat → Bool) : TokenState :=
  if s.inFlow then s
  else
    let closed := s.indents.takeWhile fun i => !keep i
    { s with
      tokens := closed.map (fun _ => Token.closeBlock) ++ s.tokens
      indents := s.indents.drop closed.length }

/-! ### Candidates -/

/-- Gives up the candidate of the innermost collection, which must not be a required one. -/
def dropCandidate (s : TokenState) : Option TokenState :=
  if s.candidate.any Candidate.isRequired then none else some { s with candidate := none }

/-- Keeps this place as a candidate, if a key may begin here. -/
def keepCandidate (s : TokenState) : Option TokenState :=
  if s.keyAllowed then do
    let s ← s.dropCandidate
    let c := s.cursor
    let isRequired := !s.inFlow && s.indents.head? = some c.column
    return { s with candidate := some {
      position := s.tokens.length
      line := c.line
      column := c.column
      offset := c.offset
      isRequired } }
  else some s

/-- Whether a candidate is too far back: on an earlier line, or more than 1024 bytes. -/
def isStale (s : TokenState) (candidate : Candidate) : Bool :=
  candidate.line < s.cursor.line || candidate.offset + 1024 < s.cursor.offset

/-- Gives up a candidate that is too far back. -/
def fresh (s : TokenState) : Option Candidate → Option (Option Candidate)
  | none => some none
  | some candidate =>
    if !s.isStale candidate then some (some candidate)
    else if candidate.isRequired then none
    else some none

/-- Gives up all candidates that are too far back. -/
def dropStale (s : TokenState) : Option TokenState := do
  return { s with candidate := ← s.fresh s.candidate, outer := ← s.outer.mapM s.fresh }

/-! ## Tokens -/

/-- What stands in front of the next character. -/
inductive Before where
  /-- Nothing on its line. -/
  | lineStart
  /-- Blanks, or a byte order mark. -/
  | blank
  /-- The beginning of a comment. -/
  | comment
deriving DecidableEq

/-- Passes over blanks, comments and breaks, and over one byte order mark at the start of a line,
which takes a column.  Where a key may begin in a block, no tab is passed over.  The answer tells
whether a key may begin behind them, and what follows. -/
def pass (inFlow : Bool) : (keyAllowed : Bool) → Before → List Char → Bool × List Char
  | keyAllowed, _, [] => (keyAllowed, [])
  | keyAllowed, before, c :: rest =>
    if isBreak c then pass inFlow (keyAllowed || !inFlow) .lineStart rest
    else if before = .comment then pass inFlow keyAllowed .comment rest
    else if c = '#' then pass inFlow keyAllowed .comment rest
    else if c = ' ' || (c = '\t' && (inFlow || !keyAllowed))
        || (c = '\uFEFF' && before = .lineStart) then
      pass inFlow keyAllowed .blank rest
    else (keyAllowed, c :: rest)

/-- Goes on to the next token and closes the block collections that end before it. -/
def approach (s : TokenState) : Option TokenState := do
  let before := if s.cursor.column = 0 then Before.lineStart else .blank
  let (keyAllowed, rest) := pass s.inFlow s.keyAllowed before s.cursor.rest
  let s := { s with cursor := s.cursor.skipTo rest, keyAllowed }
  return (← s.dropStale).closeBlocks (· ≤ s.cursor.column)

/-- The start or the end of a document. -/
def takeDocumentMark (s : TokenState) (t : Token) : Option TokenState := do
  let s ← (s.closeBlocks fun _ => false).dropCandidate
  return { s.emitMark t 3 with keyAllowed := false }

/-- The beginning of a flow collection, which may itself be a key. -/
def takeOpening (s : TokenState) (t : Token) : Option TokenState := do
  let s ← s.keepCandidate
  return { s.emitMark t 1 with
    candidate := none, outer := s.candidate :: s.outer, keyAllowed := true }

/-- The end of a flow collection. -/
def takeClosing (s : TokenState) (t : Token) : Option TokenState := do
  let s ← s.dropCandidate
  let s := { s.emitMark t 1 with keyAllowed := false }
  match s.outer with
  | candidate :: outer => return { s with candidate, outer }
  | [] => return s

/-- The comma between the elements of a flow collection. -/
def takeComma (s : TokenState) : Option TokenState := do
  return { (← s.dropCandidate).emitMark .comma 1 with keyAllowed := true }

/-- The hyphen in front of an element of a block sequence. -/
def takeItem (s : TokenState) : Option TokenState := do
  if s.inFlow || !s.keyAllowed then none
  let s ← (s.openBlock s.cursor.column s.tokens.length .openBlockSeq).dropCandidate
  return { s.emitMark .item 1 with keyAllowed := true }

/-- The colon behind a key.  If there is a candidate, that is where the key begins. -/
def takeColon (s : TokenState) : Option TokenState :=
  match s.candidate with
  | some key =>
    let s := (s.insertAt key.position [.key]).openBlock key.column key.position .openBlockMap
    some { s.emitMark .value 1 with candidate := none, keyAllowed := false }
  | none =>
    if s.inFlow then some { s.emitMark .value 1 with keyAllowed := false }
    else if s.keyAllowed then
      let s := s.openBlock s.cursor.column s.tokens.length .openBlockMap
      some { s.emitMark .value 1 with keyAllowed := true }
    else none

/-- A quoted scalar. -/
def takeQuoted (s : TokenState) (isDouble : Bool) : Option TokenState := do
  let s ← s.keepCandidate
  let start := s.cursor.skip 1
  let (text, cursor) ← quoted isDouble (start.rest.length + 1) start
  return { s.emit (.scalar false (String.ofList text)) with cursor, keyAllowed := false }

/-- A plain scalar.  Behind one that ends its line a key may begin. -/
def takePlain (s : TokenState) : Option TokenState := do
  let s ← s.keepCandidate
  let indent := s.indents.head?.elim 0 (· + 1)
  let scalar ← plain s.inFlow indent (s.cursor.rest.length + 1) [] s.cursor
  return { s.emit (.scalar true (String.ofList scalar.text)) with
    cursor := scalar.after, keyAllowed := scalar.endsLine }

/-- Whether a character can not begin a plain scalar. -/
def isIndicator (c : Char) : Bool := "-?:,[]\x7b\x7d#&*!|>'\"%@`".toList.contains c

/-- Takes the token that begins with a character. -/
def take (s : TokenState) (c : Char) (rest : List Char) : Option TokenState :=
  if s.cursor.atDocumentMark then
    s.takeDocumentMark (if c = '-' then .documentStart else .documentEnd)
  else
    match c with
    | '[' => s.takeOpening .openFlowSeq
    | '\x7b' => s.takeOpening .openFlowMap
    | ']' => s.takeClosing .closeFlowSeq
    | '\x7d' => s.takeClosing .closeFlowMap
    | ',' => s.takeComma
    | '\'' => s.takeQuoted false
    | '"' => s.takeQuoted true
    | '-' => if startsGap rest then s.takeItem else s.takePlain
    | ':' => if s.inFlow || startsGap rest then s.takeColon else s.takePlain
    | '?' => if s.inFlow || startsGap rest then none else s.takePlain
    | c => if isGap c || isIndicator c then none else s.takePlain

/-- The rest of the tokens.  Each takes a character, so the length of the text is room enough. -/
def takeAll : (room : Nat) → TokenState → Option (List Token)
  | 0, _ => none
  | room + 1, s => do
    let s ← s.approach
    match s.cursor.rest with
    | [] => return (← (s.closeBlocks fun _ => false).dropCandidate).tokens.reverse
    | c :: rest => takeAll room (← s.take c rest)

end TokenState

/-- The tokens of a text. -/
def tokens (text : List Char) : Option (List Token) :=
  if text.all isAllowed then
    TokenState.takeAll (text.length + 1) { cursor := .ofText text }
  else none

end PointerAnalysis.Yaml
