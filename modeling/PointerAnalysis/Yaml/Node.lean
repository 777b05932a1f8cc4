import PointerAnalysis.Yaml.Token

/-!
# YAML nodes

The tree that a document denotes: scalars, sequences and mappings.  The entries of a mapping are
kept in order, with repetitions.
-/

namespace PointerAnalysis.Yaml

/-- A node of a document. -/
inductive Node where
  | scalar (isPlain : Bool) (text : String)
  | seq (elems : List Node)
  | map (entries : List (Node × Node))

namespace Node

/-- The node that stands where nothing is written. -/
def empty : Node := scalar true ""

/-- The text of a scalar. -/
def text? : Node → Option String
  | scalar _ text => some text
  | _ => none

/-! ## Nodes from tokens -/

/-- A node, unless one of some tokens follows; then it is empty. -/
def orEmpty (node : List Token → Option (Node × List Token)) (stops : List Token)
    (ts : List Token) : Option (Node × List Token) :=
  if ts.head?.any (· ∈ stops) then some (empty, ts) else node ts

/-- A node behind a colon, which is empty if there is no colon, or if one of some tokens follows. -/
def valueOrEmpty (node : List Token → Option (Node × List Token)) (stops : List Token) :
    List Token → Option (Node × List Token)
  | .value :: ts => orEmpty node stops ts
  | ts => some (empty, ts)

/-- What follows the comma behind an element of a flow collection, or the closing bracket. -/
def afterElem (closing : Token) : List Token → Option (List Token)
  | .comma :: ts => some ts
  | t :: ts => if t = closing then some (t :: ts) else none
  | [] => none

mutual

/-- The node at the beginning of some tokens, and what follows.

Where a node is the value of an entry in a block, the items of a sequence need not be indented.
Every token is the cause of at most two calls, which bounds the room needed. -/
def ofTokens? (isValue : Bool) : (room : Nat) → List Token → Option (Node × List Token)
  | 0, _ => none
  | room + 1, ts =>
    match ts with
    | .scalar isPlain text :: ts => some (scalar isPlain text, ts)
    | .openFlowSeq :: ts => Prod.map seq id <$> flowElems room ts
    | .openFlowMap :: ts => Prod.map map id <$> flowEntries room ts
    | .openBlockSeq :: ts => Prod.map seq id <$> blockElems room ts
    | .openBlockMap :: ts => Prod.map map id <$> blockEntries room ts
    | .item :: _ => if isValue then Prod.map seq id <$> looseElems room ts else none
    | _ => none

/-- The elements of a flow sequence.  An element may be a single entry of a mapping. -/
def flowElems : (room : Nat) → List Token → Option (List Node × List Token)
  | 0, _ => none
  | _ + 1, .closeFlowSeq :: ts => some ([], ts)
  | room + 1, .key :: ts => do
    let (key, ts) ← orEmpty (ofTokens? false room) [.value, .comma, .closeFlowSeq] ts
    let (value, ts) ← valueOrEmpty (ofTokens? false room) [.comma, .closeFlowSeq] ts
    let (rest, ts) ← flowElems room (← afterElem .closeFlowSeq ts)
    return (map [(key, value)] :: rest, ts)
  | room + 1, ts => do
    let (elem, ts) ← ofTokens? false room ts
    let (rest, ts) ← flowElems room (← afterElem .closeFlowSeq ts)
    return (elem :: rest, ts)

/-- The entries of a flow mapping.  A key without a colon has an empty value. -/
def flowEntries :
    (room : Nat) → List Token → Option (List (Node × Node) × List Token)
  | 0, _ => none
  | _ + 1, .closeFlowMap :: ts => some ([], ts)
  | room + 1, .key :: ts => do
    let (key, ts) ← orEmpty (ofTokens? false room) [.value, .comma, .closeFlowMap] ts
    let (value, ts) ← valueOrEmpty (ofTokens? false room) [.comma, .closeFlowMap] ts
    let (rest, ts) ← flowEntries room (← afterElem .closeFlowMap ts)
    return ((key, value) :: rest, ts)
  | room + 1, ts => do
    let (key, ts) ← ofTokens? false room ts
    let (rest, ts) ← flowEntries room (← afterElem .closeFlowMap ts)
    return ((key, empty) :: rest, ts)

/-- The elements of a block sequence. -/
def blockElems : (room : Nat) → List Token → Option (List Node × List Token)
  | room + 1, .item :: ts => do
    let (elem, ts) ← orEmpty (ofTokens? false room) [.item, .closeBlock] ts
    let (rest, ts) ← blockElems room ts
    return (elem :: rest, ts)
  | _ + 1, .closeBlock :: ts => some ([], ts)
  | _, _ => none

/-- The elements of a block sequence that stands in the column of the mapping around it, and so has
no end of its own. -/
def looseElems : (room : Nat) → List Token → Option (List Node × List Token)
  | 0, _ => none
  | room + 1, .item :: ts => do
    let (elem, ts) ← orEmpty (ofTokens? false room) [.item, .key, .value, .closeBlock] ts
    let (rest, ts) ← looseElems room ts
    return (elem :: rest, ts)
  | _ + 1, ts => some ([], ts)

/-- The entries of a block mapping. -/
def blockEntries :
    (room : Nat) → List Token → Option (List (Node × Node) × List Token)
  | room + 1, .key :: ts => do
    let stops : List Token := [.key, .value, .closeBlock]
    let (key, ts) ← orEmpty (ofTokens? true room) stops ts
    let (value, ts) ← valueOrEmpty (ofTokens? true room) stops ts
    let (rest, ts) ← blockEntries room ts
    return ((key, value) :: rest, ts)
  | _ + 1, .closeBlock :: ts => some ([], ts)
  | _, _ => none

end

/-! ## Documents -/

/-- The node of a document whose start is marked. -/
def ofContent? (room : Nat) (ts : List Token) : Option (Node × List Token) :=
  match ts with
  | [] | .documentStart :: _ | .documentEnd :: _ => some (empty, ts)
  | _ => ofTokens? false room ts

/-- The node of the only document of a text; a text without tokens has no document. -/
def ofText? (text : String) : Option (Option Node) := do
  let ts ← tokens text.toList
  let room := 2 * ts.length + 2
  match ts with
  | [] => return none
  | t :: rest =>
    let (node, rest) ←
      if t = .documentStart then ofContent? room rest else ofTokens? false room ts
    if rest.all (· = .documentEnd) then return some node else none

end Node

end PointerAnalysis.Yaml
