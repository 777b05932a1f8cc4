import PointerAnalysis.Json.Value
import PointerAnalysis.Text.Digits

/-!
# JSON tokens

The tokens of a JSON text, without the blanks between them.

A floating-point number is read in floating-point arithmetic: the leading digits that make a 64-bit
number are multiplied or divided by a single power of ten, which is exact for short numbers and
otherwise right up to the last place.
-/

namespace PointerAnalysis.Json

/-- A token.  A string is `none` if it holds half of a surrogate pair. -/
inductive Token where
  | openArr
  | closeArr
  | openObj
  | closeObj
  | comma
  | colon
  | scalar (j : Json)
  | str (s : Option String)

/-! ## Strings -/

/-- The character that stands for itself or for a control character behind a backslash. -/
def unescape : Char → Option Char
  | '"' => some '"'
  | '\\' => some '\\'
  | '/' => some '/'
  | 'b' => some '\x08'
  | 'f' => some '\x0c'
  | 'n' => some '\n'
  | 'r' => some '\r'
  | 't' => some '\t'
  | _ => none

/-- The rest of a string behind its opening quotation mark, and what follows the closing one.

Characters given by their code are units of UTF-16, on the right. -/
def stringUnits : List Char → Option (List (Char ⊕ Nat) × List Char)
  | [] => none
  | '"' :: rest => some ([], rest)
  | '\\' :: 'u' :: a :: b :: c :: d :: rest => do
    let unit ← Text.ofDigits? 16 [a, b, c, d]
    let (units, rest) ← stringUnits rest
    return (.inr unit :: units, rest)
  | '\\' :: c :: rest => do
    let c ← unescape c
    let (units, rest) ← stringUnits rest
    return (.inl c :: units, rest)
  | c :: rest => do
    if c.toNat < 0x20 then none
    let (units, rest) ← stringUnits rest
    return (.inl c :: units, rest)

/-- Whether a unit is the first half of a surrogate pair. -/
def isHighHalf (u : Nat) : Bool := 0xD800 ≤ u && u ≤ 0xDBFF

/-- Whether a unit is the second half of a surrogate pair. -/
def isLowHalf (u : Nat) : Bool := 0xDC00 ≤ u && u ≤ 0xDFFF

/-- The characters of a string; both halves of a surrogate pair have to be given by their codes. -/
def joinUnits : List (Char ⊕ Nat) → Option (List Char)
  | [] => some []
  | .inl c :: rest => (c :: ·) <$> joinUnits rest
  | .inr u :: rest =>
    if isHighHalf u then
      match rest with
      | .inr v :: rest =>
        if isLowHalf v then
          (Char.ofNat (0x10000 + (u - 0xD800) * 0x400 + (v - 0xDC00)) :: ·) <$> joinUnits rest
        else none
      | _ => none
    else if isLowHalf u then none
    else (Char.ofNat u :: ·) <$> joinUnits rest

/-! ## Numbers -/

/-- The parts of a number: its sign, the digits before and behind the point, and the exponent. -/
structure Numeral where
  negative : Bool
  whole : List Char
  /-- The digits behind the point, if there is a point. -/
  fraction : Option (List Char)
  exponent : Option Int
deriving DecidableEq, Repr

/-- The number that a list of decimal digits denotes. -/
def digitsValue (digits : List Char) : Nat :=
  digits.foldl (fun n c => n * 10 + (c.toNat - 48)) 0

/-- A nonempty run of digits. -/
def digitRun (cs : List Char) : Option (List Char × List Char) :=
  match cs.takeWhile Char.isDigit with
  | [] => none
  | digits => some (digits, cs.dropWhile Char.isDigit)

/-- The digits behind a point, if there is one. -/
def fractionPart : List Char → Option (Option (List Char) × List Char)
  | '.' :: rest => do
    let (digits, rest) ← digitRun rest
    return (some digits, rest)
  | cs => some (none, cs)

/-- The digits of an exponent with their sign. -/
def exponentDigits (negative : Bool) (cs : List Char) : Option (Option Int × List Char) := do
  let (digits, rest) ← digitRun cs
  let n : Int := digitsValue digits
  return (some (if negative then -n else n), rest)

/-- The exponent behind a letter E, if there is one. -/
def exponentPart : List Char → Option (Option Int × List Char)
  | e :: cs =>
    if e = 'e' ∨ e = 'E' then
      match cs with
      | '+' :: rest => exponentDigits false rest
      | '-' :: rest => exponentDigits true rest
      | rest => exponentDigits false rest
    else some (none, e :: cs)
  | [] => some (none, [])

/-- A numeral at the beginning of a text, and the rest.  A leading zero stands alone. -/
def numeral (cs : List Char) : Option (Numeral × List Char) := do
  let (negative, cs) := match cs with
    | '-' :: rest => (true, rest)
    | _ => (false, cs)
  let (whole, cs) ← match cs with
    | '0' :: rest => some (['0'], rest)
    | _ => digitRun cs
  let (fraction, cs) ← fractionPart cs
  let (exponent, cs) ← exponentPart cs
  return ({ negative, whole, fraction, exponent }, cs)

/-- The longest beginning of a list of digits that makes a 64-bit number behind the digits of `n`,
and the digits left over. -/
def leading64 (n : Nat) : List Char → Nat × List Char
  | [] => (n, [])
  | c :: rest =>
    let next := n * 10 + (c.toNat - 48)
    if next < UInt64.size then leading64 next rest else (n, c :: rest)

/-- A double times a power of ten, or nothing if it is out of range.  Powers below `10 ^ -308` are
divided in several steps. -/
def scaleReal (x : Float) (e : Int) : (tries : Nat) → Option Float
  | 0 => some 0
  | tries + 1 =>
    if e.natAbs ≤ 308 then
      let power := Float.ofScientific 1 false e.natAbs
      if 0 ≤ e then
        let y := x * power
        if y.isInf then none else some y
      else some (x / power)
    else if x == 0 then some x
    else if 0 ≤ e then none
    else scaleReal (x / Float.ofScientific 1 false 308) (e + 308) tries

/-- The double of a numeral, or nothing if it is out of range. -/
def Numeral.real? (n : Numeral) : Option Float := do
  let (m, dropped) := leading64 0 n.whole
  let fraction := n.fraction.getD []
  let (m, left) := leading64 m fraction
  let taken : Int := fraction.length - left.length
  let x ← scaleReal m.toUInt64.toFloat (dropped.length - taken + n.exponent.getD 0) 4
  return if n.negative then -x else x

/-- The value of a numeral.  Integers that do not fit into 64 bits, and the negative zero, are
floating-point numbers. -/
def Numeral.value (n : Numeral) : Json :=
  let k := digitsValue n.whole
  let isInteger := n.fraction.isNone && n.exponent.isNone
  if isInteger && !n.negative && k < UInt64.size then nat k
  else if isInteger && n.negative && 0 < k && k ≤ Nat.pow 2 63 then neg k
  else n.real?.elim meaningless real

/-! ## Texts -/

/-- Whether a character is a blank between tokens. -/
def isSpace (c : Char) : Bool := c = ' ' || c = '\n' || c = '\t' || c = '\r'

/-- The tokens of a text.  Each takes at least one character, so the length is room enough. -/
def tokens : (room : Nat) → List Char → Option (List Token)
  | 0, cs => if cs.all isSpace then some [] else none
  | room + 1, cs =>
    match cs with
    | [] => some []
    | '[' :: rest => (.openArr :: ·) <$> tokens room rest
    | ']' :: rest => (.closeArr :: ·) <$> tokens room rest
    | '\x7b' :: rest => (.openObj :: ·) <$> tokens room rest
    | '\x7d' :: rest => (.closeObj :: ·) <$> tokens room rest
    | ',' :: rest => (.comma :: ·) <$> tokens room rest
    | ':' :: rest => (.colon :: ·) <$> tokens room rest
    | '"' :: rest => do
      let (units, rest) ← stringUnits rest
      (.str ((joinUnits units).map String.ofList) :: ·) <$> tokens room rest
    | 'n' :: 'u' :: 'l' :: 'l' :: rest => (.scalar .null :: ·) <$> tokens room rest
    | 't' :: 'r' :: 'u' :: 'e' :: rest => (.scalar (.bool true) :: ·) <$> tokens room rest
    | 'f' :: 'a' :: 'l' :: 's' :: 'e' :: rest =>
      (.scalar (.bool false) :: ·) <$> tokens room rest
    | c :: rest =>
      if isSpace c then tokens room rest
      else do
        let (n, rest) ← numeral (c :: rest)
        (.scalar n.value :: ·) <$> tokens room rest

end PointerAnalysis.Json
