import PointerAnalysis.Text.Digits
import PointerAnalysis.Yaml.Node

/-!
# Meaning of scalars

A quoted scalar is a text.  A plain scalar may be a null, a truth value or a number instead, as its
spelling tells.  Integers are decimal or have a mark of their base in front of their digits; digits
that begin with a superfluous zero are a text.
-/

namespace PointerAnalysis.Yaml

/-- What a scalar means. -/
inductive Meaning where
  | null
  | bool (b : Bool)
  /-- An integer without a minus sign, below `2 ^ 64`. -/
  | nat (n : Nat)
  /-- The integer `-n` with a minus sign, at least `-2 ^ 63`. -/
  | neg (n : Nat)
  /-- Any other integer that fits into 128 bits. -/
  | wide
  /-- Any other number that is finite as a double or has a spelling of its own. -/
  | real
  | text (s : String)
deriving DecidableEq, Repr

/-! ## Integers -/

/-- Whether digits begin with a superfluous zero. -/
def hasExtraZero : List Char → Bool
  | '0' :: c :: rest => (c :: rest).all Char.isDigit
  | _ => false

/-- An integer without a sign. -/
def unsigned? : List Char → Option Nat
  | '0' :: 'x' :: digits => Text.ofDigits? 16 digits
  | '0' :: 'o' :: digits => Text.ofDigits? 8 digits
  | '0' :: 'b' :: digits => Text.ofDigits? 2 digits
  | digits => if hasExtraZero digits then none else Text.ofDigits? 10 digits

/-- The integer of a plain scalar. -/
def integer? (cs : List Char) : Option Meaning :=
  match cs with
  | '-' :: cs => do
    let n ← unsigned? cs
    if n ≤ Nat.pow 2 63 then return .neg n
    else if n ≤ Nat.pow 2 127 then return .wide
    else none
  | _ => do
    let n ← unsigned? (if cs.head? = some '+' then cs.drop 1 else cs)
    if n < UInt64.size then return .nat n
    else if n < Nat.pow 2 128 then return .wide
    else none

/-! ## Other numbers -/

/-- Digits with at most one point among them: all digits, and the number of those behind the
point.  There has to be a digit. -/
def mantissa? (cs : List Char) : Option (Nat × Nat) := do
  let whole := cs.takeWhile Char.isDigit
  let fraction ← match cs.drop whole.length with
    | [] => some []
    | '.' :: fraction => some fraction
    | _ => none
  return (← Text.ofDigits? 10 (whole ++ fraction), fraction.length)

/-- An integer that may have a sign. -/
def exponent? : List Char → Option Int
  | '+' :: digits => Int.ofNat <$> Text.ofDigits? 10 digits
  | '-' :: digits => (fun n => -Int.ofNat n) <$> Text.ofDigits? 10 digits
  | digits => Int.ofNat <$> Text.ofDigits? 10 digits

/-- Whether `m * 10 ^ e` is finite as a double, that is, less than half a unit above the greatest
double.  Exponents far away from that decide without arithmetic. -/
def isFinite (m : Nat) (e : Int) : Bool :=
  let top := (toString m).length + e
  if m = 0 || top ≤ 308 then true
  else if 310 < top then false
  else
    let limit := Nat.pow 2 1024 - Nat.pow 2 970
    if 0 ≤ e then m * Nat.pow 10 e.toNat < limit else m < limit * Nat.pow 10 (-e).toNat

/-- Whether a plain scalar without a sign is a decimal number that is finite as a double. -/
def isDecimal (cs : List Char) : Bool :=
  let mark := fun c => c = 'e' || c = 'E'
  let mantissa := cs.takeWhile fun c => !mark c
  let exponent := match cs.drop mantissa.length with
    | [] => some 0
    | _ :: digits => exponent? digits
  match mantissa? mantissa, exponent with
  | some (m, places), some e => isFinite m (e - places)
  | _, _ => false

/-- Whether a plain scalar without a sign has one of the spellings of infinity. -/
def isInfinity (cs : List Char) : Bool := [".inf", ".Inf", ".INF"].contains (String.ofList cs)

/-- Whether a plain scalar has one of the spellings of what is not a number, which take no sign. -/
def isNotANumber (cs : List Char) : Bool := [".nan", ".NaN", ".NAN"].contains (String.ofList cs)

/-- Whether a plain scalar is a number that is not an integer. -/
def isReal (cs : List Char) : Bool :=
  match cs with
  | '-' :: cs | '+' :: cs => !hasExtraZero cs && (isDecimal cs || isInfinity cs)
  | _ => !hasExtraZero cs && (isDecimal cs || isInfinity cs || isNotANumber cs)

/-! ## Scalars -/

/-- The meaning of a plain scalar. -/
def Meaning.ofPlain (s : String) : Meaning :=
  if ["", "~", "null", "Null", "NULL"].contains s then null
  else if ["true", "True", "TRUE"].contains s then bool true
  else if ["false", "False", "FALSE"].contains s then bool false
  else match integer? s.toList with
    | some n => n
    | none => if isReal s.toList then real else text s

/-- The meaning of a scalar. -/
def Node.meaning? : Node → Option Meaning
  | scalar isPlain s => some (if isPlain then .ofPlain s else .text s)
  | _ => none

mutual

/-- Whether no integer in a node needs more than 64 bits, and no more than `room` collections are
nested. -/
def Node.isSound (room : Nat) : Node → Bool
  | scalar isPlain s => !(isPlain && Meaning.ofPlain s = .wide)
  | seq elems => room ≠ 0 && areSound (room - 1) elems
  | map entries => room ≠ 0 && entriesAreSound (room - 1) entries

/-- `isSound` for all elements of a sequence. -/
def Node.areSound (room : Nat) : List Node → Bool
  | [] => true
  | n :: rest => Node.isSound room n && Node.areSound room rest

/-- `isSound` for all keys and values of a mapping. -/
def Node.entriesAreSound (room : Nat) : List (Node × Node) → Bool
  | [] => true
  | (k, v) :: rest => Node.isSound room k && Node.isSound room v && Node.entriesAreSound room rest

end

end PointerAnalysis.Yaml
