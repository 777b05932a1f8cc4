/-!
# Shortest decimals

A floating-point number stands for all reals that round to it.  Its shortest decimal is the one
with the fewest digits among those reals; of several with as few digits it is the one nearest to the
number, and of two equally near the one with the even last digit.

All comparisons are made on natural numbers, so no step rounds.
-/

namespace PointerAnalysis.Decimal

/-- A positive number `mantissa * 2 ^ exponent`, as a double holds it. -/
structure Binary where
  mantissa : Nat
  exponent : Int
  /-- Whether the double below is only half as far away as the double above. -/
  narrowBelow : Bool
deriving DecidableEq, Repr

/-- The magnitude of a finite double with the given bits. -/
def Binary.ofBits (bits : UInt64) : Binary :=
  let e := (bits >>> 52 &&& 0x7FF).toNat
  let f := (bits &&& 0xFFFFFFFFFFFFF).toNat
  if e = 0 then ⟨f, -1074, false⟩ else ⟨Nat.pow 2 52 + f, e - 1075, f = 0 ∧ 1 < e⟩

/-- A number `digits * 10 ^ exponent`. -/
structure Scaled where
  digits : Nat
  exponent : Int
deriving DecidableEq, Repr

/-- Compares `a * 10 ^ i` with `b * 2 ^ j`. -/
def compareScaled (a : Nat) (i : Int) (b : Nat) (j : Int) : Ordering :=
  compare (a * Nat.pow 10 i.toNat * Nat.pow 2 (-j).toNat)
    (b * Nat.pow 2 j.toNat * Nat.pow 10 (-i).toNat)

/-- Whether a decimal rounds to a double.  The ends of the interval round to it exactly if its
mantissa is even. -/
def Binary.isNear (x : Binary) (d : Scaled) : Bool :=
  let below := if x.narrowBelow then 4 * x.mantissa - 1 else 4 * x.mantissa - 2
  let above := 4 * x.mantissa + 2
  let even := x.mantissa % 2 = 0
  let left := compareScaled d.digits d.exponent below (x.exponent - 2)
  let right := compareScaled d.digits d.exponent above (x.exponent - 2)
  (left = .gt || (even && left = .eq)) && (right = .lt || (even && right = .eq))

/-- The greatest multiple of `10 ^ e` that is at most the number, in units of `10 ^ e`. -/
def Binary.floorAt (x : Binary) (e : Int) : Nat :=
  x.mantissa * Nat.pow 2 x.exponent.toNat * Nat.pow 10 (-e).toNat /
    (Nat.pow 2 (-x.exponent).toNat * Nat.pow 10 e.toNat)

/-- The least `e`, from a first guess on, such that the number is below `10 ^ e`. -/
def Binary.scale (x : Binary) : (tries : Nat) → Int → Int
  | 0, e => e
  | tries + 1, e => if x.floorAt e = 0 then e else x.scale tries (e + 1)

/-- The decimals with `n` digits on both sides of the number, if they round to it; the nearer one
is taken. -/
def Binary.candidate (x : Binary) (scale : Int) (n : Nat) : Option Scaled :=
  let e := scale - n
  let low := x.floorAt e
  let lowFits := x.isNear ⟨low, e⟩
  let highFits := x.isNear ⟨low + 1, e⟩
  if lowFits && highFits then
    match compareScaled (2 * low + 1) e (2 * x.mantissa) x.exponent with
    | .gt => some ⟨low, e⟩
    | .lt => some ⟨low + 1, e⟩
    | .eq => some ⟨if low % 2 = 0 then low else low + 1, e⟩
  else if lowFits then some ⟨low, e⟩
  else if highFits then some ⟨low + 1, e⟩
  else none

/-- A decimal without zeros at its end. -/
def Scaled.strip (d : Scaled) : (tries : Nat) → Scaled
  | 0 => d
  | tries + 1 =>
    if d.digits ≠ 0 ∧ d.digits % 10 = 0 then strip ⟨d.digits / 10, d.exponent + 1⟩ tries else d

/-- The shortest decimal of a positive double.  Seventeen digits always suffice. -/
def shortest (x : Binary) : Scaled :=
  let guess : Int := (x.exponent + x.mantissa.log2) * 30103 / 100000 - 1
  let scale := x.scale 8 guess
  let found := (List.range 17).findSome? fun n => x.candidate scale (n + 1)
  (found.getD ⟨x.floorAt (scale - 17), scale - 17⟩).strip 20

example : shortest (.ofBits 0x3FB999999999999A) = ⟨1, -1⟩ := by decide +kernel
example : shortest (.ofBits 0x44B52D02C7E14AF6) = ⟨1, 23⟩ := by decide +kernel
example : shortest (.ofBits 1) = ⟨5, -324⟩ := by decide +kernel
example : shortest (.ofBits 0x7FEFFFFFFFFFFFFF) = ⟨17976931348623157, 292⟩ := by decide +kernel

end PointerAnalysis.Decimal
