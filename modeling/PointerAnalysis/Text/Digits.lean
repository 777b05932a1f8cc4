/-!
# Numbers written with digits

The value of a digit and of a run of digits, in any base up to sixteen.
-/

namespace PointerAnalysis.Text

/-- The value of a hexadecimal digit; both cases of letters are digits. -/
def hexValue (c : Char) : Option Nat :=
  if '0' ≤ c ∧ c ≤ '9' then some (c.toNat - 48)
  else if 'a' ≤ c ∧ c ≤ 'f' then some (c.toNat - 87)
  else if 'A' ≤ c ∧ c ≤ 'F' then some (c.toNat - 55)
  else none

/-- The value of a digit in a base of at most sixteen. -/
def digitValue (base : Nat) (c : Char) : Option Nat := (hexValue c).filter (· < base)

/-- The number written by digits behind those of `n`. -/
def appendDigits (base n : Nat) : List Char → Option Nat
  | [] => some n
  | c :: rest => do appendDigits base (n * base + (← digitValue base c)) rest

/-- The number that a nonempty run of digits writes. -/
def ofDigits? (base : Nat) : List Char → Option Nat
  | [] => none
  | digits => appendDigits base 0 digits

example : ofDigits? 16 "fF".toList = some 255 := by decide
example : ofDigits? 8 "18".toList = none := by decide
example : ofDigits? 10 [] = none := by decide

end PointerAnalysis.Text
