import PointerAnalysis.Decimal.Shortest
import PointerAnalysis.Json.Value

/-!
# JSON text

Values are written in one of two layouts: on one line without blanks, or with one line for each
element and member, indented by two spaces for each level.

Strings escape what the grammar demands and nothing else.  Floating-point numbers have the fewest
digits that read back, and always a point or an exponent.
-/

namespace PointerAnalysis.Json

/-! ## Scalars -/

/-- The digit of a number below sixteen. -/
def hexDigit (n : Nat) : Char := if n < 10 then Char.ofNat (48 + n) else Char.ofNat (87 + n)

/-- A character inside a string. -/
def escape : Char → List Char
  | '"' => ['\\', '"']
  | '\\' => ['\\', '\\']
  | '\x08' => ['\\', 'b']
  | '\x0c' => ['\\', 'f']
  | '\n' => ['\\', 'n']
  | '\r' => ['\\', 'r']
  | '\t' => ['\\', 't']
  | c =>
    if c.toNat < 0x20 then
      ['\\', 'u', '0', '0', hexDigit (c.toNat / 16), hexDigit (c.toNat % 16)]
    else [c]

/-- A string between quotation marks. -/
def quoted (s : String) : String := String.ofList ('"' :: s.toList.flatMap escape ++ ['"'])

/-- A run of zeros. -/
def zeros (n : Nat) : String := String.ofList (List.replicate n '0')

/-- A positive decimal.  It is written without exponent if its first digit stands at most five
places behind the point and at most sixteen in front of it.  An exponent always has its sign. -/
def decimal (d : Decimal.Scaled) : String :=
  let digits := toString d.digits
  let point := digits.length + d.exponent
  if 0 ≤ d.exponent ∧ point ≤ 16 then digits ++ zeros d.exponent.toNat ++ ".0"
  else if 0 < point ∧ point ≤ 16 then
    let whole := point.toNat
    String.ofList (digits.toList.take whole) ++ "." ++ String.ofList (digits.toList.drop whole)
  else if -5 < point ∧ point ≤ 0 then "0." ++ zeros (-point).toNat ++ digits
  else
    let fraction := digits.toList.drop 1
    String.ofList (digits.toList.take 1)
      ++ (if fraction.isEmpty then "" else "." ++ String.ofList fraction)
      ++ (if point ≤ 0 then "e" else "e+") ++ toString (point - 1)

/-- A floating-point number.  What is not finite has no form of its own and becomes null. -/
def number (x : Float) : String :=
  let bits := x.toBits
  let sign := if bits >>> 63 = 0 then "" else "-"
  if bits >>> 52 &&& 0x7FF = 0x7FF then "null"
  else if bits <<< 1 = 0 then sign ++ "0.0"
  else sign ++ decimal (Decimal.shortest (.ofBits bits))

example : decimal ⟨15, -1⟩ = "1.5" := by decide
example : decimal ⟨1, 15⟩ = "1000000000000000.0" := by decide
example : decimal ⟨1, 16⟩ = "1e+16" := by decide
example : decimal ⟨25, -6⟩ = "0.000025" := by decide
example : decimal ⟨25, -7⟩ = "2.5e-6" := by decide

/-! ## One line -/

mutual

/-- A value on one line. -/
def compact : Json → String
  | null | meaningless => "null"
  | bool b => if b then "true" else "false"
  | nat n => toString n
  | neg n => "-" ++ toString n
  | real x => number x
  | str s => quoted s
  | arr elems => "[" ++ ",".intercalate (compactElems elems) ++ "]"
  | obj members => "\x7b" ++ ",".intercalate (compactMembers members) ++ "\x7d"

/-- The elements of an array, each on one line. -/
def compactElems : List Json → List String
  | [] => []
  | j :: rest => compact j :: compactElems rest

/-- The members of an object, each on one line. -/
def compactMembers : List (String × Json) → List String
  | [] => []
  | (key, j) :: rest => (quoted key ++ ":" ++ compact j) :: compactMembers rest

end

/-! ## Indented -/

/-- The lines of a container between its brackets; an empty one stays on one line. -/
def block (opening closing : String) (level : Nat) (items : List String) : String :=
  if items.isEmpty then opening ++ closing
  else
    let line := "\n" ++ String.ofList (List.replicate (2 * level) ' ')
    opening ++ line ++ "  " ++ ("," ++ line ++ "  ").intercalate items ++ line ++ closing

mutual

/-- A value inside `level` containers, over several lines. -/
def prettyAt (level : Nat) : Json → String
  | arr elems => block "[" "]" level (prettyElems (level + 1) elems)
  | obj members => block "\x7b" "\x7d" level (prettyMembers (level + 1) members)
  | j => compact j

/-- The elements of an array. -/
def prettyElems (level : Nat) : List Json → List String
  | [] => []
  | j :: rest => prettyAt level j :: prettyElems level rest

/-- The members of an object. -/
def prettyMembers (level : Nat) : List (String × Json) → List String
  | [] => []
  | (key, j) :: rest => (quoted key ++ ": " ++ prettyAt level j) :: prettyMembers level rest

end

/-- A value over several lines. -/
def pretty (j : Json) : String := prettyAt 0 j

end PointerAnalysis.Json
