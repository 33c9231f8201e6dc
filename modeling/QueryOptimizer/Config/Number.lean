/-! # Numbers in configuration files -/

namespace QueryOptimizer.Number

def digit? (c : Char) : Option Nat :=
  if c.isDigit then some (c.toNat - '0'.toNat)
  else if 'a' ≤ c ∧ c ≤ 'z' then some (c.toNat - 'a'.toNat + 10)
  else if 'A' ≤ c ∧ c ≤ 'Z' then some (c.toNat - 'A'.toNat + 10)
  else none

/-- The number of a digit string, which is not empty. -/
def ofDigits? (base : Nat) : List Char → Option Nat
  | [] => none
  | c :: cs =>
      (c :: cs).foldlM (fun value c => do
        let digit ← digit? c
        if digit < base then some (value * base + digit) else none) 0

/-- Whether a digit string starts with a zero that has no value. -/
def isPadded : List Char → Bool
  | '0' :: c :: cs => (c :: cs).all Char.isDigit
  | _ => false

/-- A natural number below `2 ^ 64`: decimal, or in base 16, 8 or 2 behind `0x`, `0o` or `0b`. -/
def natural? (text : String) : Option Nat := do
  let digits := match text.toList with
    | '+' :: rest => rest
    | cs => cs
  let value ← match digits with
    | '0' :: 'x' :: rest => ofDigits? 16 rest
    | '0' :: 'o' :: rest => ofDigits? 8 rest
    | '0' :: 'b' :: rest => ofDigits? 2 rest
    | cs => if isPadded cs then none else ofDigits? 10 cs
  if value < 18446744073709551616 then some value else none

/-- The exponent behind `e`, which may be signed. -/
def exponent? : List Char → Option Int
  | '-' :: digits => (ofDigits? 10 digits).map fun n => -(n : Int)
  | '+' :: digits => (ofDigits? 10 digits).map fun n => (n : Int)
  | digits => (ofDigits? 10 digits).map fun n => (n : Int)

/-- The number `mantissa * 10 ^ exponent`, of which nothing but the magnitude counts once it is
    out of all range. -/
def scaled (mantissa : Nat) (exponent : Int) : Float :=
  if mantissa = 0 then 0.0
  else if exponent > 400 then 1.0 / 0.0
  else if exponent < -2000 - mantissa.log2 then 0.0
  else Float.ofScientific mantissa (exponent < 0) exponent.natAbs

/-- A decimal number without a sign. -/
def unsigned? (cs : List Char) : Option Float := do
  let whole := cs.takeWhile Char.isDigit
  let rest := cs.dropWhile Char.isDigit
  let (fraction, rest) := match rest with
    | '.' :: rest => (rest.takeWhile Char.isDigit, rest.dropWhile Char.isDigit)
    | rest => ([], rest)
  let mantissa ← ofDigits? 10 (whole ++ fraction)
  let exponent ← match rest with
    | [] => some 0
    | 'e' :: rest | 'E' :: rest => exponent? rest
    | _ => none
  return scaled mantissa (exponent - fraction.length)

/-- A decimal number. Numbers that are too large are refused; infinities and the value that is
    no number have names. -/
def decimal? (text : String) : Option Float :=
  match text with
  | ".inf" | ".Inf" | ".INF" | "+.inf" | "+.Inf" | "+.INF" => some (1.0 / 0.0)
  | "-.inf" | "-.Inf" | "-.INF" => some (-1.0 / 0.0)
  | ".nan" | ".NaN" | ".NAN" => some (0.0 / 0.0)
  | _ => do
      let value ← match text.toList with
        | '+' :: rest => unsigned? rest
        | '-' :: rest => (unsigned? rest).map fun x => -x
        | cs => unsigned? cs
      if value.isFinite then some value else none

end QueryOptimizer.Number
