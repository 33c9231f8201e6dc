/-! # Shortest decimals

A binary floating point number is shown with the fewest significant digits that still read back
as the same number. The digits are found exactly: every number between the midpoints to its two
neighbours reads back as it, and the first decimal grid with a point in that interval gives the
digits. Numbers are always written positionally, never with an exponent.
-/

namespace QueryOptimizer.Decimal

/-- A binary format: how many bits the stored fraction and the exponent take. -/
structure Format where
  fractionBits : Nat
  exponentBits : Nat

/-- Single precision. -/
def single : Format := ⟨23, 8⟩

/-- Double precision. -/
def double : Format := ⟨52, 11⟩

namespace Format

/-- Exponent of the lowest bit of the fraction of a number with the stored exponent `e`. -/
def exponentOf (f : Format) (e : Nat) : Int :=
  (max e 1 : Nat) - (Nat.pow 2 (f.exponentBits - 1) - 1 : Nat) - (f.fractionBits : Int)

end Format

/-- A positive number with the two ends of the interval that reads back as it, all over one
    denominator. -/
structure Interval where
  low : Nat
  value : Nat
  high : Nat
  denominator : Nat
  /-- Whether the ends themselves read back as the number. -/
  closed : Bool

/-- The interval of `significand * 2 ^ exponent`. Below a power of two the neighbour is closer. -/
def Interval.of (significand : Nat) (exponent : Int) (atPower : Bool) : Interval :=
  let scale := Nat.pow 2 (exponent - 2).toNat
  { low := (4 * significand - (if atPower then 1 else 2)) * scale
    value := 4 * significand * scale
    high := (4 * significand + 2) * scale
    denominator := Nat.pow 2 (2 - exponent).toNat
    closed := significand % 2 = 0 }

/-- Number of decimal digits. -/
def digitCount (n : Nat) : Nat := (Nat.toDigits 10 n).length

/-- The exponent of the leading decimal digit. -/
def Interval.magnitude (i : Interval) : Int :=
  if i.denominator ≤ i.value then (digitCount (i.value / i.denominator) : Int) - 1
  else
    let inverse := (i.denominator + i.value - 1) / i.value
    if inverse ≤ 1 then 0 else Int.negOfNat (digitCount (inverse - 1))

/-- A decimal number: an integer and a power of ten. -/
structure Digits where
  coefficient : Nat
  exponent : Int

/-- Whether a point of the decimal grid reads back as the number of the interval. -/
def Interval.contains (i : Interval) (d : Digits) : Bool :=
  let point := d.coefficient * Nat.pow 10 d.exponent.toNat * i.denominator
  let unit := Nat.pow 10 (-d.exponent).toNat
  if i.closed then i.low * unit ≤ point && point ≤ i.high * unit
  else i.low * unit < point && point < i.high * unit

/-- The point of the grid `10 ^ exponent` that reads back as the number, the nearer one if two
    do, and the upper one on a tie. -/
def Interval.onGrid? (i : Interval) (exponent : Int) : Option Digits :=
  let numerator := i.value * Nat.pow 10 (-exponent).toNat
  let divisor := i.denominator * Nat.pow 10 exponent.toNat
  let below : Digits := ⟨numerator / divisor, exponent⟩
  let above : Digits := ⟨numerator / divisor + 1, exponent⟩
  let rest := numerator % divisor
  match i.contains below, i.contains above with
  | true, true => if 2 * rest < divisor then some below else some above
  | true, false => some below
  | false, true => some above
  | false, false => none

/-- Seventeen digits tell apart any two numbers of either format. -/
def mostDigits : Nat := 17

/-- The shortest digits that read back as the number. -/
def Interval.shortest (i : Interval) : Digits :=
  let top := i.magnitude
  let grids := (List.range mostDigits).map fun (places : Nat) => top - (places : Int)
  (grids.findSome? i.onGrid?).getD ⟨i.value / i.denominator, 0⟩

/-- Digits without the zeros at their end. -/
def Digits.trimmed (d : Digits) : Digits :=
  go (digitCount d.coefficient) d
where
  go : Nat → Digits → Digits
    | 0, d => d
    | steps + 1, d =>
      if d.coefficient ≠ 0 ∧ d.coefficient % 10 = 0 then go steps ⟨d.coefficient / 10, d.exponent + 1⟩
      else d

/-- Digits written positionally. -/
def Digits.positional (d : Digits) : String :=
  let digits := Nat.toDigits 10 d.coefficient
  if 0 ≤ d.exponent then String.ofList (digits ++ List.replicate d.exponent.toNat '0')
  else
    let places := (-d.exponent).toNat
    let padded := List.replicate (places + 1 - digits.length) '0' ++ digits
    String.ofList (padded.take (padded.length - places) ++ '.' :: padded.drop (padded.length - places))

/-- The number with the given bits as text. -/
def Format.text (f : Format) (bits : Nat) : String :=
  let fraction := bits % Nat.pow 2 f.fractionBits
  let stored := bits / Nat.pow 2 f.fractionBits % Nat.pow 2 f.exponentBits
  let sign := if bits / Nat.pow 2 (f.fractionBits + f.exponentBits) % 2 = 1 then "-" else ""
  if stored = Nat.pow 2 f.exponentBits - 1 then
    if fraction = 0 then sign ++ "inf" else "NaN"
  else if stored = 0 ∧ fraction = 0 then sign ++ "0"
  else
    let significand := if stored = 0 then fraction else Nat.pow 2 f.fractionBits + fraction
    let interval := Interval.of significand (f.exponentOf stored) (1 < stored && fraction = 0)
    sign ++ interval.shortest.trimmed.positional

end QueryOptimizer.Decimal
