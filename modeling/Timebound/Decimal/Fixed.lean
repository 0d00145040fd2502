/-!
# Fixed-point text of floating-point numbers

A finite double is an integer times a power of two. Its text with a fixed number
of decimal places is the nearest decimal of that length, a tie going to the even
neighbour, computed in exact arithmetic from the bits. The sign is shown whenever
the sign bit is set, so a small negative number may show as a negative zero.
-/

namespace Timebound.Decimal

/-- The quotient of two natural numbers rounded to the nearest integer, ties to even. -/
def roundDiv (numerator denominator : Nat) : Nat :=
  let quotient := numerator / denominator
  let excess := 2 * (numerator % denominator)
  if denominator < excess ∨ (excess = denominator ∧ quotient % 2 = 1) then quotient + 1
  else quotient

/-- The rounded quotient is within half a unit of the exact one. -/
theorem roundDiv_near (numerator : Nat) {denominator : Nat} (positive : 0 < denominator) :
    2 * numerator ≤ 2 * (roundDiv numerator denominator * denominator) + denominator ∧
      2 * (roundDiv numerator denominator * denominator) ≤ 2 * numerator + denominator := by
  have split := Nat.div_add_mod numerator denominator
  have small := Nat.mod_lt numerator positive
  rw [Nat.mul_comm] at split
  unfold roundDiv
  dsimp only
  split
  · rename_i up
    rw [Nat.add_mul, Nat.one_mul]
    omega
  · rename_i down
    omega

/-- The parts of a finite double: sign bit, integer and power of two. -/
structure Dyadic where
  /-- Whether the sign bit is set. -/
  negative : Bool
  /-- The integer. -/
  mantissa : Nat
  /-- The power of two that the integer is multiplied by. -/
  exponent : Int

/-- The values a bit pattern can stand for. -/
inductive Decoded where
  | finite (value : Dyadic)
  | infinite (negative : Bool)
  | notANumber

/-- Read the 64 bits of a double. -/
def decode (bits : Nat) : Decoded :=
  let negative := (bits >>> 63) % 2 == 1
  let biased : Nat := (bits >>> 52) % 2048
  let fraction := bits % (1 <<< 52)
  if biased = 2047 then
    if fraction = 0 then .infinite negative else .notANumber
  else if biased = 0 then .finite ⟨negative, fraction, -1074⟩
  else .finite ⟨negative, fraction + (1 <<< 52), (biased : Int) - 1075⟩

/-- The magnitude of a dyadic number in units of a power of ten, rounded. -/
def Dyadic.units (value : Dyadic) (places : Nat) : Nat :=
  let scaled := value.mantissa * Nat.pow 10 places
  if value.exponent < 0 then roundDiv scaled (1 <<< (-value.exponent).toNat)
  else scaled <<< value.exponent.toNat

/-- Decimal digits of a number, padded with zeros in front to a least length. -/
def padded (length n : Nat) : String :=
  let digits := toString n
  String.ofList (List.replicate (length - digits.length) '0') ++ digits

/-- The text of a double with a number of decimal places. -/
def fixed (places : Nat) (x : Float) : String :=
  let sign (negative : Bool) := if negative then "-" else ""
  match decode x.toBits.toNat with
  | .notANumber => "NaN"
  | .infinite negative => sign negative ++ "inf"
  | .finite value =>
    let units := value.units places
    let whole := Nat.pow 10 places
    sign value.negative ++ toString (units / whole) ++ "." ++ padded places (units % whole)

end Timebound.Decimal
