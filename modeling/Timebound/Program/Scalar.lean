/-!
# Scalar types

A scalar type is an integer width, a signedness and a rule for results that
leave the range of the type. The text of a type is what program listings show;
it names both one-bit types `bool`.
-/

namespace Timebound

/-- The integer widths of the target. -/
inductive Width where
  | w1
  | w8
  | w16
  | w32
  | w64
  deriving DecidableEq

namespace Width

/-- The number of bits of a width. -/
def bits : Width → Nat
  | w1 => 1
  | w8 => 8
  | w16 => 16
  | w32 => 32
  | w64 => 64

/-- The number of bit patterns of a width. -/
def patterns (width : Width) : Nat := 1 <<< width.bits

/-- The bit pattern with every bit set. -/
def mask (width : Width) : Nat := width.patterns - 1

/-- Every width has at least one bit. -/
theorem bits_pos (width : Width) : 0 < width.bits := by cases width <;> decide

/-- Every width has a bit pattern. -/
theorem patterns_pos (width : Width) : 0 < width.patterns := by cases width <;> decide

/-- No width exceeds 64 bits. -/
theorem bits_le (width : Width) : width.bits ≤ 64 := by cases width <;> decide

end Width

/-- What happens to an arithmetic result outside the range of its type. -/
inductive OverflowRule where
  /-- Keep the low bits. -/
  | wrapping
  /-- Take the nearest end of the range. -/
  | saturating
  deriving DecidableEq

/-- The declared type of a value. -/
structure ScalarType where
  /-- The number of bits stored. -/
  width : Width
  /-- Whether the top bit carries a negative weight. -/
  signed : Bool
  /-- What happens to results outside the range. -/
  overflow : OverflowRule
  deriving DecidableEq

namespace ScalarType

/-- The type of truth values: one unsigned wrapping bit. -/
def bool : ScalarType := ⟨.w1, false, .wrapping⟩

/-- The type of loop counters: 64 unsigned wrapping bits. -/
def u64 : ScalarType := ⟨.w64, false, .wrapping⟩

/-- The signed wrapping type of a width. -/
def int (width : Width) : ScalarType := ⟨width, true, .wrapping⟩

/-- The unsigned wrapping type of a width. -/
def nat (width : Width) : ScalarType := ⟨width, false, .wrapping⟩

/-- The smallest value of a type. -/
def minValue (type : ScalarType) : Int :=
  if type.signed then -(type.width.patterns / 2 : Nat) else 0

/-- The largest value of a type. -/
def maxValue (type : ScalarType) : Int :=
  if type.signed then (type.width.patterns / 2 : Nat) - 1 else (type.width.patterns : Int) - 1

/-- The text of a type: `bool`, or sign letter and width, then `sat` if it saturates. -/
def text (type : ScalarType) : String :=
  let base := match type.width with
    | .w1 => "bool"
    | width => (if type.signed then "i" else "u") ++ toString width.bits
  match type.overflow with
  | .wrapping => base
  | .saturating => base ++ "sat"

end ScalarType

end Timebound
