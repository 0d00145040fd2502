import Timebound.Program.Scalar

/-!
# Literals and operators

A literal is a scalar type with a bit pattern of its width, so two literals are
equal exactly when the target holds the same bits at the same type. The
operators compute on literals in exact integer arithmetic and then bring the
result back to the type: by truncation for wrapping types, by clamping for
saturating ones. Division and remainder by zero have no value.
-/

namespace Timebound

/-- A typed constant, stored as the bit pattern of its value. -/
structure Literal where
  /-- The declared type. -/
  type : ScalarType
  /-- The bit pattern, read as a natural number. -/
  bits : Nat
  /-- The pattern fits the width of the type. -/
  bits_lt : bits < type.width.patterns
  deriving DecidableEq

namespace Literal

/-- The literal of a type whose bits are the low bits of an integer. -/
def ofInt (type : ScalarType) (value : Int) : Literal where
  type := type
  bits := (value % type.width.patterns).toNat
  bits_lt := by
    have positive : (0 : Int) < type.width.patterns := by
      exact_mod_cast type.width.patterns_pos
    have low := Int.emod_nonneg value (Int.ne_of_gt positive)
    have high := Int.emod_lt_of_pos value positive
    omega

/-- The literal of a truth value. -/
def ofBool (value : Bool) : Literal := ofInt .bool (if value then 1 else 0)

/-- The number a literal stands for; the top bit of a signed pattern counts negatively. -/
def value (literal : Literal) : Int :=
  if literal.type.signed then (literal.bits : Int).bmod literal.type.width.patterns
  else literal.bits

/-- Whether every bit is clear. -/
def isZero (literal : Literal) : Bool := literal.bits == 0

/-- Bring an exact result back to a type by the type's overflow rule. -/
def fit (type : ScalarType) (exact : Int) : Literal :=
  match type.overflow with
  | .wrapping => ofInt type exact
  | .saturating => ofInt type (min type.maxValue (max type.minValue exact))

/-- The text of a literal: a truth value for the type of truth values, else the
number followed by the type. -/
def text (literal : Literal) : String :=
  if literal.type = .bool then (if literal.isZero then "false" else "true")
  else toString literal.value ++ literal.type.text

/-- The constructed literal has the requested type. -/
@[simp] theorem type_ofInt (type : ScalarType) (value : Int) : (ofInt type value).type = type := rfl

/-- The bits of a constructed literal are the integer modulo the number of patterns. -/
theorem bits_ofInt (type : ScalarType) (value : Int) :
    ((ofInt type value).bits : Int) = value % type.width.patterns := by
  have positive : (0 : Int) < type.width.patterns := by
    exact_mod_cast type.width.patterns_pos
  exact Int.toNat_of_nonneg (Int.emod_nonneg value (Int.ne_of_gt positive))

/-- The value of a literal agrees with its bits modulo the number of patterns. -/
theorem value_emod (literal : Literal) :
    literal.value % literal.type.width.patterns = literal.bits := by
  have inside : (literal.bits : Int) % literal.type.width.patterns = literal.bits :=
    Int.emod_eq_of_lt (by omega) (by exact_mod_cast literal.bits_lt)
  unfold value
  split
  · rw [Int.bmod_emod, inside]
  · exact inside

/-- A literal is the one constructed from its type and its value. -/
theorem ofInt_value (literal : Literal) : ofInt literal.type literal.value = literal := by
  obtain ⟨type, bits, small⟩ := literal
  have same := (bits_ofInt type (value ⟨type, bits, small⟩)).trans (value_emod ⟨type, bits, small⟩)
  have equal : (ofInt type (value ⟨type, bits, small⟩)).bits = bits := by exact_mod_cast same
  simp only [ofInt] at equal ⊢
  simp [equal]

/-- A fitted result has the requested type. -/
@[simp] theorem type_fit (type : ScalarType) (exact : Int) : (fit type exact).type = type := by
  unfold fit
  split <;> rfl

end Literal

/-- The operators on one operand. -/
inductive UnaryOp where
  /-- Arithmetic negation. -/
  | neg
  /-- Complement of every bit. -/
  | bitNot
  /-- Logical negation, which gives a truth value. -/
  | not
  deriving DecidableEq

namespace UnaryOp

/-- The sign written before the operand. -/
def symbol : UnaryOp → String
  | neg => "-"
  | bitNot => "~"
  | not => "!"

/-- The value of an operator of a declared type; logical negation ignores the type. -/
def eval (op : UnaryOp) (type : ScalarType) (operand : Literal) : Literal :=
  match op with
  | neg => .fit type (-operand.value)
  | bitNot => .ofInt type (Width.w64.mask - operand.bits)
  | not => .ofBool operand.isZero

end UnaryOp

/-- The operators on two operands. -/
inductive BinaryOp where
  | add
  | sub
  | mul
  | div
  | rem
  | and
  | or
  | xor
  | shl
  | shr
  | eq
  | ne
  | lt
  | le
  | gt
  | ge
  deriving DecidableEq

namespace BinaryOp

/-- The sign written between the operands. -/
def symbol : BinaryOp → String
  | add => "+"
  | sub => "-"
  | mul => "*"
  | div => "/"
  | rem => "%"
  | and => "&"
  | or => "|"
  | xor => "^"
  | shl => "<<"
  | shr => ">>"
  | eq => "=="
  | ne => "!="
  | lt => "<"
  | le => "<="
  | gt => ">"
  | ge => ">="

/-- Whether the operator compares its operands and gives a truth value. -/
def isComparison : BinaryOp → Bool
  | eq | ne | lt | le | gt | ge => true
  | _ => false

/-- Whether the right operand is a shift amount, which may have any type. -/
def isShift : BinaryOp → Bool
  | shl | shr => true
  | _ => false

/-- The value of an operator of a declared type. Quotients go toward zero, shift
amounts count modulo the width, and a right shift of a signed value keeps its
sign. There is no value for a division or remainder by zero. -/
def eval (op : BinaryOp) (type : ScalarType) (left right : Literal) : Option Literal :=
  let a := left.value
  let b := right.value
  let amount := right.bits % type.width.bits
  match op with
  | add => some (.fit type (a + b))
  | sub => some (.fit type (a - b))
  | mul => some (.fit type (a * b))
  | div => if right.isZero then none else some (.fit type (a.tdiv b))
  | rem => if right.isZero then none else some (.fit type (a.tmod b))
  | and => some (.ofInt type (left.bits &&& right.bits : Nat))
  | or => some (.ofInt type (left.bits ||| right.bits : Nat))
  | xor => some (.ofInt type (left.bits ^^^ right.bits : Nat))
  | shl => some (.ofInt type (left.bits <<< amount : Nat))
  | shr => some (.ofInt type (a >>> amount))
  | eq => some (.ofBool (a == b))
  | ne => some (.ofBool (a != b))
  | lt => some (.ofBool (a < b))
  | le => some (.ofBool (a ≤ b))
  | gt => some (.ofBool (a > b))
  | ge => some (.ofBool (a ≥ b))

end BinaryOp

end Timebound
