import Timebound.Program.Literal

/-!
# Literal arithmetic is machine arithmetic

Operators on literals are defined by exact integers that are brought back to the
type afterwards. Here the same operators are read off a machine whose words have
exactly the width of the type: two's-complement sums and products, division and
right shifts in a form with and one without a sign, comparisons of words. A literal
of the type is its word, its value is the number that the word stands for, and on
such operands both readings agree for every operator, width, sign and overflow rule.
-/

namespace Timebound

/-! ## Ranges -/

/-- Half of the patterns have the top bit set. -/
theorem Width.patterns_even (width : Width) : 2 * (width.patterns / 2) = width.patterns := by
  cases width <;> rfl

namespace ScalarType

/-- Whether a number is a value of a type. -/
def Holds (type : ScalarType) (number : Int) : Prop :=
  type.minValue ≤ number ∧ number ≤ type.maxValue

/-- The value of a type that is nearest to a number. -/
def nearest (type : ScalarType) (number : Int) : Int :=
  if number < type.minValue then type.minValue
  else if type.maxValue < number then type.maxValue
  else number

/-- A type has as many values as there are patterns, zero among them. -/
theorem range_eq (type : ScalarType) :
    type.minValue ≤ 0 ∧ 0 ≤ type.maxValue ∧
      type.maxValue = type.minValue + type.width.patterns - 1 := by
  have even := type.width.patterns_even
  have positive := type.width.patterns_pos
  unfold minValue maxValue
  split <;> omega

/-- The nearest value is a value of the type. -/
theorem holds_nearest (type : ScalarType) (number : Int) : type.Holds (type.nearest number) := by
  have range := type.range_eq
  unfold Holds nearest
  split
  · omega
  · split <;> omega

/-- Values of a type with the same low bits are equal. -/
theorem Holds.eq_of_emod_eq {type : ScalarType} {one other : Int} (oneHeld : type.Holds one)
    (otherHeld : type.Holds other)
    (same : one % type.width.patterns = other % type.width.patterns) : one = other := by
  have range := type.range_eq
  obtain ⟨oneLow, oneHigh⟩ := oneHeld
  obtain ⟨otherLow, otherHigh⟩ := otherHeld
  have shifted := (Int.emod_sub_cancel_right type.minValue).mpr same
  rw [Int.emod_eq_of_lt (by omega) (by omega), Int.emod_eq_of_lt (by omega) (by omega)] at shifted
  omega

end ScalarType

namespace Literal

/-- The value of a literal is one of its type. -/
theorem holds_value (literal : Literal) : literal.type.Holds literal.value := by
  have even := literal.type.width.patterns_even
  have positive := literal.type.width.patterns_pos
  have small := literal.bits_lt
  unfold ScalarType.Holds ScalarType.minValue ScalarType.maxValue value
  split
  · have low := @Int.le_bmod literal.bits literal.type.width.patterns positive
    have high := @Int.bmod_lt literal.bits literal.type.width.patterns positive
    omega
  · omega

/-- The value of the literal made from a number is the only value of the type with the
low bits of the number. -/
theorem eq_value_ofInt_iff {type : ScalarType} {exact value : Int} :
    value = (ofInt type exact).value ↔
      type.Holds value ∧ value % type.width.patterns = exact % type.width.patterns := by
  have held : type.Holds (ofInt type exact).value := (ofInt type exact).holds_value
  have low := (ofInt type exact).value_emod
  rw [type_ofInt, bits_ofInt] at low
  constructor
  · rintro rfl
    exact ⟨held, low⟩
  · rintro ⟨inside, same⟩
    exact inside.eq_of_emod_eq held (same.trans low.symm)

/-- The literal made from a value of the type has this value. -/
theorem value_ofInt_of_holds {type : ScalarType} {number : Int} (held : type.Holds number) :
    (ofInt type number).value = number :=
  (eq_value_ofInt_iff.mpr ⟨held, rfl⟩).symm

/-- A literal is zero when its value is. -/
theorem isZero_iff (literal : Literal) : literal.isZero = true ↔ literal.value = 0 := by
  have range := literal.type.range_eq
  have low := literal.value_emod
  unfold isZero
  rw [beq_iff_eq]
  constructor
  · intro clear
    refine literal.holds_value.eq_of_emod_eq ⟨range.1, range.2.1⟩ ?_
    rw [low, clear]
    rfl
  · intro zero
    rw [zero, Int.zero_emod] at low
    omega

/-- Saturation takes the nearest value. -/
theorem fit_saturating {type : ScalarType} (saturates : type.overflow = .saturating)
    (exact : Int) : fit type exact = ofInt type (type.nearest exact) := by
  have range := type.range_eq
  have clamped : min type.maxValue (max type.minValue exact) = type.nearest exact := by
    unfold ScalarType.nearest
    split
    · omega
    · split <;> omega
  unfold fit
  rw [saturates, clamped]

/-- Wrapping keeps the low bits. -/
theorem fit_wrapping {type : ScalarType} (wraps : type.overflow = .wrapping) (exact : Int) :
    fit type exact = ofInt type exact := by
  unfold fit
  rw [wraps]

/-! ## Words -/

/-- The low bits of a literal as a word of some width. -/
def word (width : Width) (literal : Literal) : BitVec width.bits := .ofNat _ literal.bits

/-- The literal of a type that has the bits of a word. -/
def ofWord (type : ScalarType) (word : BitVec type.width.bits) : Literal where
  type := type
  bits := word.toNat
  bits_lt := by
    rw [Width.patterns, Nat.one_shiftLeft]
    exact word.isLt

/-- The literal made from a number has the low bits of the number. -/
theorem ofInt_eq_ofWord (type : ScalarType) (exact : Int) :
    ofInt type exact = ofWord type (.ofInt _ exact) := by
  have bits : (exact % type.width.patterns).toNat =
      (BitVec.ofInt type.width.bits exact).toNat := by
    rw [BitVec.toNat_ofInt, Width.patterns, Nat.one_shiftLeft]
  unfold ofInt ofWord
  simp only [bits]

section

variable {type : ScalarType} {literal : Literal}

/-- The word of a literal, as a number, is its bits. -/
theorem toNat_word (typed : literal.type = type) :
    (literal.word type.width).toNat = literal.bits := by
  have small := literal.bits_lt
  rw [typed, Width.patterns, Nat.one_shiftLeft] at small
  unfold word
  rw [BitVec.toNat_ofNat, Nat.mod_eq_of_lt small]

/-- The value of a literal of a signed type is that of its word with a sign. -/
theorem value_signed (typed : literal.type = type) (signed : type.signed = true) :
    literal.value = (literal.word type.width).toInt := by
  rw [BitVec.toInt_eq_toNat_bmod, toNat_word typed, ← Nat.one_shiftLeft, ← Width.patterns]
  unfold value
  rw [typed, signed, if_pos rfl]

/-- The value of a literal of an unsigned type is that of its word without a sign. -/
theorem value_unsigned (typed : literal.type = type) (unsigned : type.signed = false) :
    literal.value = (literal.word type.width).toNat := by
  rw [toNat_word typed]
  unfold value
  rw [typed, unsigned, if_neg Bool.false_ne_true]

/-- The word of the value of a literal is its word. -/
theorem ofInt_value_eq_word (typed : literal.type = type) :
    BitVec.ofInt type.width.bits literal.value = literal.word type.width := by
  cases signed : type.signed with
  | true => rw [value_signed typed signed, BitVec.ofInt_toInt]
  | false => rw [value_unsigned typed signed, BitVec.ofInt_natCast, BitVec.ofNat_toNat,
      BitVec.setWidth_eq]

end

end Literal

/-! ## Operators on words -/

namespace BinaryOp

/-- The exact result of an arithmetic operator. -/
def unbounded? (op : BinaryOp) (left right : Int) : Option Int :=
  match op with
  | add => some (left + right)
  | sub => some (left - right)
  | mul => some (left * right)
  | div => some (left.tdiv right)
  | rem => some (left.tmod right)
  | _ => none

/-- What a machine makes of two words. Division and right shifts come in two forms, for
words with and without a sign. -/
def onWords? {bits : Nat} (op : BinaryOp) (signed : Bool) (left right : BitVec bits)
    (amount : Nat) : Option (BitVec bits) :=
  match op with
  | add => some (left + right)
  | sub => some (left - right)
  | mul => some (left * right)
  | div => some (if signed then left.sdiv right else left.udiv right)
  | rem => some (if signed then left.srem right else left.umod right)
  | and => some (left &&& right)
  | or => some (left ||| right)
  | xor => some (left ^^^ right)
  | shl => some (left <<< amount)
  | shr => some (if signed then left.sshiftRight amount else left >>> amount)
  | eq | ne | lt | le | gt | ge => none

/-- Whether a comparison of two words holds. -/
def compares {bits : Nat} (op : BinaryOp) (signed : Bool) (left right : BitVec bits) : Bool :=
  let less (one other : BitVec bits) := if signed then one.slt other else one.ult other
  match op with
  | eq => left == right
  | ne => left != right
  | lt => less left right
  | le => !less right left
  | gt => less right left
  | ge => !less left right
  | _ => false

/-- The value of an operator on a machine with words of the width of the type: nothing for
a division by zero, the nearest value of the exact result where the type saturates, else
what the machine makes of the words; comparisons give truth values. -/
def machineEval (op : BinaryOp) (type : ScalarType) (left right : Literal) : Option Literal :=
  let first := left.word type.width
  let second := right.word type.width
  if (op = div ∨ op = rem) ∧ right.value = 0 then none
  else if op.isComparison then some (.ofBool (op.compares type.signed first second))
  else match type.overflow, op.unbounded? left.value right.value with
    | .saturating, some exact => some (.ofInt type (type.nearest exact))
    | _, _ => (op.onWords? type.signed first second (right.bits % type.width.bits)).map
        (.ofWord type)

/-- Only a division or a remainder by zero has no value. -/
theorem eval_eq_none_iff {op : BinaryOp} {type : ScalarType} {left right : Literal} :
    op.eval type left right = none ↔ (op = div ∨ op = rem) ∧ right.value = 0 := by
  have zero := right.isZero_iff
  cases op <;> simp [eval, zero]

/-- An arithmetic operator brings its exact result back to the type. -/
theorem eval_exact {op : BinaryOp} {left right : Literal} {exact : Int}
    (arithmetic : op.unbounded? left.value right.value = some exact)
    (defined : ¬((op = div ∨ op = rem) ∧ right.value = 0)) (type : ScalarType) :
    op.eval type left right = some (.fit type exact) := by
  have zero := right.isZero_iff
  cases op <;> simp_all [unbounded?, eval]

section Words

variable {type : ScalarType} {left right : Literal}

/-- The word of an exact quotient is the quotient of the words. -/
theorem ofInt_tdiv (leftTyped : left.type = type) (rightTyped : right.type = type) :
    BitVec.ofInt type.width.bits (left.value.tdiv right.value) =
      if type.signed then (left.word type.width).sdiv (right.word type.width)
      else (left.word type.width).udiv (right.word type.width) := by
  cases signed : type.signed with
  | true =>
    rw [if_pos rfl, Literal.value_signed leftTyped signed, Literal.value_signed rightTyped signed]
    apply BitVec.eq_of_toInt_eq
    rw [BitVec.toInt_ofInt, BitVec.toInt_sdiv]
  | false =>
    rw [if_neg Bool.false_ne_true, Literal.value_unsigned leftTyped signed,
      Literal.value_unsigned rightTyped signed, ← Int.ofNat_tdiv, BitVec.ofInt_natCast]
    apply BitVec.eq_of_toNat_eq
    rw [BitVec.udiv_eq, BitVec.toNat_udiv, BitVec.toNat_ofNat, Nat.mod_eq_of_lt]
    exact Nat.lt_of_le_of_lt (Nat.div_le_self _ _) (left.word type.width).isLt

/-- The word of an exact remainder is the remainder of the words. -/
theorem ofInt_tmod (leftTyped : left.type = type) (rightTyped : right.type = type) :
    BitVec.ofInt type.width.bits (left.value.tmod right.value) =
      if type.signed then (left.word type.width).srem (right.word type.width)
      else (left.word type.width).umod (right.word type.width) := by
  cases signed : type.signed with
  | true =>
    rw [if_pos rfl, Literal.value_signed leftTyped signed, Literal.value_signed rightTyped signed,
      ← BitVec.toInt_srem, BitVec.ofInt_toInt]
  | false =>
    rw [if_neg Bool.false_ne_true, Literal.value_unsigned leftTyped signed,
      Literal.value_unsigned rightTyped signed, ← Int.ofNat_tmod, BitVec.ofInt_natCast]
    apply BitVec.eq_of_toNat_eq
    rw [BitVec.umod_eq, BitVec.toNat_umod, BitVec.toNat_ofNat, Nat.mod_eq_of_lt]
    exact Nat.lt_of_le_of_lt (Nat.mod_le _ _) (left.word type.width).isLt

/-- The word of a value shifted right is the word shifted right, with its sign kept. -/
theorem ofInt_shiftRight (leftTyped : left.type = type) (amount : Nat) :
    BitVec.ofInt type.width.bits (left.value >>> amount) =
      if type.signed then (left.word type.width).sshiftRight amount
      else left.word type.width >>> amount := by
  cases signed : type.signed with
  | true =>
    rw [if_pos rfl, Literal.value_signed leftTyped signed, ← BitVec.toInt_sshiftRight,
      BitVec.ofInt_toInt]
  | false =>
    rw [if_neg Bool.false_ne_true, Literal.value_unsigned leftTyped signed]
    have shifted : ((left.word type.width).toNat : Int) >>> amount =
        ((left.word type.width).toNat >>> amount : Nat) := rfl
    rw [shifted, BitVec.ofInt_natCast, ← BitVec.toNat_ushiftRight, BitVec.ofNat_toNat,
      BitVec.setWidth_eq]

/-- The word of bits shifted left is the word shifted left. -/
theorem ofNat_shiftLeft (size bits amount : Nat) :
    BitVec.ofNat size (bits <<< amount) = BitVec.ofNat size bits <<< amount := by
  apply BitVec.eq_of_toNat_eq
  rw [BitVec.toNat_shiftLeft, BitVec.toNat_ofNat, BitVec.toNat_ofNat, Nat.shiftLeft_eq,
    Nat.shiftLeft_eq, Nat.mod_mul_mod]

/-- What the machine makes of the words of two operands has the low bits of the exact
result. -/
theorem onWords?_exact {op : BinaryOp} {exact : Int} (amount : Nat)
    (leftTyped : left.type = type) (rightTyped : right.type = type)
    (arithmetic : op.unbounded? left.value right.value = some exact) :
    op.onWords? type.signed (left.word type.width) (right.word type.width) amount =
      some (.ofInt _ exact) := by
  have first := Literal.ofInt_value_eq_word leftTyped
  have second := Literal.ofInt_value_eq_word rightTyped
  cases op <;> simp only [unbounded?, Option.some.injEq, reduceCtorEq] at arithmetic <;>
    subst arithmetic
  case add => rw [BitVec.ofInt_add, first, second]; rfl
  case sub => rw [Int.sub_eq_add_neg, BitVec.ofInt_add, BitVec.ofInt_neg, first, second,
    ← BitVec.sub_eq_add_neg]; rfl
  case mul => rw [BitVec.ofInt_mul, first, second]; rfl
  case div => rw [ofInt_tdiv leftTyped rightTyped]; rfl
  case rem => rw [ofInt_tmod leftTyped rightTyped]; rfl

/-- Operators on bits act on the words. -/
theorem eval_bits {op : BinaryOp} (numeric : op.isComparison = false)
    (bitwise : op.unbounded? left.value right.value = none) (leftTyped : left.type = type) :
    op.eval type left right =
      (op.onWords? type.signed (left.word type.width) (right.word type.width)
        (right.bits % type.width.bits)).map (.ofWord type) := by
  cases op <;> simp only [unbounded?, isComparison, reduceCtorEq] at numeric bitwise <;>
    simp only [eval, onWords?, Option.map_some, Literal.ofInt_eq_ofWord, BitVec.ofInt_natCast,
      BitVec.ofNat_and, BitVec.ofNat_or, BitVec.ofNat_xor] <;> try rfl
  case shl => rw [ofNat_shiftLeft, Literal.word]
  case shr => rw [ofInt_shiftRight leftTyped]

/-- One word is below another, read with or without a sign as the type says, when its value
is smaller. -/
theorem less_eq (leftTyped : left.type = type) (rightTyped : right.type = type) :
    (if type.signed then (left.word type.width).slt (right.word type.width)
      else (left.word type.width).ult (right.word type.width)) =
      decide (left.value < right.value) := by
  cases signed : type.signed with
  | true =>
    rw [if_pos rfl, Literal.value_signed leftTyped signed, Literal.value_signed rightTyped signed,
      BitVec.slt_eq_decide]
  | false =>
    rw [if_neg Bool.false_ne_true, Literal.value_unsigned leftTyped signed,
      Literal.value_unsigned rightTyped signed, BitVec.ult_eq_decide]
    simp only [Int.ofNat_lt]

/-- Words of a type are equal when their values are. -/
theorem word_beq (leftTyped : left.type = type) (rightTyped : right.type = type) :
    (left.word type.width == right.word type.width) = (left.value == right.value) := by
  rw [Bool.eq_iff_iff, beq_iff_eq, beq_iff_eq]
  constructor
  · intro same
    cases signed : type.signed with
    | true =>
      rw [Literal.value_signed leftTyped signed, Literal.value_signed rightTyped signed, same]
    | false =>
      rw [Literal.value_unsigned leftTyped signed, Literal.value_unsigned rightTyped signed, same]
  · intro same
    rw [← Literal.ofInt_value_eq_word leftTyped, ← Literal.ofInt_value_eq_word rightTyped, same]

/-- A comparison compares the words. -/
theorem eval_comparison {op : BinaryOp} (comparison : op.isComparison = true)
    (leftTyped : left.type = type) (rightTyped : right.type = type) :
    op.eval type left right = some (.ofBool
      (op.compares type.signed (left.word type.width) (right.word type.width))) := by
  have below := less_eq leftTyped rightTyped
  have above := less_eq rightTyped leftTyped
  have same := word_beq leftTyped rightTyped
  cases op <;> simp only [isComparison, Bool.false_eq_true] at comparison <;>
    simp [eval, compares, bne, below, above, same, ← decide_not]

/-- Evaluation is what the machine does with words of the type. -/
theorem eval_eq_machineEval (op : BinaryOp) (leftTyped : left.type = type)
    (rightTyped : op.isShift = true ∨ right.type = type) :
    op.eval type left right = op.machineEval type left right := by
  unfold machineEval
  by_cases undefined : (op = div ∨ op = rem) ∧ right.value = 0
  · rw [if_pos undefined, eval_eq_none_iff.mpr undefined]
  rw [if_neg undefined]
  have other (unshifted : op.isShift = false) : right.type = type := by
    simpa [unshifted] using rightTyped
  cases comparison : op.isComparison with
  | true =>
    have unshifted : op.isShift = false := by cases op <;> simp_all [isComparison, isShift]
    exact eval_comparison comparison leftTyped (other unshifted)
  | false =>
    cases arithmetic : op.unbounded? left.value right.value with
    | none =>
      cases type.overflow <;> exact eval_bits comparison arithmetic leftTyped
    | some exact =>
      have unshifted : op.isShift = false := by cases op <;> simp_all [unbounded?, isShift]
      rw [eval_exact arithmetic undefined]
      cases overflow : type.overflow with
      | wrapping =>
        rw [Literal.fit_wrapping overflow, Literal.ofInt_eq_ofWord,
          onWords?_exact _ leftTyped (other unshifted) arithmetic]
        rfl
      | saturating => rw [Literal.fit_saturating overflow]; rfl

end Words

end BinaryOp

namespace UnaryOp

/-- The value of an operator on a machine with words of the width of the type. -/
def machineEval (op : UnaryOp) (type : ScalarType) (operand : Literal) : Literal :=
  let word := operand.word type.width
  match op, type.overflow with
  | neg, .wrapping => .ofWord type (-word)
  | neg, .saturating => .ofInt type (type.nearest (-operand.value))
  | bitNot, _ => .ofWord type (~~~word)
  | not, _ => .ofBool (word == 0)

variable {type : ScalarType} {operand : Literal}

/-- The low bits of a complement of 64 bits are the complement of the word. -/
theorem ofInt_complement (typed : operand.type = type) :
    BitVec.ofInt type.width.bits (Width.w64.mask - operand.bits) =
      ~~~operand.word type.width := by
  have small := operand.bits_lt
  apply BitVec.eq_of_toNat_eq
  rw [BitVec.toNat_not, Literal.toNat_word typed, BitVec.toNat_ofInt]
  rw [typed] at small
  generalize type.width = width at small ⊢
  cases width <;> simp [Width.patterns, Width.bits, Width.mask] at small ⊢ <;> omega

/-- Evaluation is what the machine does with words of the type. -/
theorem eval_eq_machineEval (op : UnaryOp) (typed : operand.type = type) :
    op.eval type operand = op.machineEval type operand := by
  have word := Literal.ofInt_value_eq_word typed
  cases op with
  | neg =>
    unfold eval machineEval
    cases overflow : type.overflow with
    | wrapping =>
      rw [Literal.fit_wrapping overflow, Literal.ofInt_eq_ofWord, BitVec.ofInt_neg, word]
    | saturating => rw [Literal.fit_saturating overflow]
  | bitNot =>
    unfold eval machineEval
    rw [Literal.ofInt_eq_ofWord, ofInt_complement typed]
  | not =>
    unfold eval machineEval
    have zero : operand.isZero = (operand.word type.width == 0) := by
      unfold Literal.isZero
      rw [Bool.eq_iff_iff, beq_iff_eq, beq_iff_eq, ← BitVec.toNat_inj, Literal.toNat_word typed]
      rfl
    rw [zero]

end UnaryOp

end Timebound
