import Timebound.Proofs.MachineArithmetic

/-!
# Arithmetic in registers of 128 bits

The exact integers of literal arithmetic need no unbounded memory. Evaluated in signed
registers of 128 bits, which refuse a result that they cannot hold, every operator gives
the same literal on operands of any types: values have at most 64 bits and a sign, so sums,
differences, quotients, shifts and negations always fit. Only a product of two large
unsigned values does not, and there the low bits, or the greatest value where the type
saturates, are taken instead, which is what the exact product gives too.
-/

namespace Timebound

/-- A signed register of 128 bits. -/
abbrev Register := BitVec 128

/-! ## Loading and storing -/

namespace ScalarType

/-- The smallest value of a type, computed in a register. -/
def least (type : ScalarType) : Register :=
  if type.signed then -(1 <<< (type.width.bits - 1)) else 0

/-- The largest value of a type, computed in a register. -/
def greatest (type : ScalarType) : Register :=
  if type.signed then (1 <<< (type.width.bits - 1)) - 1 else .ofNat 128 type.width.mask

/-- The register holds the smallest value. -/
theorem toInt_least (type : ScalarType) : type.least.toInt = type.minValue := by
  obtain ⟨width, signed, overflow⟩ := type
  cases width <;> cases signed <;> cases overflow <;> decide

/-- The register holds the largest value. -/
theorem toInt_greatest (type : ScalarType) : type.greatest.toInt = type.maxValue := by
  obtain ⟨width, signed, overflow⟩ := type
  cases width <;> cases signed <;> cases overflow <;> decide

/-- Values have 64 bits and a sign, those of signed types 63 bits and a sign. -/
theorem range_bounds (type : ScalarType) :
    -9223372036854775808 ≤ type.minValue ∧ type.maxValue < 18446744073709551616 ∧
      (type.signed = true → type.maxValue < 9223372036854775808) := by
  obtain ⟨width, signed, overflow⟩ := type
  cases width <;> cases signed <;> cases overflow <;> decide

end ScalarType

namespace Literal

/-- The value of a literal in a register. A signed pattern is moved to the top of the
register and back, which spreads its sign. -/
def load (literal : Literal) : Register :=
  let spare := 128 - literal.type.width.bits
  if literal.type.signed then (BitVec.ofNat 128 literal.bits <<< spare).sshiftRight spare
  else .ofNat 128 literal.bits

/-- The literal with the low bits of a register. -/
def store (type : ScalarType) (register : Register) : Literal where
  type := type
  bits := (register.setWidth 64).toNat &&& type.width.mask
  bits_lt := by
    have room := type.width.patterns_pos
    have inside := @Nat.and_le_right (register.setWidth 64).toNat type.width.mask
    unfold Width.mask at inside ⊢
    omega

/-- Bring a result in a register back to a type. -/
def storeFit (type : ScalarType) (register : Register) : Literal :=
  match type.overflow with
  | .wrapping => store type register
  | .saturating => store type
      (if register.slt type.least then type.least
      else if type.greatest.slt register then type.greatest
      else register)

/-- No literal has more than 64 bits. -/
theorem bits_lt_w64 (literal : Literal) : literal.bits < Width.w64.patterns := by
  have small := literal.bits_lt
  generalize literal.type.width = width at small
  cases width <;> simp [Width.patterns, Width.bits] at small ⊢ <;> omega

/-- The bounds of the types bound the value. -/
theorem value_bounds (literal : Literal) :
    -9223372036854775808 ≤ literal.value ∧ literal.value < 18446744073709551616 := by
  have bounds := literal.type.range_bounds
  obtain ⟨low, high⟩ := literal.holds_value
  omega

/-- A value beyond the signed ones is its pattern. -/
theorem value_of_large {literal : Literal} (large : 9223372036854775808 ≤ literal.value) :
    literal.value = literal.bits := by
  obtain ⟨low, high⟩ := literal.holds_value
  have unsigned : ¬literal.type.signed = true := by
    intro signed
    have below := literal.type.range_bounds.2.2 signed
    omega
  unfold value
  rw [if_neg unsigned]

/-- A loaded register holds the value. -/
theorem toInt_load (literal : Literal) : literal.load.toInt = literal.value := by
  have small := literal.bits_lt
  unfold load value
  generalize literal.type.width = width at small ⊢
  split
  · rw [BitVec.toInt_sshiftRight, BitVec.toInt_shiftLeft, Int.shiftRight_eq_div_pow,
      BitVec.toNat_ofNat, Nat.shiftLeft_eq]
    cases width <;> simp [Width.patterns, Width.bits, Int.bmod] at small ⊢ <;> omega
  · rw [BitVec.toInt_ofNat', Int.bmod]
    cases width <;> simp [Width.patterns, Width.bits] at small ⊢ <;> omega

/-- Storing keeps the low bits of the number in the register. -/
theorem store_eq_ofInt (type : ScalarType) (register : Register) :
    store type register = ofInt type register.toInt := by
  have kept : (register.setWidth 64).toNat &&& type.width.mask =
      (register.toInt % type.width.patterns).toNat := by
    rw [BitVec.toNat_setWidth, BitVec.toInt_eq_toNat_bmod, Width.mask, Width.patterns,
      Nat.one_shiftLeft, Nat.and_two_pow_sub_one_eq_mod, Int.bmod]
    generalize type.width = width
    cases width <;> simp [Width.bits] <;> omega
  unfold store ofInt
  simp only [kept]

/-- Storing a register whose low 64 bits are those of a number keeps the low bits of the
number. -/
theorem store_eq_ofNat (type : ScalarType) {register : Register} {number : Nat}
    (low : register.setWidth 64 = .ofNat 64 number) :
    store type register = ofInt type number := by
  have kept : (register.setWidth 64).toNat &&& type.width.mask =
      ((number : Int) % type.width.patterns).toNat := by
    have divides : 2 ^ type.width.bits ∣ 2 ^ 64 := Nat.pow_dvd_pow 2 type.width.bits_le
    rw [low, BitVec.toNat_ofNat, Width.mask, Width.patterns, Nat.one_shiftLeft,
      Nat.and_two_pow_sub_one_eq_mod, Nat.mod_mod_of_dvd _ divides, ← Int.natCast_emod,
      Int.toNat_natCast]
  unfold store ofInt
  simp only [kept]

/-- Bringing a register back to a type is bringing its number back. -/
theorem storeFit_eq_fit (type : ScalarType) (register : Register) :
    storeFit type register = fit type register.toInt := by
  unfold storeFit
  cases overflow : type.overflow with
  | wrapping => rw [fit_wrapping overflow]; exact store_eq_ofInt type register
  | saturating =>
    rw [fit_saturating overflow]
    simp only [store_eq_ofInt, ScalarType.nearest, BitVec.slt_iff_toInt_lt,
      ScalarType.toInt_least, ScalarType.toInt_greatest]
    congr 1
    split
    · exact type.toInt_least
    · split
      · exact type.toInt_greatest
      · rfl

end Literal

/-! ## Operators on registers -/

/-- A result in a register, brought back to a type, or nothing when the register overflowed. -/
def Register.settle (type : ScalarType) (overflowed : Bool) (result : Register) :
    Option Literal :=
  if overflowed then none else some (.storeFit type result)

/-- A result that did not overflow is that of the exact number. -/
theorem Register.settle_exact {type : ScalarType} {overflowed : Bool} {result : Register}
    {exact : Int} (inside : overflowed = false) (same : result.toInt = exact) :
    settle type overflowed result = some (.fit type exact) := by
  unfold settle
  rw [inside, if_neg Bool.false_ne_true, Literal.storeFit_eq_fit, same]

/-- The literal for a product that is too large for a register: the low bits of the product
of the patterns, or the largest value where the type saturates. -/
def Register.highProduct (type : ScalarType) (left right : Literal) : Literal :=
  match type.overflow with
  | .wrapping =>
    .store type ((BitVec.ofNat 64 left.bits * BitVec.ofNat 64 right.bits).setWidth 128)
  | .saturating => .store type type.greatest

namespace UnaryOp

/-- The value of an operator computed in registers: nothing when a result leaves the range
of registers. -/
def onRegisters? (op : UnaryOp) (type : ScalarType) (operand : Literal) : Option Literal :=
  match op with
  | neg => Register.settle type operand.load.negOverflow (-operand.load)
  | bitNot => some (.store type ((~~~BitVec.ofNat 64 operand.bits).setWidth 128))
  | not => some (.ofBool operand.isZero)

/-- No operator leaves the range, and the results are the exact ones. -/
theorem onRegisters?_eq_eval (op : UnaryOp) (type : ScalarType) (operand : Literal) :
    op.onRegisters? type operand = some (op.eval type operand) := by
  have loaded := operand.toInt_load
  have bounds := operand.value_bounds
  cases op with
  | neg =>
    have inside : operand.load.negOverflow = false := by
      simp only [BitVec.negOverflow, loaded, beq_eq_false_iff_ne]
      omega
    refine Register.settle_exact inside ?_
    rw [BitVec.toInt_neg_of_not_negOverflow (by rw [inside]; exact Bool.false_ne_true), loaded]
  | bitNot =>
    have small := operand.bits_lt_w64
    have flipped : ((~~~BitVec.ofNat 64 operand.bits).setWidth 128).toNat =
        Width.w64.mask - operand.bits := by
      rw [BitVec.toNat_setWidth, BitVec.toNat_not, BitVec.toNat_ofNat]
      simp [Width.mask, Width.patterns, Width.bits] at small ⊢
      omega
    unfold onRegisters? eval
    rw [Literal.store_eq_ofInt, BitVec.toInt_eq_toNat_of_lt (by
      rw [flipped]
      simp [Width.mask, Width.patterns, Width.bits]
      omega), flipped]
    have below : operand.bits ≤ Width.w64.mask := Nat.le_sub_one_of_lt small
    rw [Int.ofNat_sub below]
  | not => rfl

end UnaryOp

namespace BinaryOp

/-- The value of an operator computed in registers: nothing when a result other than a
product leaves the range of registers, else the value as for literals. -/
def onRegisters? (op : BinaryOp) (type : ScalarType) (left right : Literal) :
    Option (Option Literal) :=
  let first := left.load
  let second := right.load
  let amount := right.bits % type.width.bits
  match op with
  | add => (Register.settle type (first.saddOverflow second) (first + second)).map some
  | sub => (Register.settle type (first.ssubOverflow second) (first - second)).map some
  | mul =>
    if first.smulOverflow second then some (some (Register.highProduct type left right))
    else some (some (.storeFit type (first * second)))
  | div => if right.isZero then some none
      else (Register.settle type (first.sdivOverflow second) (first.sdiv second)).map some
  | rem => if right.isZero then some none
      else (Register.settle type (first.sdivOverflow second) (first.srem second)).map some
  | and => some (some (.store type (.ofNat 128 (left.bits &&& right.bits))))
  | or => some (some (.store type (.ofNat 128 (left.bits ||| right.bits))))
  | xor => some (some (.store type (.ofNat 128 (left.bits ^^^ right.bits))))
  | shl =>
    -- Shifting back finds the operand again unless bits were lost.
    let shifted := BitVec.ofNat 128 left.bits <<< amount
    if shifted.sshiftRight amount = .ofNat 128 left.bits then some (some (.store type shifted))
    else none
  | shr => some (some (.store type (first.sshiftRight amount)))
  | eq => some (some (.ofBool (first == second)))
  | ne => some (some (.ofBool (first != second)))
  | lt => some (some (.ofBool (first.slt second)))
  | le => some (some (.ofBool (first.sle second)))
  | gt => some (some (.ofBool (second.slt first)))
  | ge => some (some (.ofBool (second.sle first)))

section

variable (left right : Literal)

/-- Sums fit a register. -/
theorem toInt_add_load : left.load.saddOverflow right.load = false ∧
    (left.load + right.load).toInt = left.value + right.value := by
  have leftBounds := left.value_bounds
  have rightBounds := right.value_bounds
  have inside : left.load.saddOverflow right.load = false := by
    simp only [BitVec.saddOverflow, left.toInt_load, right.toInt_load, Bool.or_eq_false_iff,
      decide_eq_false_iff_not]
    omega
  refine ⟨inside, ?_⟩
  rw [BitVec.toInt_add_of_not_saddOverflow (by simp [inside]), left.toInt_load, right.toInt_load]

/-- Differences fit a register. -/
theorem toInt_sub_load : left.load.ssubOverflow right.load = false ∧
    (left.load - right.load).toInt = left.value - right.value := by
  have leftBounds := left.value_bounds
  have rightBounds := right.value_bounds
  have inside : left.load.ssubOverflow right.load = false := by
    simp only [BitVec.ssubOverflow, left.toInt_load, right.toInt_load, Bool.or_eq_false_iff,
      decide_eq_false_iff_not]
    omega
  refine ⟨inside, ?_⟩
  rw [BitVec.toInt_sub_of_not_ssubOverflow (by simp [inside]), left.toInt_load, right.toInt_load]

/-- No value is the smallest register, the only one that a division can lose. -/
theorem load_ne_intMin : left.load ≠ .intMin 128 := by
  intro smallest
  have bounds := left.value_bounds
  have loaded := left.toInt_load
  rw [smallest, BitVec.toInt_intMin_of_pos (by decide)] at loaded
  omega

/-- Quotients and remainders fit a register. -/
theorem toInt_div_load : left.load.sdivOverflow right.load = false ∧
    (left.load.sdiv right.load).toInt = left.value.tdiv right.value ∧
    (left.load.srem right.load).toInt = left.value.tmod right.value := by
  have large := load_ne_intMin left
  refine ⟨?_, ?_, ?_⟩
  · simp [BitVec.sdivOverflow_eq, large]
  · rw [BitVec.toInt_sdiv_of_ne_or_ne _ _ (.inl large), left.toInt_load, right.toInt_load]
  · rw [BitVec.toInt_srem, left.toInt_load, right.toInt_load]

/-- A value of 63 bits and a sign times any value fits a register. -/
theorem natAbs_mul_lt {one other : Int} (oneSmall : one.natAbs ≤ 9223372036854775808)
    (otherSmall : other.natAbs < 18446744073709551616) :
    (one * other).natAbs < 170141183460469231731687303715884105728 := by
  have product := Nat.mul_le_mul oneSmall (Nat.le_sub_one_of_lt otherSmall)
  rw [Int.natAbs_mul]
  omega

variable {left right}

/-- Only products of two large values leave the range of registers. -/
theorem large_of_smulOverflow (overflowed : left.load.smulOverflow right.load = true) :
    9223372036854775808 ≤ left.value ∧ 9223372036854775808 ≤ right.value := by
  have leftBounds := left.value_bounds
  have rightBounds := right.value_bounds
  simp only [BitVec.smulOverflow, left.toInt_load, right.toInt_load, Bool.or_eq_true,
    decide_eq_true_eq] at overflowed
  constructor
  · refine Int.le_of_not_gt fun small => ?_
    have product := @natAbs_mul_lt left.value right.value (by omega) (by omega)
    omega
  · refine Int.le_of_not_gt fun small => ?_
    have product := @natAbs_mul_lt right.value left.value (by omega) (by omega)
    rw [Int.mul_comm] at product
    omega

/-- A product that leaves the range of registers is right all the same: its low bits are
those of the product of the patterns, and it is above every value of the type. -/
theorem highProduct_eq_fit (type : ScalarType)
    (overflowed : left.load.smulOverflow right.load = true) :
    Register.highProduct type left right = .fit type (left.value * right.value) := by
  obtain ⟨leftLarge, rightLarge⟩ := large_of_smulOverflow overflowed
  unfold Register.highProduct
  cases overflow : type.overflow with
  | wrapping =>
    rw [Literal.fit_wrapping overflow, Literal.value_of_large leftLarge,
      Literal.value_of_large rightLarge, ← Int.natCast_mul]
    refine Literal.store_eq_ofNat type ?_
    rw [BitVec.setWidth_setWidth_of_le _ (by decide), BitVec.setWidth_eq, BitVec.ofNat_mul]
  | saturating =>
    have bounds := type.range_bounds
    have product := Int.mul_le_mul leftLarge rightLarge (by omega) (by omega)
    have greatest : type.nearest (left.value * right.value) = type.maxValue := by
      have range := type.range_eq
      unfold ScalarType.nearest
      rw [if_neg (by omega), if_pos (by omega)]
    rw [Literal.fit_saturating overflow, greatest, ← type.toInt_greatest]
    exact Literal.store_eq_ofInt type type.greatest

end

/-- Bits shifted left by less than 64 can be shifted back. -/
theorem sshiftRight_shiftLeft (literal : Literal) {amount : Nat} (small : amount < 64) :
    (BitVec.ofNat 128 literal.bits <<< amount).sshiftRight amount =
      BitVec.ofNat 128 literal.bits := by
  have bits := literal.bits_lt_w64
  have power : 2 ^ amount ≤ 2 ^ 63 := Nat.pow_le_pow_right (by decide) (by omega)
  have product := Nat.mul_le_mul (Nat.le_sub_one_of_lt bits) power
  have positive := Nat.two_pow_pos amount
  simp only [Width.patterns, Width.bits] at bits product
  apply BitVec.eq_of_toInt_eq
  rw [BitVec.toInt_sshiftRight, ← ofNat_shiftLeft, BitVec.toInt_ofNat', BitVec.toInt_ofNat',
    Nat.shiftLeft_eq, Int.shiftRight_eq_div_pow, Int.bmod_eq_of_le_mul_two (by omega) (by omega),
    Int.bmod_eq_of_le_mul_two (by omega) (by omega), ← Int.natCast_ediv,
    Nat.mul_div_cancel _ positive]

/-- Registers are ordered as the values they hold. -/
theorem load_order (one other : Literal) :
    one.load.slt other.load = decide (one.value < other.value) ∧
    one.load.sle other.load = decide (one.value ≤ other.value) ∧
    (one.load == other.load) = (one.value == other.value) := by
  have same : (one.load == other.load) = (one.value == other.value) := by
    rw [Bool.eq_iff_iff, beq_iff_eq, beq_iff_eq, ← BitVec.toInt_inj, one.toInt_load,
      other.toInt_load]
  rw [BitVec.slt_eq_decide, BitVec.sle_eq_decide, one.toInt_load, other.toInt_load]
  exact ⟨rfl, rfl, same⟩

/-- No operator but multiplication leaves the range, and the results are the exact ones. -/
theorem onRegisters?_eq_eval (op : BinaryOp) (type : ScalarType) (left right : Literal) :
    op.onRegisters? type left right = some (op.eval type left right) := by
  have settled {overflowed : Bool} {result : Register} {exact : Int}
      (inside : overflowed = false) (same : result.toInt = exact) :
      (Register.settle type overflowed result).map some = some (some (.fit type exact)) := by
    rw [Register.settle_exact inside same, Option.map_some]
  have pattern (number : Nat) : Literal.store type (.ofNat 128 number) = .ofInt type number :=
    Literal.store_eq_ofNat type (BitVec.setWidth_ofNat_of_le (by decide) number)
  have quotient := toInt_div_load left right
  have order := load_order left right
  have reverse := load_order right left
  cases op with
  | add => exact settled (toInt_add_load left right).1 (toInt_add_load left right).2
  | sub => exact settled (toInt_sub_load left right).1 (toInt_sub_load left right).2
  | mul =>
    simp only [onRegisters?, eval]
    split
    · rename_i overflowed
      rw [highProduct_eq_fit type overflowed]
    · rename_i inside
      rw [Literal.storeFit_eq_fit, BitVec.toInt_mul_of_not_smulOverflow inside, left.toInt_load,
        right.toInt_load]
  | div =>
    simp only [onRegisters?, eval]
    split
    · rfl
    · exact settled quotient.1 quotient.2.1
  | rem =>
    simp only [onRegisters?, eval]
    split
    · rfl
    · exact settled quotient.1 quotient.2.2
  | and | or | xor => simp only [onRegisters?, eval, pattern]
  | shl =>
    have small : right.bits % type.width.bits < 64 :=
      Nat.lt_of_lt_of_le (Nat.mod_lt _ type.width.bits_pos) type.width.bits_le
    simp only [onRegisters?, eval]
    rw [if_pos (sshiftRight_shiftLeft left small), ← ofNat_shiftLeft, pattern]
  | shr =>
    simp only [onRegisters?, eval]
    rw [Literal.store_eq_ofInt, BitVec.toInt_sshiftRight, left.toInt_load]
  | eq | ne | lt | le | gt | ge =>
    simp only [onRegisters?, eval, bne, order, reverse, gt_iff_lt, ge_iff_le]

end BinaryOp

/-! ## Literal arithmetic -/

namespace Literal

/-- At every type, the literal made from a number has the only value of the type with the low
bits of the number, and clamping gives values. An operator has no value exactly for a division
or remainder by zero. On operands of the type the operators are those of a machine with words
of the width of the type. On operands of any types they can be computed in registers of 128
bits, where nothing but a product leaves the range. -/
theorem arithmetic_is_machine (type : ScalarType) :
    (∀ exact value : Int, value = (ofInt type exact).value ↔
      type.Holds value ∧ value % type.width.patterns = exact % type.width.patterns) ∧
    (∀ exact : Int, (ofInt type (type.nearest exact)).value = type.nearest exact) ∧
    (∀ (op : BinaryOp) (left right : Literal),
      (op.eval type left right = none ↔ (op = .div ∨ op = .rem) ∧ right.value = 0) ∧
      (left.type = type → (op.isShift = true ∨ right.type = type) →
        op.eval type left right = op.machineEval type left right) ∧
      op.onRegisters? type left right = some (op.eval type left right)) ∧
    (∀ (op : UnaryOp) (operand : Literal),
      (operand.type = type → op.eval type operand = op.machineEval type operand) ∧
      op.onRegisters? type operand = some (op.eval type operand)) := by
  refine ⟨fun exact value => eq_value_ofInt_iff,
    fun exact => value_ofInt_of_holds (type.holds_nearest exact),
    fun op left right => ⟨?_, ?_, ?_⟩, fun op operand => ⟨?_, ?_⟩⟩
  · exact BinaryOp.eval_eq_none_iff
  · exact op.eval_eq_machineEval
  · exact op.onRegisters?_eq_eval type left right
  · exact op.eval_eq_machineEval
  · exact op.onRegisters?_eq_eval type operand

/-- Dividing the smallest signed value by minus one wraps around to it; multiplying the
largest unsigned value by itself leaves the range of registers and gives one. -/
theorem arithmetic_is_machine_edges :
    (BinaryOp.div.eval (.int .w8) (ofInt (.int .w8) (-128)) (ofInt (.int .w8) (-1)) =
        BinaryOp.div.machineEval (.int .w8) (ofInt (.int .w8) (-128)) (ofInt (.int .w8) (-1)) ∧
      BinaryOp.div.machineEval (.int .w8) (ofInt (.int .w8) (-128)) (ofInt (.int .w8) (-1)) =
        some (ofInt (.int .w8) (-128))) ∧
    BinaryOp.mul.onRegisters? .u64 (ofInt .u64 (-1)) (ofInt .u64 (-1)) =
        some (BinaryOp.mul.eval .u64 (ofInt .u64 (-1)) (ofInt .u64 (-1))) ∧
      (ofInt .u64 (-1)).load.smulOverflow (ofInt .u64 (-1)).load = true ∧
      BinaryOp.mul.eval .u64 (ofInt .u64 (-1)) (ofInt .u64 (-1)) = some (ofInt .u64 1) :=
  ⟨⟨((arithmetic_is_machine (.int .w8)).2.2.1 .div _ _).2.1 rfl (.inr rfl), by decide⟩,
    ((arithmetic_is_machine .u64).2.2.1 .mul _ _).2.2, by decide, by decide⟩

end Literal

end Timebound
