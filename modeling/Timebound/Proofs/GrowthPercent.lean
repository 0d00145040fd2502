import Mathlib.Algebra.Ring.Nat
import Timebound.Optimizer

/-!
# Growth in percent

The growth of a bound is computed with 64-bit floating-point numbers: both bounds are rounded to
53 binary digits, and so are their difference, its quotient by the old bound and the percentage.
Rounding keeps the order of the bounds (`nearest_mono`) and the sign of a result, so the growth of
a bound that became no larger is not above zero (`growth_atMostZero`) and exceeds no allowance
that is at least zero (`degradationPercent_within`).
-/

namespace Timebound

open Float.Model Float.Model.UnpackedFloat

/-! ## Rounding keeps the order -/

/-- The digits that are kept, the first digit that is dropped and whether any other one is,
read as one number. -/
def digits (number : ExtendedMantissa) : Nat :=
  4 * number.mantissa + 2 * number.roundBit.toNat + number.stickyBit.toNat

/-- Dropping a digit keeps the order. -/
theorem digits_shiftRightOne {small large : ExtendedMantissa}
    (order : digits small ≤ digits large) :
    digits small.shiftRightOne ≤ digits large.shiftRightOne := by
  obtain ⟨m, r, s⟩ := small
  obtain ⟨n, u, v⟩ := large
  have bit (k : Nat) : (k % 2 != 0).toNat = k % 2 := by
    rcases Nat.mod_two_eq_zero_or_one k with even | odd
    · simp [even]
    · simp [odd]
  simp only [digits, ExtendedMantissa.shiftRightOne, bit] at order ⊢
  cases r <;> cases s <;> cases u <;> cases v <;> simp at order ⊢ <;> omega

/-- Dropping digits keeps the order. -/
theorem digits_shiftRight {small large : ExtendedMantissa} (order : digits small ≤ digits large)
    (dropped : Nat) : digits (small >>> dropped) ≤ digits (large >>> dropped) := by
  induction dropped with
  | zero => exact order
  | succ dropped ih => exact digits_shiftRightOne ih

/-- Rounding to even keeps the order. -/
theorem roundedMantissa_mono {small large : ExtendedMantissa}
    (order : digits small ≤ digits large) :
    small.roundedMantissa ≤ large.roundedMantissa := by
  obtain ⟨m, r, s⟩ := small
  obtain ⟨n, u, v⟩ := large
  simp only [digits] at order
  cases r <;> cases s <;> cases u <;> cases v <;>
    simp [ExtendedMantissa.roundedMantissa, ExtendedMantissa.accuracy,
      Accuracy.roundToNearestEven] at order ⊢ <;> omega

/-- Dropping digits divides the number they belong to. -/
theorem mantissa_shiftRight (number : ExtendedMantissa) (dropped : Nat) :
    (number >>> dropped).mantissa = number.mantissa / 2 ^ dropped := by
  induction dropped with
  | zero => exact (Nat.div_one _).symm
  | succ dropped ih =>
    change (number >>> dropped).mantissa / 2 = _
    rw [ih, Nat.div_div_eq_div_mul, Nat.pow_succ]

/-- Rounding gives one of the two next numbers, since these round to themselves. -/
theorem roundedMantissa_bounds (number : ExtendedMantissa) :
    number.mantissa ≤ number.roundedMantissa ∧
      number.roundedMantissa ≤ number.mantissa + 1 := by
  have first := number.roundBit.toNat_le
  have others := number.stickyBit.toNat_le
  have below : digits ⟨number.mantissa, false, false⟩ ≤ digits number := by
    simp only [digits, Bool.toNat_false]
    omega
  have above : digits number ≤ digits ⟨number.mantissa + 1, false, false⟩ := by
    simp only [digits, Bool.toNat_false]
    omega
  exact ⟨roundedMantissa_mono below, roundedMantissa_mono above⟩

/-! ## The nearest number -/

/-- The exponent that a number with its leading digit at a place is stored with. -/
theorem targetExponent_binary64 (total : Int) :
    Format.binary64.targetExponent total = max (total - 53) (-1074) := rfl

/-- The first 53 binary digits of a number, rounded by the others. -/
def significand (n : Nat) : Nat :=
  ((⟨n <<< (52 - n.log2), false, false⟩ : ExtendedMantissa) >>> (n.log2 - 52)).roundedMantissa

/-- A number and its exponent in the nearest number of 53 binary digits. Rounding up to the next
power of two makes one digit too many. -/
def nearest (n : Nat) : Nat × Int :=
  if significand n = 2 ^ 53 then (2 ^ 52, n.log2 - 51) else (significand n, n.log2 - 52)

/-- With zeros behind it, a number has 53 digits at least; it has as many more as are dropped. -/
theorem padded_bounds {n : Nat} (positive : 0 < n) :
    2 ^ (52 + (n.log2 - 52)) ≤ n <<< (52 - n.log2) ∧
      n <<< (52 - n.log2) < 2 ^ (53 + (n.log2 - 52)) := by
  have lower : 2 ^ n.log2 ≤ n := Nat.log2_self_le (Nat.ne_of_gt positive)
  have upper : n < 2 ^ (n.log2 + 1) := Nat.lt_log2_self
  have least : 52 + (n.log2 - 52) = n.log2 + (52 - n.log2) := by omega
  have most : 53 + (n.log2 - 52) = (n.log2 + 1) + (52 - n.log2) := by omega
  rw [Nat.shiftLeft_eq, least, most, Nat.pow_add, Nat.pow_add _ (n.log2 + 1)]
  exact ⟨Nat.mul_le_mul_right _ lower,
    Nat.mul_lt_mul_of_pos_right upper (Nat.two_pow_pos (52 - n.log2))⟩

/-- The place of the leading digit with zeros behind the number. -/
theorem log2_padded {n : Nat} (positive : 0 < n) :
    (n <<< (52 - n.log2)).log2 = 52 + (n.log2 - 52) := by
  obtain ⟨lower, upper⟩ := padded_bounds positive
  have power : 0 < 2 ^ (52 + (n.log2 - 52)) := Nat.two_pow_pos _
  rw [Nat.log2_eq_iff (by omega)]
  refine ⟨lower, ?_⟩
  rwa [show 52 + (n.log2 - 52) + 1 = 53 + (n.log2 - 52) by omega]

/-- Rounding leaves 53 digits or makes the next power of two. -/
theorem significand_bounds {n : Nat} (positive : 0 < n) :
    2 ^ 52 ≤ significand n ∧ significand n ≤ 2 ^ 53 := by
  obtain ⟨lower, upper⟩ := padded_bounds positive
  have rounded := roundedMantissa_bounds
    ((⟨n <<< (52 - n.log2), false, false⟩ : ExtendedMantissa) >>> (n.log2 - 52))
  simp only [mantissa_shiftRight] at rounded
  have power : 0 < 2 ^ (n.log2 - 52) := Nat.two_pow_pos _
  rw [Nat.pow_add, ← Nat.le_div_iff_mul_le power] at lower
  rw [Nat.pow_add, ← Nat.div_lt_iff_lt_mul power] at upper
  unfold significand
  omega

/-- Digits are dropped until the exponent is the one a number is stored with. -/
theorem shiftToTargetExponent_exact {m places : Nat} {e : Int}
    (target : max ((m.log2 : Int) + 1 + e - 53) (-1074) = e + places) :
    shiftToTargetExponent .binary64 m e .exact =
      ((⟨m, false, false⟩ : ExtendedMantissa) >>> places, e + places) := by
  have dropped : (max ((m.log2 : Int) + 1 + e - 53) (-1074) - e).toNat = places := by omega
  simp only [shiftToTargetExponent, shiftToExponent, targetExponent_binary64, totalExponent,
    ExtendedMantissa.ofMantissaAndAccuracy, dropped]

/-- Rounding drops digits, rounds what is left and drops a digit more if there is one too many. -/
theorem roundWithAccuracy_exact {m places rounded : Nat} {e : Int} (sign : Sign) (carry : Nat)
    (target : max ((m.log2 : Int) + 1 + e - 53) (-1074) = e + places)
    (made : ((⟨m, false, false⟩ : ExtendedMantissa) >>> places).roundedMantissa = rounded)
    (again : max ((rounded.log2 : Int) + 1 + (e + places) - 53) (-1074) = e + places + carry)
    (nonzero : 0 < rounded / 2 ^ carry) :
    roundWithAccuracy .binary64 sign m e .exact =
      .finite sign (rounded / 2 ^ carry) (e + places + carry) nonzero := by
  have kept := mantissa_shiftRight ⟨rounded, false, false⟩ carry
  unfold roundWithAccuracy
  rw [shiftToTargetExponent_exact target]
  dsimp only
  rw [made, shiftToTargetExponent_exact again]
  dsimp only
  rw [dif_neg (kept.trans_ne (Nat.ne_of_gt nonzero)), UnpackedFloat.finite.injEq]
  exact ⟨rfl, kept, rfl⟩

/-- A positive number is converted to the nearest one of 53 digits. -/
theorem ofNat_eq_nearest {n : Nat} (positive : 0 < n) :
    ∃ nonzero, UnpackedFloat.ofNat .binary64 n =
      .finite .positive (nearest n).1 (nearest n).2 nonzero := by
  obtain ⟨lower, upper⟩ := significand_bounds positive
  have places : (0 - max ((n.log2 : Int) + 1 + 0 - 53) (-1074)).toNat = 52 - n.log2 := by omega
  have sign : compare (n : Int) 0 = .gt := by
    rw [Int.compare_eq_gt]
    omega
  have padded : UnpackedFloat.ofNat .binary64 n =
      roundWithAccuracy .binary64 .positive (n <<< (52 - n.log2))
        (0 - ((52 - n.log2 : Nat) : Int)) .exact := by
    simp only [UnpackedFloat.ofNat, UnpackedFloat.ofInt, UnpackedFloat.normalize, sign,
      UnpackedFloat.round, targetExponent_binary64, totalExponent, decreaseExponent,
      Int.toNat_natCast, places]
  have target : max (((n <<< (52 - n.log2)).log2 : Int) + 1 + (0 - ((52 - n.log2 : Nat) : Int)) -
      53) (-1074) = 0 - ((52 - n.log2 : Nat) : Int) + (n.log2 - 52 : Nat) := by
    rw [log2_padded positive]
    omega
  rw [padded]
  by_cases carried : significand n = 2 ^ 53
  · have rounded := roundWithAccuracy_exact .positive 1 target carried
      (by rw [Nat.log2_two_pow]; omega) (by decide)
    rw [nearest, if_pos carried]
    refine ⟨Nat.two_pow_pos 52, rounded.trans ?_⟩
    rw [UnpackedFloat.finite.injEq]
    exact ⟨rfl, Nat.pow_div (by decide) (by decide), by omega⟩
  · have digits : (significand n).log2 = 52 := by
      rw [Nat.log2_eq_iff (by omega)]
      omega
    have rounded := roundWithAccuracy_exact .positive 0 target rfl
      (by change max (((significand n).log2 : Int) + 1 + _ - 53) _ = _; rw [digits]; omega)
      (by change 0 < significand n / 2 ^ 0; omega)
    rw [nearest, if_neg carried]
    refine ⟨by omega, rounded.trans ?_⟩
    rw [UnpackedFloat.finite.injEq]
    exact ⟨rfl, Nat.div_one _, by omega⟩

/-- The nearest number has 53 digits. -/
theorem nearest_bounds {n : Nat} (positive : 0 < n) :
    2 ^ 52 ≤ (nearest n).1 ∧ (nearest n).1 < 2 ^ 53 := by
  have bounds := significand_bounds positive
  unfold nearest
  split <;> simp only <;> omega

/-- The exponent of the nearest number, given the place of the leading digit. -/
theorem nearest_exponent (n : Nat) :
    (n.log2 : Int) - 52 ≤ (nearest n).2 ∧ (nearest n).2 ≤ n.log2 - 51 := by
  unfold nearest
  split <;> simp only <;> omega

/-- A larger number is converted to no smaller one: its exponent is larger, or it is the same and
the digits are no smaller. -/
theorem nearest_mono {small large : Nat} (positive : 0 < small) (order : small ≤ large) :
    (nearest small).2 < (nearest large).2 ∨
      (nearest small).2 = (nearest large).2 ∧ (nearest small).1 ≤ (nearest large).1 := by
  have lower := significand_bounds positive
  have upper := significand_bounds (Nat.lt_of_lt_of_le positive order)
  have places : small.log2 ≤ large.log2 := by
    rw [Nat.le_log2 (by omega)]
    exact Nat.le_trans (Nat.log2_self_le (by omega)) order
  have same : small.log2 = large.log2 → significand small ≤ significand large := by
    intro equal
    unfold significand
    rw [equal]
    refine roundedMantissa_mono (digits_shiftRight ?_ _)
    simp only [digits, Nat.shiftLeft_eq]
    have scaled := Nat.mul_le_mul_right (2 ^ (52 - large.log2)) order
    omega
  unfold nearest
  split <;> split <;> simp only <;> omega

/-! ## Storing a number -/

/-- The sign of a stored number is kept. -/
theorem ofBitVec_unpackSign (spec : Format) (sign : Sign) (e : BitVec spec.exponentBits)
    (m : BitVec spec.mantissaBitsWithoutImplicit) :
    Sign.ofBitVec (unpackSign (packComponents spec sign e m)) = sign := by
  have bit : unpackSign (packComponents spec sign e m) = sign.toBitVec := by
    ext place inside
    have first : place = 0 := by omega
    subst first
    delta unpackSign packComponents
    simp [BitVec.getLsbD_append, BitVec.getElem_append]
  rw [bit]
  cases sign <;> rfl

/-- A number of 53 digits whose exponent fits is stored as it is: the leading digit is left out
and put back. -/
theorem unpack_pack_finite {m : Nat} {e : Int} (sign : Sign) (nonzero : 0 < m)
    (lower : 2 ^ 52 ≤ m) (upper : m < 2 ^ 53) (least : -1074 ≤ e) (most : e < 972) :
    UnpackedFloat.unpack .binary64 (UnpackedFloat.pack .binary64 (.finite sign m e nonzero)) =
      .finite sign m e nonzero := by
  have leading : m.log2 = 52 := (Nat.log2_eq_iff (by omega)).mpr ⟨lower, upper⟩
  obtain ⟨biased, shifted⟩ : ∃ biased : Nat, e + 1075 = biased :=
    ⟨(e + 1075).toNat, by omega⟩
  have packed : UnpackedFloat.pack .binary64 (.finite sign m e nonzero) =
      packComponents .binary64 sign (BitVec.ofNat 11 biased) (BitVec.ofNat 52 m) := by
    have stored : (e + (Format.binary64.exponentBias : Int) + (52 : Nat)).toNat = biased := by
      change (e + 1023 + 52).toNat = biased
      omega
    delta UnpackedFloat.pack
    simp only [stored, leading]
    rw [if_neg (by change ¬ 2048 ≤ biased + 1; omega), if_pos (by decide)]
  have exponent : (BitVec.ofNat 11 biased).toNat = biased := by
    rw [BitVec.toNat_ofNat]
    omega
  have finite : BitVec.ofNat 11 biased ≠ -1#11 := by
    intro same
    have equal := congrArg BitVec.toNat same
    rw [exponent, show (-1#11).toNat = 2047 from rfl] at equal
    omega
  have normal : BitVec.ofNat 11 biased ≠ 0#11 := by
    intro same
    have equal := congrArg BitVec.toNat same
    rw [exponent, show (0#11).toNat = 0 from rfl] at equal
    omega
  have restored : (1#1 ++ BitVec.ofNat 52 m).toNat = m := by
    rw [BitVec.toNat_append, ← Nat.shiftLeft_add_eq_or_of_lt (BitVec.isLt _), BitVec.toNat_ofNat,
      BitVec.toNat_ofNat, Nat.shiftLeft_eq]
    omega
  have kept : unpackExponent (packComponents .binary64 sign (BitVec.ofNat 11 biased)
      (BitVec.ofNat 52 m)) = BitVec.ofNat 11 biased := unpackExponent_packComponents
  rw [packed]
  unfold UnpackedFloat.unpack
  dsimp only
  rw [if_neg (kept.trans_ne finite), if_neg (kept.trans_ne normal), UnpackedFloat.finite.injEq,
    unpackMantissa_packComponents, kept, ofBitVec_unpackSign, exponent]
  refine ⟨rfl, restored, ?_⟩
  change (biased : Int) - (1023 + 52) = e
  omega

/-! ## Signs -/

/-- Numbers that are not above zero, and what is no number. -/
def AtMostZero : UnpackedFloat → Prop
  | .infinity .positive | .finite .positive _ _ _ => False
  | _ => True

/-- Both cases of a number that depends on a condition. -/
theorem atMostZero_dite {c : Prop} [Decidable c] {first : c → UnpackedFloat}
    {second : ¬ c → UnpackedFloat} (holds : ∀ h, AtMostZero (first h))
    (fails : ∀ h, AtMostZero (second h)) : AtMostZero (dite c first second) := by
  by_cases h : c
  · rw [dif_pos h]
    exact holds h
  · rw [dif_neg h]
    exact fails h

/-- Rounding keeps a negative sign. -/
theorem roundWithAccuracy_atMostZero (spec : Format) (m : Nat) (e : Int) (accuracy : Accuracy) :
    AtMostZero (roundWithAccuracy spec .negative m e accuracy) := by
  unfold roundWithAccuracy
  exact atMostZero_dite (fun _ => trivial) (fun _ => trivial)

/-- A number that is not above zero is none, a zero or negative. -/
theorem AtMostZero.cases {number : UnpackedFloat} (sign : AtMostZero number) :
    number = .notANumber ∨ (∃ s, number = .zero s) ∨ number = .infinity .negative ∨
      ∃ m e nonzero, number = .finite .negative m e nonzero := by
  cases number with
  | notANumber => exact .inl rfl
  | zero s => exact .inr (.inl ⟨s, rfl⟩)
  | infinity s =>
    cases s with
    | negative => exact .inr (.inr (.inl rfl))
    | positive => exact sign.elim
  | finite s m e nonzero =>
    cases s with
    | negative => exact .inr (.inr (.inr ⟨m, e, nonzero, rfl⟩))
    | positive => exact sign.elim

/-- The quotient by a positive number keeps a negative sign. -/
theorem div_atMostZero {number : UnpackedFloat} (spec : Format) (sign : AtMostZero number)
    {m : Nat} {e : Int} (nonzero : 0 < m) :
    AtMostZero (UnpackedFloat.div spec number (.finite .positive m e nonzero)) := by
  rcases sign.cases with rfl | ⟨_, rfl⟩ | rfl | ⟨_, _, _, rfl⟩
  · trivial
  · trivial
  · trivial
  · exact roundWithAccuracy_atMostZero ..

/-- The product with a positive number keeps a negative sign. -/
theorem mul_atMostZero {number : UnpackedFloat} (spec : Format) (sign : AtMostZero number)
    {m : Nat} {e : Int} (nonzero : 0 < m) :
    AtMostZero (UnpackedFloat.mul spec number (.finite .positive m e nonzero)) := by
  rcases sign.cases with rfl | ⟨_, rfl⟩ | rfl | ⟨_, _, _, rfl⟩
  · trivial
  · trivial
  · trivial
  · exact roundWithAccuracy_atMostZero ..

/-- What is stored with a negative sign is not above zero. -/
theorem unpack_negative_atMostZero (spec : Format) (e : BitVec spec.exponentBits)
    (m : BitVec spec.mantissaBitsWithoutImplicit) :
    AtMostZero (UnpackedFloat.unpack spec (packComponents spec .negative e m)) := by
  unfold UnpackedFloat.unpack
  dsimp only
  rw [ofBitVec_unpackSign]
  refine iteInduction (motive := AtMostZero) (fun _ => ?_) (fun _ => ?_)
  · exact iteInduction (motive := AtMostZero) (fun _ => trivial) (fun _ => trivial)
  · refine iteInduction (motive := AtMostZero) (fun _ => ?_) (fun _ => trivial)
    exact atMostZero_dite (fun _ => trivial) (fun _ => trivial)

/-- A zero is stored as it is. -/
theorem unpack_pack_zero (sign : Sign) :
    UnpackedFloat.unpack .binary64 (UnpackedFloat.pack .binary64 (.zero sign)) = .zero sign := by
  cases sign <;> rfl

/-- Storing a number does not put it above zero. -/
theorem unpack_pack_atMostZero {number : UnpackedFloat} (sign : AtMostZero number) :
    AtMostZero (UnpackedFloat.unpack .binary64 (UnpackedFloat.pack .binary64 number)) := by
  rcases sign.cases with rfl | ⟨s, rfl⟩ | rfl | ⟨_, _, _, rfl⟩
  · trivial
  · rw [unpack_pack_zero]
    trivial
  · exact unpack_negative_atMostZero ..
  · delta UnpackedFloat.pack
    dsimp only
    split
    · exact unpack_negative_atMostZero ..
    · split <;> exact unpack_negative_atMostZero ..

/-- A number that is at least zero is a zero or positive. -/
theorem nonnegative_cases {number : UnpackedFloat}
    (least : UnpackedFloat.le (.zero .positive) number = true) :
    (∃ s, number = .zero s) ∨ number = .infinity .positive ∨
      ∃ m e nonzero, number = .finite .positive m e nonzero := by
  cases number with
  | notANumber => cases least
  | zero s => exact .inl ⟨s, rfl⟩
  | infinity s =>
    cases s with
    | negative => cases least
    | positive => exact .inr (.inl rfl)
  | finite s m e nonzero =>
    cases s with
    | negative => cases least
    | positive => exact .inr (.inr ⟨m, e, nonzero, rfl⟩)

/-- No number that is at least zero is below one that is not above zero. -/
theorem not_lt_of_atMostZero {limit percent : Float} (nonnegative : 0.0 ≤ limit)
    (sign : AtMostZero percent.toModel.unpack) : ¬ limit < percent := by
  intro below
  have less : limit.toModel.unpack.lt percent.toModel.unpack = true := of_decide_eq_true below
  rcases nonnegative_cases (of_decide_eq_true nonnegative) with
      ⟨_, first⟩ | first | ⟨_, _, _, first⟩ <;>
    rcases sign.cases with second | ⟨_, second⟩ | second | ⟨_, _, _, second⟩ <;>
    rw [first, second] at less <;>
    cases less

/-! ## Growth -/

/-- A positive bound is converted to the nearest number of 53 digits. -/
theorem unpack_toFloat {n : Nat} (positive : 0 < n) (small : n < cycleLimit) :
    ∃ nonzero, n.toUInt64.toFloat.toModel.unpack =
      .finite .positive (nearest n).1 (nearest n).2 nonzero := by
  have wide : n.toUInt64.toNat = n := Nat.mod_eq_of_lt small
  obtain ⟨nonzero, converted⟩ := ofNat_eq_nearest positive
  refine ⟨nonzero, ?_⟩
  change UnpackedFloat.unpack .binary64
    (UnpackedFloat.pack .binary64 (UnpackedFloat.ofNat .binary64 n.toUInt64.toNat)) = _
  rw [wide, converted]
  obtain ⟨lower, upper⟩ := nearest_bounds positive
  have places := nearest_exponent n
  have size : n.log2 < 64 := (Nat.log2_lt (Nat.ne_of_gt positive)).mpr small
  exact unpack_pack_finite _ _ lower upper (by omega) (by omega)

/-- A difference that is not above zero is not rounded to one that is. -/
theorem normalize_atMostZero (spec : Format) {m : Int} (sign : m ≤ 0) (e : Int) (zeroSign : Sign) :
    AtMostZero (UnpackedFloat.normalize spec m e zeroSign) := by
  unfold UnpackedFloat.normalize
  rcases Int.lt_or_eq_of_le sign with negative | rfl
  · rw [Int.compare_eq_lt.mpr negative]
    exact roundWithAccuracy_atMostZero ..
  · trivial

/-- The difference of two numbers of 53 digits is not above zero, if the first is no larger. -/
theorem sub_atMostZero {m n : Nat} {e f : Int} (small : 0 < m) (large : 0 < n)
    (upper : m < 2 ^ 53) (lower : 2 ^ 52 ≤ n) (order : e < f ∨ e = f ∧ m ≤ n) :
    AtMostZero (UnpackedFloat.sub .binary64 (.finite .positive m e small)
      (.finite .positive n f large)) := by
  have smaller : m <<< (e - min e f).toNat ≤ n <<< (f - min e f).toNat := by
    rcases order with less | ⟨rfl, fewer⟩
    · -- A larger exponent outweighs all digits.
      have first : (e - min e f).toNat = 0 := by omega
      obtain ⟨places, second⟩ : ∃ places, (f - min e f).toNat = places + 1 :=
        ⟨(f - min e f).toNat - 1, by omega⟩
      have power := Nat.two_pow_pos places
      rw [first, second, Nat.shiftLeft_zero, Nat.shiftLeft_eq, Nat.pow_succ]
      calc m ≤ n * 2 := by omega
        _ ≤ n * (2 ^ places * 2) := Nat.mul_le_mul_left n (by omega)
    · rw [Nat.shiftLeft_eq, Nat.shiftLeft_eq]
      exact Nat.mul_le_mul_right _ fewer
  have sign : ((m <<< (e - min e f).toNat : Nat) : Int) -
      (n <<< (f - min e f).toNat : Nat) ≤ 0 := by omega
  exact normalize_atMostZero _ sign _ _

/-- The growth of a bound that became no larger is not above zero. -/
theorem degradationPercent_atMostZero {old new : Nat} (lower : new ≤ old)
    (small : old < cycleLimit) : AtMostZero (degradationPercent old new).toModel.unpack := by
  unfold degradationPercent
  by_cases nothing : old = 0
  · rw [if_pos nothing, if_pos (by omega)]
    trivial
  rw [if_neg nothing]
  obtain ⟨_, before⟩ := unpack_toFloat (by omega : 0 < old) small
  have difference : AtMostZero
      (new.toUInt64.toFloat - old.toUInt64.toFloat).toModel.unpack := by
    refine unpack_pack_atMostZero ?_
    rw [before]
    by_cases gone : new = 0
    · subst gone
      trivial
    · obtain ⟨_, after⟩ := unpack_toFloat (by omega : 0 < new) (by omega)
      rw [after]
      exact sub_atMostZero _ _ (nearest_bounds (by omega)).2 (nearest_bounds (by omega)).1
        (nearest_mono (by omega) lower)
  have quotient : AtMostZero ((new.toUInt64.toFloat - old.toUInt64.toFloat) /
      old.toUInt64.toFloat).toModel.unpack := by
    refine unpack_pack_atMostZero ?_
    rw [before]
    exact div_atMostZero _ difference _
  exact unpack_pack_atMostZero (mul_atMostZero _ quotient _)

/-- A bound that became no larger exceeds no allowance that is at least zero. -/
theorem degradationPercent_within {old new : Nat} {limit : Float} (lower : new ≤ old)
    (small : old < cycleLimit) (nonnegative : 0.0 ≤ limit) :
    ¬ degradationPercent old new > limit :=
  not_lt_of_atMostZero nonnegative (degradationPercent_atMostZero lower small)

end Timebound
