import Disvm.PowersModTwo
import Mathlib.Data.BitVec

/-!
# Exponentiation

The instructions `expw` and `expl` square the base and halve the power, and take the
reciprocal of the result where the power was negative.  What they compute wraps around in
the width of the base.
-/

namespace Disvm.Exponentiation

open PowersModTwo

abbrev Word := BitVec 32

/-- How an instruction ends: with a result, with an error of the VM, or with a division by
zero of the machine. -/
inductive Outcome (width : ℕ) where
  | result (value : BitVec width)
  | divideByZero
  | machineDivideByZero
  deriving DecidableEq, Repr

section Instructions

variable {width : ℕ}

/-- The loop over the bits of the power, at most as often as there is fuel. -/
def expLoop : ℕ → BitVec width → Word → BitVec width → Option (BitVec width)
  | 0, _, _, _ => none
  | fuel + 1, base, power, result =>
      let result := if power &&& 1#32 ≠ 0#32 then result * base else result
      let power := power.sshiftRight 1
      if power = 0#32 then some result else expLoop fuel (base * base) power result

/-- `1 / result` of the machine. -/
def reciprocal (result : BitVec width) : Outcome width :=
  if result = BitVec.ofNat width 0 then .machineDivideByZero
  else .result ((BitVec.ofNat width 1).sdiv result)

/-- `_exp`, if it ends with that much fuel.  The negation wraps around. -/
def exp (fuel : ℕ) (base : BitVec width) (power : Word) : Option (Outcome width) :=
  let inverse := power.slt 0#32
  let power := if inverse then -power else power
  (expLoop fuel base power (BitVec.ofNat width 1)).map fun result =>
    if inverse then reciprocal result else .result result

end Instructions

def expw (fuel : ℕ) (base : BitVec 32) (power : Word) : Option (Outcome 32) :=
  exp fuel base power

def expl (fuel : ℕ) (base : BitVec 64) (power : Word) : Option (Outcome 64) :=
  exp fuel base power

section Loop

variable {width : ℕ}

theorem sshiftRight_of_nonneg {power : Word} (nonneg : power.msb = false) :
    (power.sshiftRight 1).toNat = power.toNat / 2 := by
  rw [BitVec.sshiftRight_eq_of_msb_false nonneg, BitVec.toNat_ushiftRight,
    Nat.shiftRight_eq_div_pow, pow_one]

theorem msb_sshiftRight (power : Word) : (power.sshiftRight 1).msb = power.msb :=
  BitVec.msb_sshiftRight

/-- What one turn leaves to be done is what there was to do. -/
theorem mul_pow_step (base : BitVec width) (power : Word) (result : BitVec width) :
    (if power &&& 1#32 ≠ 0#32 then result * base else result) *
        (base * base) ^ (power.toNat / 2) = result * base ^ power.toNat := by
  have lastBit : (power &&& 1#32).toNat = power.toNat % 2 := by
    rw [BitVec.toNat_and]
    exact Nat.and_one_is_mod _
  have halves := Nat.div_add_mod power.toNat 2
  rw [← sq, ← pow_mul]
  by_cases isOdd : power &&& 1#32 ≠ 0#32
  · have remainder : power.toNat % 2 = 1 := by
      have notZero : power.toNat % 2 ≠ 0 := fun isZero =>
        isOdd (BitVec.eq_of_toNat_eq (lastBit.trans isZero))
      omega
    rw [if_pos isOdd, mul_assoc, ← pow_succ', show 2 * (power.toNat / 2) + 1 = power.toNat by omega]
  · have remainder : power.toNat % 2 = 0 := by
      rw [← lastBit, not_not.mp isOdd]
      rfl
    rw [if_neg isOdd, show 2 * (power.toNat / 2) = power.toNat by omega]

/-- A power that is not negative is used up, and the result is multiplied by that power of
the base. -/
theorem expLoop_eq {fuel : ℕ} (base : BitVec width) {power : Word} (result : BitVec width)
    (nonneg : power.msb = false) (enough : power.toNat < 2 ^ (fuel + 1)) :
    expLoop (fuel + 1) base power result = some (result * base ^ power.toNat) := by
  induction fuel generalizing base power result with
  | zero =>
      have isZero : power.sshiftRight 1 = 0#32 := by
        apply BitVec.eq_of_toNat_eq
        rw [sshiftRight_of_nonneg nonneg]
        exact Nat.div_eq_of_lt enough
      have half : power.toNat / 2 = 0 := Nat.div_eq_of_lt enough
      have step := mul_pow_step base power result
      rw [half, pow_zero, mul_one] at step
      rw [expLoop, if_pos isZero, step]
  | succ fuel ih =>
      rw [expLoop]
      by_cases isZero : power.sshiftRight 1 = 0#32
      · have half : power.toNat / 2 = 0 := by
          rw [← sshiftRight_of_nonneg nonneg, isZero]
          rfl
        have step := mul_pow_step base power result
        rw [half, pow_zero, mul_one] at step
        rw [if_pos isZero, step]
      · have stillNonneg : (power.sshiftRight 1).msb = false := by
          rw [msb_sshiftRight, nonneg]
        have less : (power.sshiftRight 1).toNat < 2 ^ (fuel + 1) := by
          rw [sshiftRight_of_nonneg nonneg]
          rw [pow_succ] at enough
          omega
        rw [if_neg isZero, ih _ _ stillNonneg less, sshiftRight_of_nonneg nonneg, mul_pow_step]

/-- A negative power is never used up. -/
theorem expLoop_negative (fuel : ℕ) (base : BitVec width) {power : Word} (result : BitVec width)
    (negative : power.msb = true) : expLoop fuel base power result = none := by
  induction fuel generalizing base power result with
  | zero => rfl
  | succ fuel ih =>
      have stillNegative : (power.sshiftRight 1).msb = true := by
        rw [msb_sshiftRight, negative]
      have notZero : power.sshiftRight 1 ≠ 0#32 := by
        intro isZero
        rw [isZero] at stillNegative
        cases stillNegative
      rw [expLoop, if_neg notZero]
      exact ih _ _ stillNegative

theorem expLoop_succ {fuel : ℕ} {base : BitVec width} {power : Word} {result found : BitVec width}
    (ends : expLoop fuel base power result = some found) :
    expLoop (fuel + 1) base power result = some found := by
  induction fuel generalizing base power result with
  | zero => cases ends
  | succ fuel ih =>
      rw [expLoop] at ends ⊢
      split at ends
      · rename_i isZero
        rw [if_pos isZero]
        exact ends
      · rename_i notZero
        rw [if_neg notZero]
        exact ih ends

theorem exp_succ {fuel : ℕ} {base : BitVec width} {power : Word} {outcome : Outcome width}
    (ends : exp fuel base power = some outcome) : exp (fuel + 1) base power = some outcome := by
  obtain ⟨result, isResult, isOutcome⟩ := Option.map_eq_some_iff.mp ends
  exact Option.map_eq_some_iff.mpr ⟨result, expLoop_succ isResult, isOutcome⟩

/-- However long the instruction may take, it ends in the same way. -/
theorem exp_mono {fuel more : ℕ} (enough : fuel ≤ more) {base : BitVec width} {power : Word}
    {outcome : Outcome width} (ends : exp fuel base power = some outcome) :
    exp more base power = some outcome := by
  induction enough with
  | refl => exact ends
  | step _ ih => exact exp_succ ih

theorem exp_unique {fuel more : ℕ} {base : BitVec width} {power : Word}
    {first second : Outcome width} (ends : exp fuel base power = some first)
    (alsoEnds : exp more base power = some second) : first = second := by
  have early := exp_mono (Nat.le_max_left fuel more) ends
  have late := exp_mono (Nat.le_max_right fuel more) alsoEnds
  exact Option.some.inj (early.symm.trans late)

end Loop

section Values

variable {width : ℕ}

theorem ofInt_eq_ofInt_iff (first second : ℤ) :
    BitVec.ofInt width first = BitVec.ofInt width second ↔ (2 : ℤ) ^ width ∣ first - second := by
  rw [← BitVec.toInt_inj, BitVec.toInt_ofInt, BitVec.toInt_ofInt,
    Int.bmod_eq_bmod_iff_bmod_sub_eq_zero, ← Int.dvd_iff_bmod_eq_zero, Nat.cast_pow]
  rfl

theorem ofInt_pow (base : ℤ) (exponent : ℕ) :
    BitVec.ofInt width (base ^ exponent) = BitVec.ofInt width base ^ exponent := by
  induction exponent with
  | zero =>
      rw [pow_zero, pow_zero]
      rfl
  | succ exponent ih => rw [pow_succ, pow_succ, BitVec.ofInt_mul, ih]

/-- The power of a base is the power of its integer, wrapped around. -/
theorem pow_eq_ofInt (base : BitVec width) (exponent : ℕ) :
    base ^ exponent = BitVec.ofInt width (base.toInt ^ exponent) := by
  rw [ofInt_pow, BitVec.ofInt_toInt]

theorem tdiv_one {value : ℤ} (large : value.natAbs ≠ 1) : Int.tdiv 1 value = 0 := by
  by_cases isZero : value = 0
  · rw [isZero, Int.tdiv_zero]
  · apply Int.natAbs_eq_zero.mp
    rw [Int.natAbs_tdiv]
    exact Nat.div_eq_of_lt (show 1 < value.natAbs by omega)

/-- The machine divides 1 by the power after it has wrapped around. -/
theorem sdiv_one (result : BitVec width) :
    (BitVec.ofNat width 1).sdiv result =
      BitVec.ofInt width (Int.tdiv (BitVec.ofNat width 1).toInt result.toInt) := by
  apply BitVec.eq_of_toInt_eq
  rw [BitVec.toInt_sdiv, BitVec.toInt_ofInt]

end Values

section Specification

variable {width : ℕ}

/-- The power of the base, or the quotient of 1 by it, and the error for the power of 0
that there is none of. -/
def specified (base : BitVec width) (power : Word) : Outcome width :=
  if 0 ≤ power.toInt then .result (.ofInt width (base.toInt ^ power.toInt.natAbs))
  else if base.toInt = 0 then .divideByZero
  else .result (.ofInt width (Int.tdiv 1 (base.toInt ^ power.toInt.natAbs)))

/-- The power is not negative; or the reciprocal of a base other than 0 is to be taken, with
a power that can be negated and does not wrap around to 0, 1 or -1. -/
def Computable (base : BitVec width) (power : Word) : Prop :=
  0 ≤ power.toInt ∨
    (power ≠ BitVec.intMin 32 ∧ base.toInt ≠ 0 ∧
      (base.toInt.natAbs = 1 ∨ ¬ Collides width base.toInt power.toInt.natAbs))

theorem expLoop_of_nonneg (base : BitVec width) {power : Word} (nonneg : 0 ≤ power.toInt) :
    expLoop 32 base power (BitVec.ofNat width 1) = some (base ^ power.toInt.natAbs) := by
  have noSign : power.msb = false := by
    rw [BitVec.msb_eq_toInt]
    exact decide_eq_false (Int.not_lt.mpr nonneg)
  have isNat : power.toInt = power.toNat := by
    rw [BitVec.toInt_eq_msb_cond, noSign]
    rfl
  rw [expLoop_eq base (BitVec.ofNat width 1) noSign power.isLt, isNat, Int.natAbs_natCast,
    BitVec.one_mul]

theorem exp_of_nonneg (base : BitVec width) {power : Word} (nonneg : 0 ≤ power.toInt) :
    exp 32 base power = some (.result (base ^ power.toInt.natAbs)) := by
  have notInverse : power.slt 0#32 = false := decide_eq_false (Int.not_lt.mpr nonneg)
  rw [exp, notInverse, if_neg Bool.false_ne_true, expLoop_of_nonneg base nonneg]
  rfl

theorem exp_of_negative (base : BitVec width) {power : Word} (negative : power.toInt < 0)
    (other : power ≠ BitVec.intMin 32) :
    exp 32 base power = some (reciprocal (base ^ power.toInt.natAbs)) := by
  have inverse : power.slt 0#32 = true := decide_eq_true negative
  have negated := BitVec.toInt_neg_of_ne_intMin other
  have nonneg : 0 ≤ (-power).toInt := by omega
  have used := expLoop_of_nonneg base nonneg
  rw [negated, Int.natAbs_neg] at used
  rw [exp, inverse, if_pos rfl, used]
  rfl

theorem exp_intMin (fuel : ℕ) (base : BitVec width) :
    exp fuel base (BitVec.intMin 32) = none := by
  rw [exp, if_pos (by decide)]
  exact Option.map_eq_none_iff.mpr (expLoop_negative fuel base (BitVec.ofNat width 1) (by decide))

theorem toInt_ofInt_unit (wide : 3 ≤ width) {value : ℤ} (small : value.natAbs ≤ 1) :
    (BitVec.ofInt width value).toInt = value := by
  have large : 2 ^ 2 ≤ 2 ^ (width - 1) := Nat.pow_le_pow_right (by decide) (by omega)
  apply BitVec.toInt_ofInt_eq_self (by omega)
  · have cast : ((2 ^ (width - 1) : ℕ) : ℤ) = 2 ^ (width - 1) := by push_cast; rfl
    omega
  · have cast : ((2 ^ (width - 1) : ℕ) : ℤ) = 2 ^ (width - 1) := by push_cast; rfl
    omega

theorem reciprocal_of_unit (wide : 3 ≤ width) {value : ℤ} (unit : value.natAbs = 1) :
    reciprocal (BitVec.ofInt width value) = .result (.ofInt width (Int.tdiv 1 value)) := by
  have isValue := toInt_ofInt_unit wide (Nat.le_of_eq unit)
  have notZero : BitVec.ofInt width value ≠ BitVec.ofNat width 0 := by
    intro isZero
    rw [isZero, BitVec.toInt_zero] at isValue
    omega
  rw [reciprocal, if_neg notZero, sdiv_one, isValue, BitVec.toInt_one (by omega)]

/-- The reciprocal is 0 unless it is of 0, 1 or -1. -/
theorem reciprocal_eq_zero_iff (wide : 3 ≤ width) (value : ℤ) :
    reciprocal (BitVec.ofInt width value) = .result (BitVec.ofNat width 0) ↔
      ¬ ((2 : ℤ) ^ width ∣ value ∨ (2 : ℤ) ^ width ∣ value - 1 ∨
        (2 : ℤ) ^ width ∣ value + 1) := by
  have same : ∀ other, (2 : ℤ) ^ width ∣ value - other ↔
      BitVec.ofInt width value = BitVec.ofInt width other := fun other =>
    (ofInt_eq_ofInt_iff value other).symm
  have notResult : ∀ {unit : ℤ}, unit.natAbs = 1 →
      reciprocal (BitVec.ofInt width unit) ≠ .result (BitVec.ofNat width 0) := by
    intro unit isUnit isZero
    rw [reciprocal_of_unit wide isUnit] at isZero
    have quotient : BitVec.ofInt width (Int.tdiv 1 unit) = BitVec.ofNat width 0 := by
      injection isZero
    have unitQuotient : (Int.tdiv 1 unit).natAbs = 1 := by
      rw [Int.natAbs_tdiv, isUnit]
      rfl
    have isQuotient := toInt_ofInt_unit wide (Nat.le_of_eq unitQuotient)
    rw [quotient, BitVec.toInt_zero] at isQuotient
    omega
  have zero := same 0
  rw [sub_zero] at zero
  have minusOne := same (-1)
  rw [sub_neg_eq_add] at minusOne
  rw [zero, same 1, minusOne]
  constructor
  · rintro isZero (same | same | same)
    · rw [same] at isZero
      cases isZero
    · rw [same] at isZero
      exact notResult rfl isZero
    · rw [same] at isZero
      exact notResult rfl isZero
  · intro none
    obtain ⟨notZero, notOne, notMinusOne⟩ : _ ∧ _ ∧ _ := by
      rwa [not_or, not_or] at none
    have noUnit : (BitVec.ofInt width value).toInt.natAbs ≠ 1 := by
      intro isUnit
      rcases Int.natAbs_eq_iff.mp isUnit with isOne | isMinusOne
      · apply notOne
        apply BitVec.eq_of_toInt_eq
        rw [isOne, toInt_ofInt_unit wide (show (1 : ℤ).natAbs ≤ 1 by decide)]
        rfl
      · apply notMinusOne
        apply BitVec.eq_of_toInt_eq
        rw [isMinusOne, toInt_ofInt_unit wide (show (-1 : ℤ).natAbs ≤ 1 by decide)]
        rfl
    have someBit : BitVec.ofInt width value ≠ BitVec.ofNat width 0 := notZero
    rw [reciprocal, if_neg someBit, sdiv_one, BitVec.toInt_one (by omega), tdiv_one noUnit]
    rfl

/-- The reciprocal of a wrapped power is that of the power, unless the wrapped one is 0, 1
or -1 where the power is not. -/
theorem reciprocal_iff (wide : 3 ≤ width) (base : BitVec width) {power : Word}
    (negative : power.toInt < 0) :
    reciprocal (base ^ power.toInt.natAbs) = specified base power ↔
      base.toInt ≠ 0 ∧
        (base.toInt.natAbs = 1 ∨ ¬ Collides width base.toInt power.toInt.natAbs) := by
  have positive : 0 < power.toInt.natAbs := by omega
  rw [pow_eq_ofInt, specified, if_neg (Int.not_le.mpr negative)]
  by_cases isZero : base.toInt = 0
  · rw [if_pos isZero]
    refine iff_of_false (fun same => ?_) fun both => both.1 isZero
    unfold reciprocal at same
    split at same <;> cases same
  · rw [if_neg isZero, and_iff_right isZero]
    by_cases isUnit : base.toInt.natAbs = 1
    · refine iff_of_true (reciprocal_of_unit wide ?_) (Or.inl isUnit)
      rw [Int.natAbs_pow, isUnit, Nat.one_pow]
    · have large : 1 < base.toInt.natAbs := by omega
      have small : base.toInt.natAbs + 1 < 2 ^ width := by
        obtain ⟨more, rfl⟩ : ∃ more, width = more + 3 := ⟨width - 3, by omega⟩
        have above := BitVec.le_toInt base
        have below := @BitVec.toInt_lt _ base
        have many : 1 ≤ 2 ^ more := Nat.one_le_two_pow
        have cast : ((2 ^ more : ℕ) : ℤ) = 2 ^ more := by push_cast; rfl
        rw [show more + 3 - 1 = more + 2 from rfl, pow_add] at above below
        rw [pow_add]
        omega
      have powLarge : (base.toInt ^ power.toInt.natAbs).natAbs ≠ 1 := by
        rw [Int.natAbs_pow]
        exact Nat.ne_of_gt (Nat.one_lt_pow (by omega) large)
      rw [or_iff_right isUnit, ← collides_iff small large positive, tdiv_one powLarge]
      exact reciprocal_eq_zero_iff wide _

theorem computes_iff (wide : 3 ≤ width) (base : BitVec width) (power : Word) :
    (∃ fuel, exp fuel base power = some (specified base power)) ↔ Computable base power := by
  by_cases nonneg : 0 ≤ power.toInt
  · refine iff_of_true ⟨32, ?_⟩ (Or.inl nonneg)
    rw [exp_of_nonneg base nonneg, specified, if_pos nonneg, pow_eq_ofInt]
  · have negative : power.toInt < 0 := Int.not_le.mp nonneg
    rw [Computable, or_iff_right nonneg]
    by_cases isMin : power = BitVec.intMin 32
    · refine iff_of_false ?_ fun both => both.1 isMin
      rintro ⟨fuel, ends⟩
      rw [isMin, exp_intMin] at ends
      cases ends
    · rw [and_iff_right isMin, ← reciprocal_iff wide base negative]
      have ends := exp_of_negative base negative isMin
      constructor
      · rintro ⟨fuel, alsoEnds⟩
        exact exp_unique ends alsoEnds
      · intro same
        exact ⟨32, ends.trans (congrArg some same)⟩

end Specification

/-- The instructions compute the power exactly where it is computable. -/
theorem exp_computes_iff (power : Word) :
    (∀ base, (∃ fuel, expw fuel base power = some (specified base power)) ↔
      Computable base power) ∧
    ∀ base, (∃ fuel, expl fuel base power = some (specified base power)) ↔
      Computable base power :=
  ⟨fun base => computes_iff (by decide) base power, fun base => computes_iff (by decide) base power⟩

/-- Two to the power of -32 is a division by zero of the machine. -/
theorem reciprocal_of_wrapped_power :
    ¬ ∀ (base : BitVec 32) (power : Word),
      ∃ fuel, expw fuel base power = some (specified base power) := by
  intro computes
  obtain ⟨fuel, ends⟩ := computes 2#32 (-32)
  have found : exp 32 2#32 (-32) = some .machineDivideByZero := by decide
  have same := exp_unique found ends
  revert same
  decide

end Disvm.Exponentiation
