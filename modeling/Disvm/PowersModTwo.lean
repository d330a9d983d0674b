import Mathlib.NumberTheory.Multiplicity
import Mathlib.NumberTheory.Padics.PadicVal.Basic
import Mathlib.Tactic.LinearCombination

/-!
# Powers modulo a power of two

When a power of an integer is 0, 1 or -1 modulo a power of two, by the numbers of factors
two in the base, in its neighbours and in the exponent.
-/

namespace Disvm.PowersModTwo

variable {width exponent : ℕ} {base : ℤ}

/-- The number of factors two. -/
def twos (value : ℤ) : ℕ :=
  padicValInt 2 value

theorem two_pow_dvd_iff {value : ℤ} (nonzero : value ≠ 0) :
    (2 : ℤ) ^ width ∣ value ↔ width ≤ twos value :=
  (padicValInt_dvd_iff width value).trans (or_iff_right nonzero)

theorem twos_mul {first second : ℤ} (firstNonzero : first ≠ 0) (secondNonzero : second ≠ 0) :
    twos (first * second) = twos first + twos second :=
  padicValInt.mul firstNonzero secondNonzero

theorem twos_pow (nonzero : base ≠ 0) (exponent : ℕ) :
    twos (base ^ exponent) = exponent * twos base := by
  induction exponent with
  | zero =>
      rw [pow_zero, Nat.zero_mul]
      exact padicValInt.one
  | succ exponent ih =>
      rw [pow_succ, twos_mul (pow_ne_zero exponent nonzero) nonzero, ih, Nat.succ_mul]

/-- The exponent is large enough for a power that is 0, 1 or -1. -/
def Collides (width : ℕ) (base : ℤ) (exponent : ℕ) : Prop :=
  if 2 ∣ base then width ≤ exponent * twos base
  else width < twos ((base + 1) * (base - 1)) + twos exponent

theorem not_dvd_of_small {value : ℤ} (nonzero : value ≠ 0) (small : value.natAbs < 2 ^ width) :
    ¬ (2 : ℤ) ^ width ∣ value := by
  intro divides
  apply nonzero
  apply Int.eq_zero_of_dvd_of_natAbs_lt_natAbs divides
  rw [Int.natAbs_pow]
  exact small

/-- One of the neighbours is not divisible by 4. -/
theorem twos_neighbours (small : base.natAbs + 1 < 2 ^ width) (notOne : base ≠ 1)
    (notMinusOne : base ≠ -1) : twos ((base + 1) * (base - 1)) ≤ width := by
  have above : base + 1 ≠ 0 := by omega
  have below : base - 1 ≠ 0 := by omega
  have aboveSmall : ¬ (2 : ℤ) ^ width ∣ base + 1 := not_dvd_of_small above (by omega)
  have belowSmall : ¬ (2 : ℤ) ^ width ∣ base - 1 := not_dvd_of_small below (by omega)
  have quarter : ∀ {value : ℤ}, value ≠ 0 → ¬ (4 : ℤ) ∣ value → twos value < 2 := by
    intro value nonzero notFour
    by_contra atLeastTwo
    exact notFour ((two_pow_dvd_iff nonzero).mpr (Nat.le_of_not_lt atLeastTwo))
  rw [two_pow_dvd_iff above] at aboveSmall
  rw [two_pow_dvd_iff below] at belowSmall
  rw [twos_mul above below]
  rcases (show ¬ (4 : ℤ) ∣ base + 1 ∨ ¬ (4 : ℤ) ∣ base - 1 by omega) with notAbove | notBelow
  · have few := quarter above notAbove
    omega
  · have few := quarter below notBelow
    omega

section Odd

variable (isOdd : ¬ (2 : ℤ) ∣ base)

include isOdd

theorem not_two_dvd_pow (exponent : ℕ) : ¬ (2 : ℤ) ∣ base ^ exponent :=
  fun divides => isOdd (Int.prime_two.dvd_of_dvd_pow divides)

theorem dvd_pow_sub_one_of_odd (oddExponent : ¬ 2 ∣ exponent) :
    (2 : ℤ) ^ width ∣ base ^ exponent - 1 ↔ (2 : ℤ) ^ width ∣ base - 1 := by
  have near : (2 : ℤ) ∣ base - 1 := by omega
  have oddCast : ¬ (2 : ℤ) ∣ (exponent : ℤ) := by omega
  have same := emultiplicity_pow_sub_pow_of_prime Int.prime_two near isOdd oddCast
  rw [one_pow] at same
  rw [pow_dvd_iff_le_emultiplicity, pow_dvd_iff_le_emultiplicity, same]

theorem dvd_pow_sub_one_of_even (evenExponent : Even exponent) :
    (2 : ℤ) ^ width ∣ base ^ exponent - 1 ↔
      (2 : ℤ) ^ (width + 1) ∣ (base + 1) * (base - 1) * exponent := by
  have near : (2 : ℤ) ∣ base - 1 := by omega
  have lifted := Int.two_pow_sub_pow near isOdd evenExponent
  rw [one_pow, ← emultiplicity_mul Int.prime_two, ← emultiplicity_mul Int.prime_two] at lifted
  rw [pow_dvd_iff_le_emultiplicity, pow_dvd_iff_le_emultiplicity, ← lifted, Nat.cast_add,
    Nat.cast_one]
  exact (ENat.add_le_add_iff_right ENat.one_ne_top).symm

/-- An even power of an odd number is 1 modulo 4. -/
theorem not_dvd_pow_add_one_of_even (evenExponent : Even exponent) (wide : 2 ≤ width) :
    ¬ (2 : ℤ) ^ width ∣ base ^ exponent + 1 := by
  obtain ⟨half, rfl⟩ := evenExponent
  have isSquare : base ^ (half + half) = (base ^ half) ^ 2 := by
    rw [← pow_mul, Nat.mul_two]
  have odd : Odd (base ^ half) :=
    Int.not_even_iff_odd.mp fun even => not_two_dvd_pow isOdd half (even_iff_two_dvd.mp even)
  have remainder := Int.sq_mod_four_eq_one_of_odd odd
  intro divides
  have byFour : (4 : ℤ) ∣ (base ^ half) ^ 2 + 1 := by
    rw [← isSquare]
    exact dvd_trans (pow_dvd_pow 2 wide) divides
  omega

theorem collides_of_odd (small : base.natAbs + 1 < 2 ^ width) (notOne : base ≠ 1)
    (notMinusOne : base ≠ -1) (positive : 0 < exponent) :
    ((2 : ℤ) ^ width ∣ base ^ exponent - 1 ∨ (2 : ℤ) ^ width ∣ base ^ exponent + 1) ↔
      width < twos ((base + 1) * (base - 1)) + twos exponent := by
  have wide : 2 ≤ width := by
    by_contra narrow
    have atMost := Nat.pow_le_pow_right (show 0 < 2 by decide) (show width ≤ 1 by omega)
    omega
  have nonzero : (base + 1) * (base - 1) ≠ 0 := mul_ne_zero (by omega) (by omega)
  rcases Nat.even_or_odd exponent with isEven | oddExponent
  · have exponentNonzero : (exponent : ℤ) ≠ 0 := by omega
    rw [or_iff_left (not_dvd_pow_add_one_of_even isOdd isEven wide),
      dvd_pow_sub_one_of_even isOdd isEven, two_pow_dvd_iff (mul_ne_zero nonzero exponentNonzero),
      twos_mul nonzero exponentNonzero]
    rfl
  · have notEven : ¬ 2 ∣ exponent := fun divides =>
      Nat.not_even_iff_odd.mpr oddExponent (even_iff_two_dvd.mpr divides)
    have noTwos : twos exponent = 0 := by
      by_contra some
      have divides : (2 : ℤ) ^ 1 ∣ exponent :=
        (two_pow_dvd_iff (by omega)).mpr (Nat.one_le_iff_ne_zero.mpr some)
      omega
    refine iff_of_false ?_ ?_
    · rintro (divides | divides)
      · rw [dvd_pow_sub_one_of_odd isOdd notEven] at divides
        exact not_dvd_of_small (by omega) (by omega) divides
      · have negated : (2 : ℤ) ^ width ∣ (-base) ^ exponent - 1 := by
          rw [oddExponent.neg_pow, ← neg_add']
          exact (dvd_neg).mpr divides
        rw [dvd_pow_sub_one_of_odd (by omega) notEven] at negated
        exact not_dvd_of_small (by omega) (by omega) negated
    · rw [noTwos, Nat.add_zero]
      exact Nat.not_lt_of_le (twos_neighbours small notOne notMinusOne)

end Odd

/-- A power of a number other than 0, 1 and -1 is one of them modulo the power of two
exactly when the exponent is large enough for it. -/
theorem collides_iff (small : base.natAbs + 1 < 2 ^ width) (large : 1 < base.natAbs)
    (positive : 0 < exponent) :
    ((2 : ℤ) ^ width ∣ base ^ exponent ∨ (2 : ℤ) ^ width ∣ base ^ exponent - 1 ∨
      (2 : ℤ) ^ width ∣ base ^ exponent + 1) ↔ Collides width base exponent := by
  have someTwo : (2 : ℤ) ∣ 2 ^ width := by
    apply dvd_pow_self
    rintro rfl
    omega
  by_cases isEven : (2 : ℤ) ∣ base
  · have powEven : (2 : ℤ) ∣ base ^ exponent := dvd_pow isEven (by omega)
    rw [Collides, if_pos isEven, two_pow_dvd_iff (pow_ne_zero exponent (by omega)),
      twos_pow (by omega)]
    apply or_iff_left
    rintro (divides | divides)
    · have alsoEven := dvd_trans someTwo divides
      omega
    · have alsoEven := dvd_trans someTwo divides
      omega
  · rw [Collides, if_neg isEven, ← collides_of_odd isEven small (by omega) (by omega) positive]
    apply or_iff_right
    intro divides
    exact not_two_dvd_pow isEven exponent (dvd_trans someTwo divides)

end Disvm.PowersModTwo
