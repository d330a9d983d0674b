import Mathlib.Data.BitVec

/-!
# Integer division

The instructions for quotients and remainders in three widths.  A zero divisor is an error of
the VM; otherwise the operands are left to the machine, which traps when the quotient of
signed operands overflows.
-/

namespace Disvm.Division

/-- How an instruction ends. -/
inductive Outcome (width : ℕ) where
  | result (value : BitVec width)
  | divideByZero
  | machineTrap
  deriving DecidableEq, Repr

section Instructions

variable {width : ℕ}

/-- The quotient of the machine does not fit its width. -/
def Overflows (signed : Bool) (mid denom : BitVec width) : Prop :=
  signed = true ∧ mid = BitVec.intMin width ∧ denom = -1

instance (signed : Bool) (mid denom : BitVec width) : Decidable (Overflows signed mid denom) :=
  inferInstanceAs (Decidable (_ ∧ _))

def quotient (signed : Bool) (mid denom : BitVec width) : BitVec width :=
  if signed then mid.sdiv denom else mid / denom

def remainder (signed : Bool) (mid denom : BitVec width) : BitVec width :=
  if signed then mid.srem denom else mid % denom

/-- `_div`. -/
def div (signed : Bool) (mid denom : BitVec width) : Outcome width :=
  if denom = 0 then .divideByZero
  else if Overflows signed mid denom then .machineTrap
  else .result (quotient signed mid denom)

/-- `_mod`.  The machine has no remainder where it has no quotient. -/
def mod (signed : Bool) (mid denom : BitVec width) : Outcome width :=
  if denom = 0 then .divideByZero
  else if Overflows signed mid denom then .machineTrap
  else .result (remainder signed mid denom)

end Instructions

def divb (mid src : BitVec 8) : Outcome 8 :=
  div false mid src

def divw (mid src : BitVec 32) : Outcome 32 :=
  div true mid src

def divl (mid src : BitVec 64) : Outcome 64 :=
  div true mid src

def modb (mid src : BitVec 8) : Outcome 8 :=
  mod false mid src

def modw (mid src : BitVec 32) : Outcome 32 :=
  mod true mid src

def modl (mid src : BitVec 64) : Outcome 64 :=
  mod true mid src

section Law

variable {width : ℕ}

/-- The number that an operand stands for. -/
def value (signed : Bool) (operand : BitVec width) : ℤ :=
  if signed then operand.toInt else operand.toNat

/-- What a quotient and a remainder have to do with the operands. -/
structure Divides (signed : Bool) (n d q r : BitVec width) : Prop where
  sum : q * d + r = n
  small : (value signed r).natAbs < (value signed d).natAbs
  sign : r = 0 ∨ (value signed r).sign = (value signed n).sign

/-- A pair of instructions divides, and the error is for zero divisors. -/
structure DivisionLaw (signed : Bool)
    (quotientOf remainderOf : BitVec width → BitVec width → Outcome width)
    (n d : BitVec width) : Prop where
  divError : quotientOf n d = .divideByZero ↔ d = 0
  modError : remainderOf n d = .divideByZero ↔ d = 0
  results : d ≠ 0 → ∃ q r, quotientOf n d = .result q ∧ remainderOf n d = .result r ∧
    Divides signed n d q r

variable {n d : BitVec width}

theorem toInt_ne_zero (nonzero : d ≠ 0) : d.toInt ≠ 0 := by
  intro isZero
  apply nonzero
  apply BitVec.eq_of_toInt_eq
  rw [isZero]
  exact BitVec.toInt_zero.symm

theorem sdiv_eq_ofInt (n d : BitVec width) :
    n.sdiv d = BitVec.ofInt width (n.toInt.tdiv d.toInt) := by
  apply BitVec.eq_of_toInt_eq
  rw [BitVec.toInt_sdiv, BitVec.toInt_ofInt]

theorem srem_eq_ofInt (n d : BitVec width) :
    n.srem d = BitVec.ofInt width (n.toInt.tmod d.toInt) := by
  rw [← BitVec.toInt_srem, BitVec.ofInt_toInt]

theorem divides_signed (nonzero : d ≠ 0) : Divides true n d (n.sdiv d) (n.srem d) := by
  have isDivisor := toInt_ne_zero nonzero
  constructor
  · have products : BitVec.ofInt width (n.toInt.tdiv d.toInt * d.toInt) =
        BitVec.ofInt width (n.toInt.tdiv d.toInt) * d := by
      rw [BitVec.ofInt_mul, BitVec.ofInt_toInt]
    rw [sdiv_eq_ofInt, srem_eq_ofInt, ← products, ← BitVec.ofInt_add, Int.tdiv_mul_add_tmod,
      BitVec.ofInt_toInt]
  · change (n.srem d).toInt.natAbs < d.toInt.natAbs
    rw [BitVec.toInt_srem, Int.natAbs_tmod]
    exact Nat.mod_lt _ (Int.natAbs_pos.mpr isDivisor)
  · by_cases divides : d.toInt ∣ n.toInt
    · left
      rw [srem_eq_ofInt, Int.tmod_eq_zero_of_dvd divides]
      rfl
    · right
      change (n.srem d).toInt.sign = n.toInt.sign
      rw [BitVec.toInt_srem, Int.sign_tmod, if_neg divides]

theorem divides_unsigned (nonzero : d ≠ 0) : Divides false n d (n / d) (n % d) := by
  have isDivisor : 0 < d.toNat := Nat.pos_of_ne_zero fun isZero =>
    nonzero (BitVec.eq_of_toNat_eq isZero)
  constructor
  · apply BitVec.eq_of_toNat_eq
    rw [BitVec.toNat_add, BitVec.toNat_mul, BitVec.toNat_udiv, BitVec.toNat_umod,
      Nat.mod_add_mod, Nat.div_add_mod']
    exact Nat.mod_eq_of_lt n.isLt
  · change (Int.natAbs ((n % d).toNat : ℤ)) < Int.natAbs (d.toNat : ℤ)
    rw [Int.natAbs_natCast, Int.natAbs_natCast, BitVec.toNat_umod]
    exact Nat.mod_lt _ isDivisor
  · by_cases isZero : n % d = 0
    · exact Or.inl isZero
    · right
      change ((n % d).toNat : ℤ).sign = (n.toNat : ℤ).sign
      have positive : 0 < (n % d).toNat := Nat.pos_of_ne_zero fun noRest =>
        isZero (BitVec.eq_of_toNat_eq noRest)
      have part : (n % d).toNat ≤ n.toNat := by
        rw [BitVec.toNat_umod]
        exact Nat.mod_le _ _
      rw [Int.sign_eq_one_of_pos (Int.natCast_pos.mpr positive),
        Int.sign_eq_one_of_pos (Int.natCast_pos.mpr (Nat.lt_of_lt_of_le positive part))]

theorem divides (signed : Bool) (nonzero : d ≠ 0) :
    Divides signed n d (quotient signed n d) (remainder signed n d) := by
  cases signed with
  | false => exact divides_unsigned nonzero
  | true => exact divides_signed nonzero

theorem div_error (signed : Bool) (n d : BitVec width) :
    div signed n d = .divideByZero ↔ d = 0 := by
  unfold div
  split_ifs with isZero
  · exact ⟨fun _ => isZero, fun _ => rfl⟩
  · exact ⟨nofun, fun same => absurd same isZero⟩
  · exact ⟨nofun, fun same => absurd same isZero⟩

theorem mod_error (signed : Bool) (n d : BitVec width) :
    mod signed n d = .divideByZero ↔ d = 0 := by
  unfold mod
  split_ifs with isZero
  · exact ⟨fun _ => isZero, fun _ => rfl⟩
  · exact ⟨nofun, fun same => absurd same isZero⟩
  · exact ⟨nofun, fun same => absurd same isZero⟩

theorem neg_one_ne_zero (wide : 0 < width) : (-1 : BitVec width) ≠ 0 := by
  intro isZero
  have same := congrArg BitVec.toNat (BitVec.neg_eq_zero_iff.mp isZero)
  change 1 % 2 ^ width = 0 % 2 ^ width at same
  rw [Nat.mod_eq_of_lt (Nat.one_lt_two_pow (Nat.pos_iff_ne_zero.mp wide)), Nat.zero_mod] at same
  exact absurd same Nat.one_ne_zero

/-- The law holds unless the quotient overflows, where the machine traps. -/
theorem divisionLaw_iff (signed : Bool) (n d : BitVec width) (wide : 0 < width) :
    DivisionLaw signed (div signed) (mod signed) n d ↔ ¬ Overflows signed n d := by
  constructor
  · rintro law overflows
    have nonzero : d ≠ 0 := by
      rw [overflows.2.2]
      exact neg_one_ne_zero wide
    obtain ⟨q, r, isQuotient, -⟩ := law.results nonzero
    rw [div, if_neg nonzero, if_pos overflows] at isQuotient
    cases isQuotient
  · intro fits
    constructor
    · exact div_error signed n d
    · exact mod_error signed n d
    · intro nonzero
      refine ⟨quotient signed n d, remainder signed n d, ?_, ?_, divides signed nonzero⟩
      · rw [div, if_neg nonzero, if_neg fits]
      · rw [mod, if_neg nonzero, if_neg fits]

theorem not_overflows_unsigned (n d : BitVec width) : ¬ Overflows false n d :=
  fun overflows => Bool.false_ne_true overflows.1

theorem overflows_signed (n d : BitVec width) :
    Overflows true n d ↔ n = BitVec.intMin width ∧ d = -1 :=
  and_iff_right rfl

/-- Bytes always divide; words and bigs divide unless the least one is divided by -1. -/
theorem division_laws_iff (nb db : BitVec 8) (nw dw : BitVec 32) (nl dl : BitVec 64) :
    DivisionLaw false divb modb nb db ∧
      (DivisionLaw true divw modw nw dw ↔ ¬ (nw = BitVec.intMin 32 ∧ dw = -1)) ∧
      (DivisionLaw true divl modl nl dl ↔ ¬ (nl = BitVec.intMin 64 ∧ dl = -1)) := by
  refine ⟨?_, ?_, ?_⟩
  · exact (divisionLaw_iff false nb db (by decide)).mpr (not_overflows_unsigned nb db)
  · rw [← overflows_signed]
    exact divisionLaw_iff true nw dw (by decide)
  · rw [← overflows_signed]
    exact divisionLaw_iff true nl dl (by decide)

/-- The machine traps. -/
theorem divw_not_divisionLaw : ¬ DivisionLaw true divw modw (BitVec.intMin 32) (-1) := by
  intro law
  obtain ⟨q, r, isQuotient, -⟩ := law.results (by decide)
  have traps : divw (BitVec.intMin 32) (-1) = .machineTrap := by decide
  rw [traps] at isQuotient
  cases isQuotient

end Law

end Disvm.Division
