import Disvm.ModuleOperands
import Mathlib.Data.BitVec
import Mathlib.Tactic.IntervalCases

/-!
# Constants of a module

The compiler writes constants in the shortest of the three forms and words in full.
-/

namespace Disvm.ModuleWriter

open ModuleReader

/-- The `byte` of an `int`. -/
def byteOf (value : Word) : UInt8 :=
  ⟨value.setWidth 8⟩

/-- `discon` and `disbcon`; nothing is written after an overflow. -/
def discon (val : Word) : Option (List UInt8) :=
  if -64 ≤ val.toInt ∧ val.toInt ≤ 63 then some [byteOf (val &&& ~~~0x80#32)]
  else if -8192 ≤ val.toInt ∧ val.toInt ≤ 8191 then
    some [byteOf (val.sshiftRight 8 &&& ~~~0xc0#32 ||| 0x80#32), byteOf val]
  else if val.toInt < 0 ∧ val.sshiftRight 29 &&& 7#32 ≠ 7#32 ∨
      0 < val.toInt ∧ val.sshiftRight 29 ≠ 0#32 then none
  else
    some [byteOf (val.sshiftRight 24 ||| 0xc0#32), byteOf (val.sshiftRight 16),
      byteOf (val.sshiftRight 8), byteOf val]

def disword (w : Word) : List UInt8 :=
  [byteOf (w.sshiftRight 24), byteOf (w.sshiftRight 16), byteOf (w.sshiftRight 8), byteOf w]

/-- The bits from a place on are copies of the sign. -/
def Extended (val : Word) (place : ℕ) : Prop :=
  ∀ bit, place ≤ bit → bit < 32 → val.getLsbD bit = val.getLsbD place

theorem getLsbD_of_lt {val : Word} {place bit : ℕ} (small : val.toNat < 2 ^ place)
    (above : place ≤ bit) : val.getLsbD bit = false :=
  Nat.testBit_lt_two_pow (small.trans_le (Nat.pow_le_pow_right (by decide) above))

theorem extended_of_range {val : Word} {place : ℕ} (inside : place < 32)
    (low : -(2 ^ place : ℕ) ≤ val.toInt) (high : val.toInt < (2 ^ place : ℕ)) :
    Extended val place := by
  rw [BitVec.toInt_eq_toNat_cond] at low high
  split_ifs at low high with positive
  · have small : val.toNat < 2 ^ place := by omega
    intro bit above _
    rw [getLsbD_of_lt small above, getLsbD_of_lt small le_rfl]
  · have small : (~~~val).toNat < 2 ^ place := by
      rw [BitVec.toNat_not]
      omega
    have isTrue : ∀ bit, place ≤ bit → bit < 32 → val.getLsbD bit = true := by
      intro bit above isBit
      have complement := getLsbD_of_lt small above
      rwa [BitVec.getLsbD_not, decide_eq_true isBit, Bool.true_and,
        Bool.not_eq_false'] at complement
    intro bit above isBit
    rw [isTrue bit above isBit, isTrue place le_rfl inside]

theorem getLsbD_byteWord (w : Word) (bit : ℕ) :
    (byteWord (byteOf w)).getLsbD bit = (decide (bit < 8) && w.getLsbD bit) := by
  simp only [byteWord, byteOf, BitVec.getLsbD_setWidth]
  by_cases inByte : bit < 8
  · have inWord : bit < 32 := by omega
    simp [inByte, inWord]
  · simp [inByte]

theorem getLsbD_sshiftRight {w : Word} {place bit : ℕ} (inside : place + bit < 32) :
    (w.sshiftRight place).getLsbD bit = w.getLsbD (place + bit) := by
  rw [BitVec.getLsbD_sshiftRight, if_pos inside, decide_eq_false (by omega)]
  rfl

/-- A word is put together of its bytes. -/
theorem bytes_word (w : Word) :
    byteWord (byteOf (w.sshiftRight 24)) <<< 24 ||| byteWord (byteOf (w.sshiftRight 16)) <<< 16 |||
      byteWord (byteOf (w.sshiftRight 8)) <<< 8 ||| byteWord (byteOf w) = w := by
  apply BitVec.eq_of_getLsbD_eq
  intro bit inside
  simp only [BitVec.getLsbD_or, BitVec.getLsbD_shiftLeft, getLsbD_byteWord,
    BitVec.getLsbD_sshiftRight]
  by_cases first : bit < 8
  · simp [inside, first, show bit < 16 by omega, show bit < 24 by omega]
  · by_cases second : bit < 16
    · simp [inside, first, second, show bit < 24 by omega, show bit - 8 < 8 by omega,
        show bit - 8 < 32 by omega, show 8 + (bit - 8) = bit by omega]
    · by_cases third : bit < 24
      · simp [inside, first, second, third, show ¬ bit - 8 < 8 by omega,
          show bit - 16 < 8 by omega, show bit - 16 < 32 by omega,
          show 16 + (bit - 16) = bit by omega]
      · simp [inside, first, second, third, show ¬ bit - 8 < 8 by omega,
          show ¬ bit - 16 < 8 by omega, show bit - 24 < 8 by omega,
          show bit - 24 < 32 by omega, show 24 + (bit - 24) = bit by omega]

theorem readNextWord_disword (w : Word) (rest : Stream) :
    readNextWord (disword w ++ rest) = some (w, rest) := by
  simp only [disword, readNextWord, List.cons_append, List.nil_append, getNextBytes_four]
  exact congrArg (fun word => some (word, rest)) (bytes_word w)

section Operands

variable {val : Word}

/-- The six lower bits are extended. -/
theorem getLsbD_preserveSign (result : Word) {bit : ℕ} (inside : bit < 32) :
    (preserveSign result).getLsbD bit = result.getLsbD (min bit 5) := by
  have low : ∀ bit < 32, (0x3f#32).getLsbD bit = decide (bit < 6) := by decide
  have high : ∀ bit < 32, (~~~0x3f#32).getLsbD bit = decide (¬ bit < 6) := by decide
  have sign : ∀ bit < 32, (0x20#32).getLsbD bit = decide (bit = 5) := by decide
  have isZero : result &&& 0x20#32 = 0 ↔ result.getLsbD 5 = false := by
    constructor
    · intro zero
      have isBit := congrArg (fun word : Word => word.getLsbD 5) zero
      simpa [sign 5] using isBit
    · intro isBit
      apply BitVec.eq_of_getLsbD_eq
      intro other inWord
      rw [BitVec.getLsbD_and, sign other inWord]
      by_cases same : other = 5
      · rw [same, isBit]
        rfl
      · simp [same]
  unfold preserveSign
  by_cases negative : result &&& 0x20#32 = 0
  · rw [if_neg (not_not.mpr negative), BitVec.getLsbD_and, low bit inside]
    by_cases isLow : bit < 6
    · rw [min_eq_left (by omega), decide_eq_true isLow, Bool.and_true]
    · rw [min_eq_right (by omega), decide_eq_false isLow, Bool.and_false, isZero.mp negative]
  · rw [if_pos negative, BitVec.getLsbD_or, high bit inside]
    by_cases isLow : bit < 6
    · rw [min_eq_left (by omega), decide_eq_false (not_not.mpr isLow), Bool.or_false]
    · rw [min_eq_right (by omega), decide_eq_true isLow, Bool.or_true]
      exact (Bool.eq_true_of_not_eq_false (mt isZero.mpr negative)).symm

theorem readNextOperand_long (extended : Extended val 29) (rest : Stream) :
    readNextOperand ([byteOf (val.sshiftRight 24 ||| 0xc0#32), byteOf (val.sshiftRight 16),
      byteOf (val.sshiftRight 8), byteOf val] ++ rest) = some (val, rest) := by
  have mark : ∀ bit < 6, (0xc0#32).getLsbD bit = false := by decide
  have mask : byteWord (byteOf (val.sshiftRight 24 ||| 0xc0#32)) &&& 0xc0#32 = 0xc0#32 := by
    apply BitVec.eq_of_getLsbD_eq
    intro bit inside
    have inByte : ∀ bit < 32, 8 ≤ bit → (0xc0#32).getLsbD bit = false := by decide
    rw [BitVec.getLsbD_and, getLsbD_byteWord, BitVec.getLsbD_or]
    by_cases isByte : bit < 8
    · rw [decide_eq_true isByte, Bool.true_and]
      cases (0xc0#32).getLsbD bit <;> simp
    · simp [isByte, inByte bit inside (by omega)]
  have isTop : preserveSign (byteWord (byteOf (val.sshiftRight 24 ||| 0xc0#32))) <<< 24 =
      byteWord (byteOf (val.sshiftRight 24)) <<< 24 := by
    apply BitVec.eq_of_getLsbD_eq
    intro bit inside
    simp only [BitVec.getLsbD_shiftLeft]
    by_cases isLow : bit < 24
    · simp [isLow]
    · have isExtended : val.getLsbD (24 + min (bit - 24) 5) = val.getLsbD (24 + (bit - 24)) := by
        rcases Nat.le_total (bit - 24) 5 with short | isSign
        · rw [min_eq_left short]
        · rw [min_eq_right isSign]
          exact (extended _ (by omega) (by omega)).symm
      rw [getLsbD_preserveSign _ (by omega), getLsbD_byteWord, getLsbD_byteWord,
        BitVec.getLsbD_or, mark _ (by omega), getLsbD_sshiftRight (by omega),
        getLsbD_sshiftRight (by omega), isExtended, Bool.or_false,
        decide_eq_true (show min (bit - 24) 5 < 8 by omega),
        decide_eq_true (show bit - 24 < 8 by omega)]
  have isWord := bytes_word val
  rw [← isTop] at isWord
  rw [List.cons_append, readNextOperand_cons]
  simp only [mask, List.cons_append, List.nil_append, getNextBytes_three]
  rw [if_neg (by decide), if_neg (by decide), if_neg (by decide)]
  exact congrArg (fun word => some (word, rest)) isWord

theorem readNextOperand_middle (extended : Extended val 13) (rest : Stream) :
    readNextOperand ([byteOf (val.sshiftRight 8 &&& ~~~0xc0#32 ||| 0x80#32), byteOf val] ++
      rest) = some (val, rest) := by
  have mark : ∀ bit < 6, (0xc0#32).getLsbD bit = false ∧ (0x80#32).getLsbD bit = false := by
    decide
  have mask : byteWord (byteOf (val.sshiftRight 8 &&& ~~~0xc0#32 ||| 0x80#32)) &&& 0xc0#32 =
      0x80#32 := by
    apply BitVec.eq_of_getLsbD_eq
    intro bit inside
    have bits : ∀ bit < 32, (0x80#32).getLsbD bit = decide (bit = 7) ∧
        (0xc0#32).getLsbD bit = decide (bit = 6 ∨ bit = 7) := by decide
    rw [BitVec.getLsbD_and, getLsbD_byteWord, BitVec.getLsbD_or, BitVec.getLsbD_and,
      BitVec.getLsbD_not, (bits bit inside).1, (bits bit inside).2]
    by_cases isMark : bit = 7
    · simp [isMark]
    · by_cases isOther : bit = 6
      · simp [isOther]
      · simp [isMark, isOther]
  have isWord : preserveSign (byteWord (byteOf (val.sshiftRight 8 &&& ~~~0xc0#32 ||| 0x80#32)))
      <<< 8 ||| byteWord (byteOf val) = val := by
    apply BitVec.eq_of_getLsbD_eq
    intro bit inside
    rw [BitVec.getLsbD_or, BitVec.getLsbD_shiftLeft, getLsbD_byteWord]
    by_cases isLow : bit < 8
    · simp [isLow]
    · have isExtended : val.getLsbD (8 + min (bit - 8) 5) = val.getLsbD bit := by
        rcases Nat.le_total (bit - 8) 5 with short | isSign
        · rw [min_eq_left short, Nat.add_sub_cancel' (by omega)]
        · rw [min_eq_right isSign]
          exact (extended _ (by omega) inside).symm
      have marks := mark (min (bit - 8) 5) (by omega)
      rw [getLsbD_preserveSign _ (by omega), getLsbD_byteWord, BitVec.getLsbD_or,
        BitVec.getLsbD_and, BitVec.getLsbD_not, marks.1, marks.2,
        getLsbD_sshiftRight (by omega), isExtended, decide_eq_true inside,
        decide_eq_true (show min (bit - 8) 5 < 8 by omega),
        decide_eq_true (show min (bit - 8) 5 < 32 by omega)]
      simp [isLow]
  rw [List.cons_append, readNextOperand_cons]
  simp only [mask, List.cons_append, List.nil_append, getNextBytes_one]
  rw [if_neg (by decide), if_neg (by decide), if_pos (by decide)]
  exact congrArg (fun word => some (word, rest)) isWord

theorem getLsbD_short {bit : ℕ} (inside : bit < 32) :
    (byteWord (byteOf (val &&& ~~~0x80#32))).getLsbD bit =
      (decide (bit < 7) && val.getLsbD bit) := by
  have mark : ∀ bit < 32, (~~~0x80#32).getLsbD bit = decide (bit ≠ 7) := by decide
  rw [getLsbD_byteWord, BitVec.getLsbD_and, mark bit inside]
  by_cases isLow : bit < 7
  · simp [isLow, show bit < 8 by omega, show bit ≠ 7 by omega]
  · by_cases isMark : bit = 7
    · simp [isMark]
    · simp [isLow, show ¬ bit < 8 by omega]

theorem readNextOperand_short (extended : Extended val 6) (rest : Stream) :
    readNextOperand ([byteOf (val &&& ~~~0x80#32)] ++ rest) = some (val, rest) := by
  have bits : ∀ bit < 32, (0xc0#32).getLsbD bit = decide (bit = 6 ∨ bit = 7) ∧
      (0x40#32).getLsbD bit = decide (bit = 6) ∧
        (~~~0x7f#32).getLsbD bit = decide (¬ bit < 7) := by decide
  have mask : byteWord (byteOf (val &&& ~~~0x80#32)) &&& 0xc0#32 =
      if val.getLsbD 6 then 0x40#32 else 0x00#32 := by
    apply BitVec.eq_of_getLsbD_eq
    intro bit inside
    rw [BitVec.getLsbD_and, getLsbD_short inside, (bits bit inside).1]
    by_cases isSign : bit = 6
    · rw [isSign]
      cases val.getLsbD 6 <;> rfl
    · have noSign : (if val.getLsbD 6 then 0x40#32 else 0x00#32).getLsbD bit = false := by
        split_ifs
        · rw [(bits bit inside).2.1, decide_eq_false isSign]
        · exact BitVec.getLsbD_zero
      rw [noSign]
      by_cases isLow : bit < 7
      · simp [isSign, show bit ≠ 7 by omega]
      · simp [isLow]
  have isCopy : ∀ bit < 32, ¬ bit < 7 → val.getLsbD bit = val.getLsbD 6 := fun bit inside above =>
    extended bit (by omega) inside
  rw [List.cons_append, List.nil_append, readNextOperand_cons]
  simp only [mask]
  cases isBit : val.getLsbD 6 with
  | false =>
      have isWord : byteWord (byteOf (val &&& ~~~0x80#32)) = val := by
        apply BitVec.eq_of_getLsbD_eq
        intro bit inside
        rw [getLsbD_short inside]
        by_cases isLow : bit < 7
        · rw [decide_eq_true isLow, Bool.true_and]
        · rw [decide_eq_false isLow, Bool.false_and, isCopy bit inside isLow, isBit]
      rw [if_pos (by decide), isWord]
  | true =>
      have isWord : byteWord (byteOf (val &&& ~~~0x80#32)) ||| ~~~0x7f#32 = val := by
        apply BitVec.eq_of_getLsbD_eq
        intro bit inside
        rw [BitVec.getLsbD_or, getLsbD_short inside, (bits bit inside).2.2]
        by_cases isLow : bit < 7
        · rw [decide_eq_true isLow, decide_eq_false (not_not.mpr isLow), Bool.true_and,
            Bool.or_false]
        · rw [decide_eq_true isLow, Bool.or_true, isCopy bit inside isLow, isBit]
      rw [if_neg (by decide), if_pos (by decide), isWord]

/-- The test for an overflow leaves the values whose three highest bits are alike. -/
theorem extended_of_fits (fits : ¬ (val.toInt < 0 ∧ val.sshiftRight 29 &&& 7#32 ≠ 7#32 ∨
      0 < val.toInt ∧ val.sshiftRight 29 ≠ 0#32)) : Extended val 29 := by
  obtain ⟨negative, positive⟩ := not_or.mp fits
  intro bit above inside
  rcases lt_trichotomy val.toInt 0 with below | isZero | isAbove
  · have ones : val.sshiftRight 29 &&& 7#32 = 7#32 := by
      by_contra other
      exact negative ⟨below, other⟩
    have bit29 := congrArg (fun word : Word => word[0]) ones
    have bit30 := congrArg (fun word : Word => word[1]) ones
    have bit31 := congrArg (fun word : Word => word[2]) ones
    simp [BitVec.getElem_sshiftRight] at bit29 bit30 bit31
    interval_cases bit <;> simp [bit29, bit30, bit31]
  · rw [BitVec.toInt_inj.mp (isZero.trans BitVec.toInt_zero.symm)]
    simp
  · have zeros : val.sshiftRight 29 = 0#32 := by
      by_contra other
      exact positive ⟨isAbove, other⟩
    have bit29 := congrArg (fun word : Word => word[0]) zeros
    have bit30 := congrArg (fun word : Word => word[1]) zeros
    have bit31 := congrArg (fun word : Word => word[2]) zeros
    simp [BitVec.getElem_sshiftRight] at bit29 bit30 bit31
    interval_cases bit <;> simp [bit29, bit30, bit31]

/-- A constant that is written is read back, whatever follows it. -/
theorem readNextOperand_discon {bytes : List UInt8} (written : discon val = some bytes)
    (rest : Stream) : readNextOperand (bytes ++ rest) = some (val, rest) := by
  unfold discon at written
  split_ifs at written with short middle overflow
  · cases written
    exact readNextOperand_short (extended_of_range (by decide) (by omega) (by omega)) rest
  · cases written
    exact readNextOperand_middle (extended_of_range (by decide) (by omega) (by omega)) rest
  · cases written
    exact readNextOperand_long (extended_of_fits overflow) rest

end Operands

end Disvm.ModuleWriter
