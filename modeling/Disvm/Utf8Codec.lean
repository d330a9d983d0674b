import Disvm.Utf8

/-!
# Encoding and decoding

What the automaton does with the encoding of a rune, and what it may find in
arbitrary bytes.
-/

namespace Disvm.Utf8

/-- States that still wait for bytes, by what they wait for. -/
def oneTail : ℕ := 24
def twoTails : ℕ := 36
def threeTails : ℕ := 84
def afterE0 : ℕ := 48
def afterED : ℕ := 60
def afterF0 : ℕ := 72
def afterF4 : ℕ := 96

/-- The classes by ranges of bytes. -/
def tailClass (byte : ℕ) : ℕ :=
  if byte < 0x90 then 1
  else if byte < 0xa0 then 9
  else 7

def leadClass (byte : ℕ) : ℕ :=
  if byte < 0xc2 then 8
  else if byte < 0xe0 then 2
  else if byte < 0xf0 then
    if byte = 0xe0 then 10 else if byte = 0xed then 4 else 3
  else if byte < 0xf5 then
    if byte = 0xf0 then 11 else if byte = 0xf4 then 5 else 6
  else 8

def rangeClass (byte : ℕ) : ℕ :=
  if byte < 0x80 then 0
  else if byte < 0xc0 then tailClass byte
  else leadClass byte

/-- Transitions on the first byte of a codepoint. -/
def leadNext (type : ℕ) : ℕ :=
  if type = 0 then accept
  else if type = 2 then oneTail
  else if type = 3 then twoTails
  else if type = 4 then afterED
  else if type = 5 then afterF4
  else if type = 6 then threeTails
  else if type = 10 then afterE0
  else if type = 11 then afterF0
  else reject

/-- Transitions on a further byte; the classes 1, 9 and 7 are its ranges. -/
def tailNext (state type : ℕ) : ℕ :=
  if state = oneTail ∧ type ∈ [1, 9, 7] then accept
  else if state = twoTails ∧ type ∈ [1, 9, 7] ∨ state = afterE0 ∧ type = 7 ∨
    state = afterED ∧ type ∈ [1, 9] then oneTail
  else if state = threeTails ∧ type ∈ [1, 9, 7] ∨ state = afterF0 ∧ type ∈ [9, 7] ∨
    state = afterF4 ∧ type = 1 then twoTails
  else reject

def tailStates : List ℕ :=
  [oneTail, twoTails, threeTails, afterE0, afterED, afterF0, afterF4]

/-- What the table holds. -/
theorem utf8d_eq : utf8d = (List.range 256).map rangeClass ++
    ((List.range 12).map leadNext ++
      (List.range 96).map fun entry => tailNext (12 + entry / 12 * 12) (entry % 12)) := by
  decide +kernel

theorem classOf_eq {byte : ℕ} (isByte : byte < 256) : classOf byte = rangeClass byte := by
  unfold classOf
  rw [utf8d_eq, List.getD_append _ _ _ _ (by simpa using isByte)]
  simp [isByte]

theorem tailClass_mem (byte : ℕ) : tailClass byte ∈ [1, 9, 7] := by
  unfold tailClass
  split_ifs <;> decide

theorem leadClass_mem (byte : ℕ) : leadClass byte ∈ [8, 2, 10, 4, 3, 11, 5, 6] := by
  unfold leadClass
  split_ifs <;> decide

section Ranges

variable {byte : ℕ}

theorem rangeClass_lt (byte : ℕ) : rangeClass byte < 12 := by
  have tails : ∀ type ∈ [1, 9, 7], type < 12 := by decide
  have leads : ∀ type ∈ [8, 2, 10, 4, 3, 11, 5, 6], type < 12 := by decide
  unfold rangeClass
  split_ifs
  · decide
  · exact tails _ (tailClass_mem byte)
  · exact leads _ (leadClass_mem byte)

theorem rangeClass_ascii : rangeClass byte = 0 ↔ byte < 0x80 := by
  have tails : ∀ type ∈ [1, 9, 7], type ≠ 0 := by decide
  have leads : ∀ type ∈ [8, 2, 10, 4, 3, 11, 5, 6], type ≠ 0 := by decide
  unfold rangeClass
  split_ifs with ascii isTail
  · exact iff_of_true rfl ascii
  · exact iff_of_false (tails _ (tailClass_mem byte)) ascii
  · exact iff_of_false (leads _ (leadClass_mem byte)) ascii

/-- The classes of bytes after the first of a codepoint. -/
theorem rangeClass_tail (low : 0x80 ≤ byte) (high : byte < 0xc0) :
    rangeClass byte = 1 ∧ byte < 0x90 ∨ rangeClass byte = 9 ∧ 0x90 ≤ byte ∧ byte < 0xa0 ∨
      rangeClass byte = 7 ∧ 0xa0 ≤ byte := by
  unfold rangeClass tailClass
  rw [if_neg (Nat.not_lt.mpr low), if_pos high]
  split_ifs <;> omega

theorem rangeClass_eq_lead (low : 0xc0 ≤ byte) : rangeClass byte = leadClass byte := by
  unfold rangeClass
  rw [if_neg (by omega), if_neg (by omega)]

/-- The classes of other bytes. -/
theorem rangeClass_not_tail (outside : byte < 0x80 ∨ 0xc0 ≤ byte) :
    rangeClass byte ∉ [1, 9, 7] := by
  have leads : ∀ type ∈ [8, 2, 10, 4, 3, 11, 5, 6], type ∉ [1, 9, 7] := by decide
  rcases outside with ascii | isLead
  · rw [rangeClass_ascii.mpr ascii]
    decide
  · rw [rangeClass_eq_lead isLead]
    exact leads _ (leadClass_mem byte)

theorem rangeClass_lead2 (low : 0xc2 ≤ byte) (high : byte < 0xe0) : rangeClass byte = 2 := by
  rw [rangeClass_eq_lead (by omega), leadClass, if_neg (by omega), if_pos high]

theorem rangeClass_lead3 (low : 0xe0 ≤ byte) (high : byte < 0xf0) :
    rangeClass byte = if byte = 0xe0 then 10 else if byte = 0xed then 4 else 3 := by
  rw [rangeClass_eq_lead (by omega), leadClass, if_neg (by omega), if_neg (by omega),
    if_pos high]

theorem rangeClass_lead4 (low : 0xf0 ≤ byte) (high : byte < 0xf5) :
    rangeClass byte = if byte = 0xf0 then 11 else if byte = 0xf4 then 5 else 6 := by
  rw [rangeClass_eq_lead (by omega), leadClass, if_neg (by omega), if_neg (by omega),
    if_neg (by omega), if_pos high]

theorem rangeClass_invalid (low : 0x80 ≤ byte) (high : byte < 0xc2 ∨ 0xf5 ≤ byte) :
    leadNext (rangeClass byte) = reject := by
  by_cases isTail : byte < 0xc0
  · rcases rangeClass_tail low isTail with ⟨isClass, _⟩ | ⟨isClass, _⟩ | ⟨isClass, _⟩ <;>
      rw [isClass] <;> rfl
  · have isInvalid : rangeClass byte = 8 := by
      rw [rangeClass_eq_lead (by omega), leadClass]
      rcases high with small | large
      · exact if_pos small
      · rw [if_neg (by omega), if_neg (by omega), if_neg (by omega), if_neg (by omega)]
    rw [isInvalid]
    rfl

end Ranges

section Transitions

variable {byte : ℕ}

theorem next_lead (isByte : byte < 256) :
    nextState accept byte = leadNext (rangeClass byte) := by
  have isClass := rangeClass_lt byte
  unfold nextState accept
  rw [classOf_eq isByte, utf8d_eq, List.getD_append_right _ _ _ _ (by simp),
    List.getD_append _ _ _ _ (by simpa using isClass)]
  simp [isClass]

theorem next_state {state : ℕ} (isState : state ∈ reject :: tailStates) (isByte : byte < 256) :
    nextState state byte = tailNext state (rangeClass byte) := by
  have isClass := rangeClass_lt byte
  have isRow : ∀ state ∈ reject :: tailStates, ∃ row < 8, state = 12 + row * 12 := by decide
  obtain ⟨row, few, rfl⟩ := isRow state isState
  have isEntry : row * 12 + rangeClass byte < 96 := by omega
  have index : 256 + (12 + row * 12) + rangeClass byte - 256 - 12 = row * 12 + rangeClass byte := by
    omega
  have isRowOf : (row * 12 + rangeClass byte) / 12 = row := by omega
  have isClassOf : (row * 12 + rangeClass byte) % 12 = rangeClass byte := by omega
  unfold nextState
  rw [classOf_eq isByte, utf8d_eq, List.getD_append_right _ _ _ _ (by simp; omega),
    List.getD_append_right _ _ _ _ (by simp; omega)]
  simp only [List.length_map, List.length_range, index, List.getD_eq_getElem?_getD,
    List.getElem?_map, List.getElem?_range isEntry, Option.map_some, Option.getD_some, isRowOf,
    isClassOf]

theorem next_accept_iff (isByte : byte < 256) : nextState accept byte = accept ↔ byte < 0x80 := by
  have onlyAscii : ∀ type < 12, leadNext type = accept ↔ type = 0 := by decide
  rw [next_lead isByte, onlyAscii _ (rangeClass_lt byte), rangeClass_ascii]

theorem next_lead2 (low : 0xc2 ≤ byte) (high : byte < 0xe0) :
    nextState accept byte = oneTail := by
  rw [next_lead (by omega), rangeClass_lead2 low high]
  rfl

theorem next_lead3 (low : 0xe0 ≤ byte) (high : byte < 0xf0) :
    nextState accept byte =
      if byte = 0xe0 then afterE0 else if byte = 0xed then afterED else twoTails := by
  rw [next_lead (by omega), rangeClass_lead3 low high]
  split_ifs <;> rfl

theorem next_lead4 (low : 0xf0 ≤ byte) (high : byte < 0xf5) :
    nextState accept byte =
      if byte = 0xf0 then afterF0 else if byte = 0xf4 then afterF4 else threeTails := by
  rw [next_lead (by omega), rangeClass_lead4 low high]
  split_ifs <;> rfl

theorem next_tail (low : 0x80 ≤ byte) (high : byte < 0xc0) :
    nextState oneTail byte = accept ∧ nextState twoTails byte = oneTail ∧
      nextState threeTails byte = twoTails := by
  have isByte : byte < 256 := by omega
  rw [next_state (by decide) isByte, next_state (by decide) isByte,
    next_state (by decide) isByte]
  rcases rangeClass_tail low high with ⟨isTail, _⟩ | ⟨isTail, _⟩ | ⟨isTail, _⟩ <;>
    rw [isTail] <;> decide

theorem next_afterE0 (low : 0xa0 ≤ byte) (high : byte < 0xc0) :
    nextState afterE0 byte = oneTail := by
  rw [next_state (by decide) (by omega)]
  rcases rangeClass_tail (by omega) high with ⟨_, small⟩ | ⟨_, _, small⟩ | ⟨isTail, _⟩
  · omega
  · omega
  · rw [isTail]
    decide

theorem next_afterED (low : 0x80 ≤ byte) (high : byte < 0xc0) :
    nextState afterED byte = if byte < 0xa0 then oneTail else reject := by
  rw [next_state (by decide) (by omega)]
  rcases rangeClass_tail low high with ⟨isTail, _⟩ | ⟨isTail, _⟩ | ⟨isTail, large⟩
  · rw [isTail, if_pos (by omega)]
    decide
  · rw [isTail, if_pos (by omega)]
    decide
  · rw [isTail, if_neg (by omega)]
    decide

theorem next_afterF0 (low : 0x90 ≤ byte) (high : byte < 0xc0) :
    nextState afterF0 byte = twoTails := by
  rw [next_state (by decide) (by omega)]
  rcases rangeClass_tail (by omega) high with ⟨_, small⟩ | ⟨isTail, _⟩ | ⟨isTail, _⟩
  · omega
  · rw [isTail]
    decide
  · rw [isTail]
    decide

theorem next_afterF4 (low : 0x80 ≤ byte) (high : byte < 0x90) :
    nextState afterF4 byte = twoTails := by
  rw [next_state (by decide) (by omega)]
  rcases rangeClass_tail low (by omega) with ⟨isTail, _⟩ | ⟨_, large, _⟩ | ⟨_, large⟩
  · rw [isTail]
    decide
  · omega
  · omega

theorem next_reject (isByte : byte < 256) : nextState reject byte = reject := by
  have absorbs : ∀ type < 12, tailNext reject type = reject := by decide
  rw [next_state (by decide) isByte, absorbs _ (rangeClass_lt byte)]

/-- The other bytes end no codepoint that is begun. -/
theorem next_not_tail {state : ℕ} (isState : state ∈ tailStates)
    (outside : byte < 0x80 ∨ 0xc0 ≤ byte) (isByte : byte < 256) :
    nextState state byte = reject := by
  have refuses : ∀ type < 12, type ∉ [1, 9, 7] → ∀ state ∈ tailStates,
      tailNext state type = reject := by decide
  rw [next_state (List.mem_cons_of_mem _ isState) isByte]
  exact refuses _ (rangeClass_lt byte) (rangeClass_not_tail outside) state isState

theorem bits_ascii (ascii : byte < 0x80) : (0xff >>> rangeClass byte) &&& byte = byte := by
  rw [rangeClass_ascii.mpr ascii, Nat.and_comm]
  exact (Nat.and_two_pow_sub_one_eq_mod byte 8).trans (Nat.mod_eq_of_lt (by omega))

theorem bits_lead2 (low : 0xc2 ≤ byte) (high : byte < 0xe0) :
    (0xff >>> rangeClass byte) &&& byte = byte - 0xc0 := by
  rw [rangeClass_lead2 low high, Nat.and_comm]
  exact (Nat.and_two_pow_sub_one_eq_mod byte 6).trans (by omega)

theorem bits_lead3 (low : 0xe0 ≤ byte) (high : byte < 0xf0) :
    (0xff >>> rangeClass byte) &&& byte = byte - 0xe0 := by
  rw [rangeClass_lead3 low high, Nat.and_comm]
  split_ifs with isFirst isED
  · subst isFirst
    rfl
  · subst isED
    rfl
  · exact (Nat.and_two_pow_sub_one_eq_mod byte 5).trans (by omega)

theorem bits_lead4 (low : 0xf0 ≤ byte) (high : byte < 0xf5) :
    (0xff >>> rangeClass byte) &&& byte = byte - 0xf0 := by
  rw [rangeClass_lead4 low high, Nat.and_comm]
  split_ifs with isFirst isLast
  · subst isFirst
    rfl
  · subst isLast
    rfl
  · exact (Nat.and_two_pow_sub_one_eq_mod byte 2).trans (by omega)

end Transitions

theorem decodeStep_accept (codepoint : ℕ) (byte : UInt8) :
    decodeStep accept codepoint byte =
      (nextState accept byte.toNat, (0xff >>> rangeClass byte.toNat) &&& byte.toNat) := by
  rw [← classOf_eq byte.toNat_lt]
  rfl

/-- A further byte of a codepoint adds six bits. -/
theorem decodeStep_tail {state codepoint : ℕ} (inside : state ≠ accept)
    (small : codepoint < 2 ^ 26) (byte : UInt8) :
    decodeStep state codepoint byte =
      (nextState state byte.toNat, codepoint * 64 + byte.toNat % 64) := by
  have shifted : codepoint <<< 6 % 2 ^ 32 = 64 * codepoint := by
    rw [Nat.shiftLeft_eq, Nat.mod_eq_of_lt (by omega)]
    omega
  have masked : byte.toNat &&& multiByteValueMask = byte.toNat % 64 :=
    Nat.and_two_pow_sub_one_eq_mod byte.toNat 6
  have joined : byte.toNat % 64 ||| 64 * codepoint = 64 * codepoint + byte.toNat % 64 := by
    rw [Nat.lor_comm]
    exact (Nat.two_pow_add_eq_or_of_lt (show _ < 2 ^ 6 from Nat.mod_lt _ (by decide))
      codepoint).symm
  unfold decodeStep
  simp only [if_pos inside]
  rw [shifted, masked, joined, Nat.mul_comm]

theorem countLoop_cons (byte : UInt8) (rest : List UInt8) (curr state codepoint points last : ℕ) :
    countLoop (byte :: rest) curr state codepoint points last =
      if nextState state byte.toNat = accept then
        countLoop rest (curr + 1) accept (decodeStep state codepoint byte).2 (points + 1) curr
      else
        countLoop rest (curr + 1) (nextState state byte.toNat) (decodeStep state codepoint byte).2
          points last := by
  have isNext : (decodeStep state codepoint byte).1 = nextState state byte.toNat := rfl
  simp only [countLoop, isNext]
  split
  next isAccept => rw [isAccept]
  next => rfl

/-- The bytes from a state on that end one codepoint. -/
inductive Reads : (state codepoint : ℕ) → List UInt8 → ℕ → Prop
  | last {state codepoint byte rune} (step : decodeStep state codepoint byte = (accept, rune)) :
      Reads state codepoint [byte] rune
  | more {state codepoint byte next partialCodepoint rest rune}
      (step : decodeStep state codepoint byte = (next, partialCodepoint)) (open' : next ≠ accept)
      (rest' : Reads next partialCodepoint rest rune) :
      Reads state codepoint (byte :: rest) rune

theorem Reads.ne_nil {state codepoint rune : ℕ} {bytes : List UInt8}
    (reads : Reads state codepoint bytes rune) : bytes ≠ [] := by
  cases reads <;> exact List.cons_ne_nil _ _

theorem Reads.countLoop {state codepoint rune : ℕ} {bytes : List UInt8}
    (reads : Reads state codepoint bytes rune) (rest : List UInt8) (curr points last : ℕ) :
    countLoop (bytes ++ rest) curr state codepoint points last =
      countLoop rest (curr + bytes.length) accept rune (points + 1)
        (curr + bytes.length - 1) := by
  induction reads generalizing curr with
  | last step =>
      simp only [List.cons_append, List.nil_append, Utf8.countLoop, step, if_true,
        List.length_singleton, Nat.add_sub_cancel]
  | @more state codepoint byte next partialCodepoint tail rune step notYet reads ih =>
      simp only [List.cons_append, Utf8.countLoop, step, if_neg notYet, ih, List.length_cons]
      congr 1 <;> omega

theorem Reads.decodeLoop {state codepoint rune : ℕ} {bytes : List UInt8}
    (reads : Reads state codepoint bytes rune) (noNul : 0 ∉ bytes) (rest : List UInt8)
    (consumed : ℕ) :
    decodeLoop (bytes ++ rest) consumed state codepoint =
      some (rune, consumed + bytes.length) := by
  induction reads generalizing consumed with
  | @last state codepoint byte rune step =>
      have notNul : byte ≠ 0 := fun isNul => noNul (isNul ▸ List.mem_cons_self)
      simp only [List.cons_append, Utf8.decodeLoop, if_neg notNul, step, if_true,
        List.length_singleton]
  | @more state codepoint byte next partialCodepoint tail rune step notYet reads ih =>
      have notNul : byte ≠ 0 := fun isNul => noNul (isNul ▸ List.mem_cons_self)
      simp only [List.cons_append, Utf8.decodeLoop, if_neg notNul, step, if_neg notYet,
        ih (fun member => noNul (List.mem_cons_of_mem _ member)), List.length_cons]
      congr 2
      omega

section Encodings

variable {rune : ℕ}

theorem masked_eq (value : ℕ) : value &&& multiByteValueMask = value % 64 :=
  Nat.and_two_pow_sub_one_eq_mod value 6

theorem encode_ascii (ascii : rune ≤ 0x7f) : encode rune = [UInt8.ofNat rune] :=
  if_pos ascii

theorem encode_two (low : 0x7f < rune) (high : rune ≤ 0x7ff) :
    encode rune = [UInt8.ofNat (0xc0 + rune / 64), UInt8.ofNat (0x80 + rune % 64)] := by
  have notAscii : ¬ rune ≤ maxCodepointAscii := Nat.not_le.mpr low
  have isTwo : rune ≤ maxCodepoint2Byte := high
  unfold encode
  rw [if_neg notAscii, if_pos isTwo, masked_eq, Nat.shiftRight_eq_div_pow]

theorem encode_three (low : 0x7ff < rune) (high : rune ≤ 0xffff) :
    encode rune = [UInt8.ofNat (0xe0 + rune / 4096), UInt8.ofNat (0x80 + rune / 64 % 64),
      UInt8.ofNat (0x80 + rune % 64)] := by
  have notAscii : ¬ rune ≤ maxCodepointAscii :=
    Nat.not_le.mpr (Nat.lt_trans (by decide) low)
  have notTwo : ¬ rune ≤ maxCodepoint2Byte := Nat.not_le.mpr low
  have isThree : rune ≤ maxCodepoint3Byte := high
  unfold encode
  rw [if_neg notAscii, if_neg notTwo, if_pos isThree, masked_eq, masked_eq,
    Nat.shiftRight_eq_div_pow, Nat.shiftRight_eq_div_pow]

theorem encode_four (low : 0xffff < rune) (high : rune ≤ 0x10ffff) :
    encode rune = [UInt8.ofNat (0xf0 + rune / 262144), UInt8.ofNat (0x80 + rune / 4096 % 64),
      UInt8.ofNat (0x80 + rune / 64 % 64), UInt8.ofNat (0x80 + rune % 64)] := by
  have notAscii : ¬ rune ≤ maxCodepointAscii :=
    Nat.not_le.mpr (Nat.lt_trans (by decide) low)
  have notTwo : ¬ rune ≤ maxCodepoint2Byte :=
    Nat.not_le.mpr (Nat.lt_trans (by decide) low)
  have notThree : ¬ rune ≤ maxCodepoint3Byte := Nat.not_le.mpr low
  have isFour : rune ≤ maxCodepoint4Byte := high
  unfold encode
  rw [if_neg notAscii, if_neg notTwo, if_neg notThree, if_pos isFour, masked_eq,
    masked_eq, masked_eq, Nat.shiftRight_eq_div_pow, Nat.shiftRight_eq_div_pow,
    Nat.shiftRight_eq_div_pow]

theorem decodeStep_lead {byte bits : ℕ} (codepoint : ℕ) (isByte : byte < 256)
    (isLead : (0xff >>> rangeClass byte) &&& byte = bits) :
    decodeStep accept codepoint (UInt8.ofNat byte) = (nextState accept byte, bits) := by
  rw [decodeStep_accept, UInt8.toNat_ofNat_of_lt' isByte, isLead]

theorem decodeStep_further (state codepoint : ℕ) {bits : ℕ} (inside : state ≠ accept)
    (small : codepoint < 2 ^ 26) (isBits : bits < 64) :
    decodeStep state codepoint (UInt8.ofNat (0x80 + bits)) =
      (nextState state (0x80 + bits), codepoint * 64 + bits) := by
  have isByte : (UInt8.ofNat (0x80 + bits)).toNat = 0x80 + bits :=
    UInt8.toNat_ofNat_of_lt' (show 0x80 + bits < 256 by omega)
  rw [decodeStep_tail inside small, isByte]
  congr 2
  omega

/-- The last byte of a codepoint. -/
theorem reads_oneTail (codepoint : ℕ) {bits : ℕ} (small : codepoint < 2 ^ 26) (isBits : bits < 64) :
    Reads oneTail codepoint [UInt8.ofNat (0x80 + bits)] (codepoint * 64 + bits) := by
  refine Reads.last ?_
  rw [decodeStep_further _ _ (by decide) small isBits,
    (next_tail (Nat.le_add_right _ _) (by omega)).1]

/-- The last two bytes. -/
theorem reads_twoTails (codepoint : ℕ) {first second : ℕ} (small : codepoint < 2 ^ 16)
    (isFirst : first < 64) (isSecond : second < 64) :
    Reads twoTails codepoint [UInt8.ofNat (0x80 + first), UInt8.ofNat (0x80 + second)]
      ((codepoint * 64 + first) * 64 + second) := by
  have step := decodeStep_further twoTails codepoint (by decide)
    (by omega) isFirst
  rw [(next_tail (Nat.le_add_right _ _) (by omega)).2.1] at step
  exact Reads.more step (by decide) (reads_oneTail _ (by omega) isSecond)

/-- The states after the first of three bytes ask for a second one that makes
the codepoint large enough and no surrogate. -/
theorem reads_three (codepoint : ℕ) (low : 0x7ff < rune) (high : rune ≤ 0xffff)
    (notSurrogate : ¬ (0xd800 ≤ rune ∧ rune ≤ 0xdfff)) :
    Reads accept codepoint [UInt8.ofNat (0xe0 + rune / 4096),
      UInt8.ofNat (0x80 + rune / 64 % 64), UInt8.ofNat (0x80 + rune % 64)] rune := by
  have lead := decodeStep_lead codepoint (show 0xe0 + rune / 4096 < 256 by omega)
    (bits_lead3 (by omega) (by omega))
  rw [next_lead3 (by omega) (by omega)] at lead
  have tail := reads_oneTail (rune / 4096 * 64 + rune / 64 % 64) (by omega)
    (Nat.mod_lt rune (show 0 < 64 by decide))
  rw [show (rune / 4096 * 64 + rune / 64 % 64) * 64 + rune % 64 = rune by omega] at tail
  rw [Nat.add_sub_cancel_left] at lead
  have second : ∀ state, state ≠ accept →
      nextState state (0x80 + rune / 64 % 64) = oneTail →
        Reads state (rune / 4096) [UInt8.ofNat (0x80 + rune / 64 % 64),
          UInt8.ofNat (0x80 + rune % 64)] rune := by
    intro state inside next
    have step := decodeStep_further state (rune / 4096) inside (by omega)
      (Nat.mod_lt (rune / 64) (show 0 < 64 by decide))
    rw [next] at step
    exact Reads.more step (by decide) tail
  refine Reads.more lead ?_ (second _ ?_ ?_)
  · split_ifs <;> decide
  · split_ifs <;> decide
  · split_ifs
    · exact next_afterE0 (by omega) (by omega)
    · rw [next_afterED (by omega) (by omega), if_pos (by omega)]
    · exact (next_tail (by omega) (by omega)).2.1

theorem reads_four (codepoint : ℕ) (low : 0xffff < rune) (high : rune ≤ 0x10ffff) :
    Reads accept codepoint [UInt8.ofNat (0xf0 + rune / 262144),
      UInt8.ofNat (0x80 + rune / 4096 % 64), UInt8.ofNat (0x80 + rune / 64 % 64),
      UInt8.ofNat (0x80 + rune % 64)] rune := by
  have lead := decodeStep_lead codepoint (show 0xf0 + rune / 262144 < 256 by omega)
    (bits_lead4 (by omega) (by omega))
  rw [next_lead4 (by omega) (by omega)] at lead
  have tail := reads_twoTails (rune / 262144 * 64 + rune / 4096 % 64) (by omega)
    (Nat.mod_lt (rune / 64) (show 0 < 64 by decide)) (Nat.mod_lt rune (show 0 < 64 by decide))
  rw [show ((rune / 262144 * 64 + rune / 4096 % 64) * 64 + rune / 64 % 64) * 64 + rune % 64 =
    rune by omega] at tail
  rw [Nat.add_sub_cancel_left] at lead
  have second : ∀ state, state ≠ accept →
      nextState state (0x80 + rune / 4096 % 64) = twoTails →
        Reads state (rune / 262144) [UInt8.ofNat (0x80 + rune / 4096 % 64),
          UInt8.ofNat (0x80 + rune / 64 % 64), UInt8.ofNat (0x80 + rune % 64)] rune := by
    intro state inside next
    have step := decodeStep_further state (rune / 262144) inside (by omega)
      (Nat.mod_lt (rune / 4096) (show 0 < 64 by decide))
    rw [next] at step
    exact Reads.more step (by decide) tail
  refine Reads.more lead ?_ (second _ ?_ ?_)
  · split_ifs <;> decide
  · split_ifs <;> decide
  · split_ifs
    · exact next_afterF0 (by omega) (by omega)
    · exact next_afterF4 (by omega) (by omega)
    · exact (next_tail (by omega) (by omega)).2.2

/-- A rune that UTF-8 has an encoding for is read back. -/
theorem reads_encode (scalar : IsScalar rune) (codepoint : ℕ) :
    Reads accept codepoint (encode rune) rune := by
  obtain ⟨supported, notSurrogate⟩ := scalar
  unfold maxSupportedCodepoint maxCodepoint4Byte at supported
  unfold IsSurrogate at notSurrogate
  by_cases ascii : rune ≤ 0x7f
  · rw [encode_ascii ascii]
    refine Reads.last ?_
    rw [decodeStep_lead codepoint (by omega) (bits_ascii (by omega)),
      (next_accept_iff (by omega)).mpr (by omega)]
  by_cases two : rune ≤ 0x7ff
  · rw [encode_two (by omega) two]
    have lead := decodeStep_lead codepoint (show 0xc0 + rune / 64 < 256 by omega)
      (bits_lead2 (by omega) (by omega))
    rw [next_lead2 (by omega) (by omega)] at lead
    have tail := reads_oneTail (0xc0 + rune / 64 - 0xc0) (by omega)
      (Nat.mod_lt rune (show 0 < 64 by decide))
    rw [show (0xc0 + rune / 64 - 0xc0) * 64 + rune % 64 = rune by omega] at tail
    exact Reads.more lead (by decide) tail
  by_cases three : rune ≤ 0xffff
  · rw [encode_three (by omega) three]
    exact reads_three codepoint (by omega) three notSurrogate
  · rw [encode_four (by omega) supported]
    exact reads_four codepoint (by omega) supported

theorem encode_ne_nil (supported : rune ≤ maxSupportedCodepoint) : encode rune ≠ [] := by
  unfold encode
  split_ifs with ascii two three four
  · exact List.cons_ne_nil _ _
  · exact List.cons_ne_nil _ _
  · exact List.cons_ne_nil _ _
  · exact List.cons_ne_nil _ _
  · exact absurd supported four

theorem encode_length_le (rune : ℕ) : (encode rune).length ≤ 4 := by
  unfold encode
  split_ifs <;> simp

/-- Only ASCII runes take a single byte. -/
theorem encode_length_eq_one (supported : rune ≤ maxSupportedCodepoint) :
    (encode rune).length = 1 ↔ rune ≤ maxCodepointAscii := by
  unfold encode
  split_ifs with ascii two three four
  · exact iff_of_true rfl ascii
  · exact iff_of_false (by simp) ascii
  · exact iff_of_false (by simp) ascii
  · exact iff_of_false (by simp) ascii
  · exact absurd supported four

theorem ofNat_ne_zero {byte : ℕ} (pos : 0 < byte) (isByte : byte < 256) :
    UInt8.ofNat byte ≠ 0 := by
  intro isZero
  have same := congrArg UInt8.toNat isZero
  rw [UInt8.toNat_ofNat_of_lt' isByte] at same
  exact Nat.ne_of_gt pos same

/-- Only the encoding of a NUL has one. -/
theorem nul_mem_encode (supported : rune ≤ maxSupportedCodepoint) :
    0 ∈ encode rune ↔ rune = 0 := by
  unfold maxSupportedCodepoint maxCodepoint4Byte at supported
  constructor
  · intro member
    by_contra notZero
    by_cases ascii : rune ≤ 0x7f
    · rw [encode_ascii ascii, List.mem_singleton] at member
      exact ofNat_ne_zero (by omega) (by omega) member.symm
    by_cases two : rune ≤ 0x7ff
    · rw [encode_two (by omega) two] at member
      simp only [List.mem_cons, List.not_mem_nil, or_false] at member
      rcases member with isZero | isZero <;>
        exact ofNat_ne_zero (by omega) (by omega) isZero.symm
    by_cases three : rune ≤ 0xffff
    · rw [encode_three (by omega) three] at member
      simp only [List.mem_cons, List.not_mem_nil, or_false] at member
      rcases member with isZero | isZero | isZero <;>
        exact ofNat_ne_zero (by omega) (by omega) isZero.symm
    · rw [encode_four (by omega) supported] at member
      simp only [List.mem_cons, List.not_mem_nil, or_false] at member
      rcases member with isZero | isZero | isZero | isZero <;>
        exact ofNat_ne_zero (by omega) (by omega) isZero.symm
  · rintro rfl
    decide

/-- A surrogate stops the automaton for good. -/
theorem countLoop_reject (bytes : List UInt8) (curr codepoint points last : ℕ) :
    countLoop bytes curr reject codepoint points last = (points, last) := by
  induction bytes generalizing curr codepoint with
  | nil => rfl
  | cons byte bytes ih =>
      rw [countLoop_cons, next_reject byte.toNat_lt, if_neg (by decide)]
      exact ih _ _

theorem countLoop_surrogate (surrogate : IsSurrogate rune) (rest : List UInt8)
    (curr codepoint points last : ℕ) :
    countLoop (encode rune ++ rest) curr accept codepoint points last = (points, last) := by
  obtain ⟨low, high⟩ := surrogate
  have lead := decodeStep_lead codepoint (show 0xe0 + rune / 4096 < 256 by omega)
    (bits_lead3 (by omega) (by omega))
  rw [next_lead3 (by omega) (by omega), if_neg (by omega), if_pos (by omega)] at lead
  have second := decodeStep_further afterED (0xe0 + rune / 4096 - 0xe0) (by decide) (by omega)
    (Nat.mod_lt (rune / 64) (show 0 < 64 by decide))
  rw [next_afterED (by omega) (by omega), if_neg (by omega)] at second
  rw [encode_three (by omega) (by omega)]
  simp only [List.cons_append, countLoop, lead, second]
  rw [if_neg (by decide), if_neg (by decide)]
  exact countLoop_reject (_ :: rest) _ _ _ _

end Encodings

section Texts

variable {runes : List ℕ}

theorem encodeText_cons (rune : ℕ) (runes : List ℕ) :
    encodeText (rune :: runes) = encode rune ++ encodeText runes :=
  List.flatMap_cons

theorem encodeText_append (first second : List ℕ) :
    encodeText (first ++ second) = encodeText first ++ encodeText second :=
  List.flatMap_append

theorem encodeText_length_le (runes : List ℕ) :
    (encodeText runes).length ≤ 4 * runes.length := by
  induction runes with
  | nil => exact Nat.le_refl _
  | cons rune runes ih =>
      have first := encode_length_le rune
      rw [encodeText_cons, List.length_append, List.length_cons]
      omega

/-- The codepoints of a text are counted, up to what follows it. -/
theorem countLoop_encodeText (scalars : ∀ rune ∈ runes, IsScalar rune) (rest : List UInt8)
    (curr codepoint points last : ℕ) : ∃ later,
    countLoop (encodeText runes ++ rest) curr accept codepoint points last =
      countLoop rest (curr + (encodeText runes).length) accept later (points + runes.length)
        (if runes = [] then last else curr + (encodeText runes).length - 1) := by
  induction runes generalizing curr codepoint points last with
  | nil => exact ⟨codepoint, rfl⟩
  | cons rune runes ih =>
      have reads := reads_encode (scalars rune List.mem_cons_self) codepoint
      obtain ⟨later, counted⟩ := ih
        (fun other member => scalars other (List.mem_cons_of_mem _ member))
        (curr + (encode rune).length) rune (points + 1) (curr + (encode rune).length - 1)
      refine ⟨later, ?_⟩
      rw [encodeText_cons, List.append_assoc, reads.countLoop, counted, List.length_append,
        List.length_cons, if_neg (List.cons_ne_nil rune runes), ← Nat.add_assoc]
      congr 1
      · omega
      · split_ifs with isLast
        · subst isLast
          rfl
        · rfl

theorem countCodepoints_of_ne_nil {bytes : List UInt8} (nonempty : bytes ≠ []) :
    countCodepoints bytes =
      ((countLoop bytes 0 accept 0 0 0).1, (countLoop bytes 0 accept 0 0 0).2 + 1) := by
  cases bytes with
  | nil => exact absurd rfl nonempty
  | cons byte rest => rfl

theorem encodeText_ne_nil {rune : ℕ} (member : rune ∈ runes)
    (supported : rune ≤ maxSupportedCodepoint) : encodeText runes ≠ [] := by
  intro empty
  exact encode_ne_nil supported (List.flatMap_eq_nil_iff.mp empty rune member)

theorem countCodepoints_encodeText (scalars : ∀ rune ∈ runes, IsScalar rune) :
    countCodepoints (encodeText runes) = (runes.length, (encodeText runes).length) := by
  cases runes with
  | nil => rfl
  | cons rune runes =>
      obtain ⟨later, counted⟩ := countLoop_encodeText scalars [] 0 0 0 0
      have nonempty : encodeText (rune :: runes) ≠ [] :=
        encodeText_ne_nil List.mem_cons_self (scalars rune List.mem_cons_self).1
      rw [List.append_nil, if_neg (List.cons_ne_nil _ _), Nat.zero_add, Nat.zero_add] at counted
      rw [countCodepoints_of_ne_nil nonempty, counted]
      simp only [countLoop]
      rw [Nat.sub_add_cancel (List.length_pos_iff.mpr nonempty)]

/-- With a surrogate in it the last codepoint of a text does not end its bytes. -/
theorem countLoop_last {rune : ℕ} (surrogate : IsSurrogate rune) (member : rune ∈ runes)
    (supported : ∀ rune ∈ runes, rune ≤ maxSupportedCodepoint)
    (curr codepoint points last : ℕ) :
    (countLoop (encodeText runes) curr accept codepoint points last).2 = last ∨
      (countLoop (encodeText runes) curr accept codepoint points last).2 + 1 <
        curr + (encodeText runes).length := by
  induction runes generalizing curr codepoint points last with
  | nil => cases member
  | cons head runes ih =>
      rw [encodeText_cons]
      by_cases isSurrogate : IsSurrogate head
      · rw [countLoop_surrogate isSurrogate]
        exact Or.inl rfl
      · have inTail : rune ∈ runes := by
          refine List.mem_of_ne_of_mem ?_ member
          rintro rfl
          exact isSurrogate surrogate
        have supportedTail : ∀ rune ∈ runes, rune ≤ maxSupportedCodepoint := fun other inside =>
          supported other (List.mem_cons_of_mem _ inside)
        have reads := reads_encode ⟨supported head List.mem_cons_self, isSurrogate⟩ codepoint
        have later := ih inTail supportedTail (curr + (encode head).length) head (points + 1)
          (curr + (encode head).length - 1)
        have headPos := List.length_pos_iff.mpr (encode_ne_nil (supported head List.mem_cons_self))
        have tailPos := List.length_pos_iff.mpr
          (encodeText_ne_nil inTail (supportedTail rune inTail))
        rw [reads.countLoop, List.length_append]
        omega

/-- A text with a surrogate does not count as UTF-8. -/
theorem countCodepoints_surrogate {rune : ℕ} (surrogate : IsSurrogate rune)
    (member : rune ∈ runes) (supported : ∀ rune ∈ runes, rune ≤ maxSupportedCodepoint) :
    (countCodepoints (encodeText runes)).2 ≠ (encodeText runes).length := by
  have three : (encode rune).length = 3 := by
    rw [encode_three (Nat.lt_of_lt_of_le (by decide) surrogate.1)
      (Nat.le_trans surrogate.2 (by decide))]
    rfl
  have long : 3 ≤ (encodeText runes).length := by
    obtain ⟨before, after, rfl⟩ := List.append_of_mem member
    rw [encodeText_append, encodeText_cons, List.length_append, List.length_append]
    omega
  have last := countLoop_last surrogate member supported 0 0 0 0
  rw [countCodepoints_of_ne_nil (List.length_pos_iff.mp (by omega))]
  dsimp only
  omega

theorem countLoop_le (bytes : List UInt8) (curr state codepoint points last : ℕ) :
    (countLoop bytes curr state codepoint points last).1 ≤ points + bytes.length := by
  induction bytes generalizing curr state codepoint points last with
  | nil => exact Nat.le_refl _
  | cons byte bytes ih =>
      rw [countLoop_cons, List.length_cons]
      split_ifs
      · exact Nat.le_trans (ih _ _ _ _ _) (by omega)
      · exact Nat.le_trans (ih _ _ _ _ _) (by omega)

/-- With as many codepoints as bytes every byte is ASCII. -/
theorem ascii_of_countLoop {bytes : List UInt8} {curr codepoint points last : ℕ}
    (full : (countLoop bytes curr accept codepoint points last).1 = points + bytes.length) :
    ∀ byte ∈ bytes, byte.toNat < 0x80 := by
  induction bytes generalizing curr codepoint points last with
  | nil => simp
  | cons byte bytes ih =>
      rw [countLoop_cons, List.length_cons] at full
      split_ifs at full with isAccept
      · intro other member
        rcases List.mem_cons.mp member with rfl | inTail
        · exact (next_accept_iff (UInt8.toNat_lt _)).mp isAccept
        · exact ih (full.trans (by omega)) other inTail
      · have few := countLoop_le bytes (curr + 1) (nextState accept byte.toNat)
          (decodeStep accept codepoint byte).2 points last
        rw [full] at few
        omega

theorem ascii_of_countCodepoints {bytes : List UInt8}
    (full : (countCodepoints bytes).1 = bytes.length) : ∀ byte ∈ bytes, byte.toNat < 0x80 := by
  cases bytes with
  | nil => simp
  | cons byte bytes =>
      have counted : (countLoop (byte :: bytes) 0 accept 0 0 0).1 = 0 + (byte :: bytes).length := by
        rw [Nat.zero_add]
        exact full
      exact ascii_of_countLoop counted

end Texts

/-- The largest part of a codepoint in a state that waits for more. -/
def partialBound (state : ℕ) : ℕ :=
  if state = oneTail then 0x43ff
  else if state = twoTails then 0x10f
  else if state = threeTails then 3
  else if state = afterED then 13
  else if state = afterF4 then 4
  else 0

def Tracks (state codepoint : ℕ) : Prop :=
  state = accept ∨ state = reject ∨ state ∈ tailStates ∧ codepoint ≤ partialBound state

theorem tracks_lead {byte : ℕ} (isByte : byte < 256) :
    Tracks (nextState accept byte) ((0xff >>> rangeClass byte) &&& byte) := by
  by_cases ascii : byte < 0x80
  · exact Or.inl ((next_accept_iff isByte).mpr ascii)
  by_cases invalid : byte < 0xc2 ∨ 0xf5 ≤ byte
  · exact Or.inr (Or.inl ((next_lead isByte).trans (rangeClass_invalid (by omega) invalid)))
  refine Or.inr (Or.inr ?_)
  by_cases two : byte < 0xe0
  · rw [next_lead2 (by omega) two, bits_lead2 (by omega) two]
    exact ⟨by decide, show byte - 0xc0 ≤ 0x43ff by omega⟩
  by_cases three : byte < 0xf0
  · rw [next_lead3 (by omega) three, bits_lead3 (by omega) three]
    split_ifs with isFirst isED
    · subst isFirst
      decide
    · subst isED
      decide
    · exact ⟨by decide, show byte - 0xe0 ≤ 0x10f by omega⟩
  · rw [next_lead4 (by omega) (by omega), bits_lead4 (by omega) (by omega)]
    split_ifs with isFirst isLast
    · subst isFirst
      decide
    · subst isLast
      decide
    · exact ⟨by decide, show byte - 0xf0 ≤ 3 by omega⟩

/-- What a state that waits for more goes to, by the bytes it accepts. -/
theorem tracks_tail {state byte : ℕ} (isState : state ∈ tailStates) (isByte : byte < 256) :
    let next := nextState state byte
    let bound := partialBound state * 64 + byte % 64
    next = reject ∨ next = accept ∧ bound ≤ maxSupportedCodepoint ∨
      next ∈ [oneTail, twoTails] ∧ bound ≤ partialBound next := by
  -- The bound of a state, by the largest byte of a range.
  have bounds : ∀ range ∈ [(1, 15), (9, 31), (7, 63)], ∀ state ∈ tailStates,
      let next := tailNext state range.1
      let bound := partialBound state * 64 + range.2
      next = reject ∨ next = accept ∧ bound ≤ maxSupportedCodepoint ∨
        next ∈ [oneTail, twoTails] ∧ bound ≤ partialBound next := by decide
  by_cases outside : byte < 0x80 ∨ 0xc0 ≤ byte
  · exact Or.inl (next_not_tail isState outside isByte)
  have isTail : ∃ range ∈ [(1, 15), (9, 31), (7, 63)],
      rangeClass byte = range.1 ∧ byte % 64 ≤ range.2 := by
    rcases rangeClass_tail (by omega) (show byte < 0xc0 by omega) with
      ⟨isClass, _⟩ | ⟨isClass, _⟩ | ⟨isClass, _⟩
    · exact ⟨(1, 15), by decide, isClass, show byte % 64 ≤ 15 by omega⟩
    · exact ⟨(9, 31), by decide, isClass, show byte % 64 ≤ 31 by omega⟩
    · exact ⟨(7, 63), by decide, isClass, show byte % 64 ≤ 63 by omega⟩
  obtain ⟨range, isRange, isClass, small⟩ := isTail
  dsimp only
  rw [next_state (List.mem_cons_of_mem _ isState) isByte, isClass]
  rcases bounds range isRange state isState with refused | ⟨isAccept, bounded⟩ | ⟨isOpen, bounded⟩
  · exact Or.inl refused
  · exact Or.inr (Or.inl ⟨isAccept, by omega⟩)
  · exact Or.inr (Or.inr ⟨isOpen, by omega⟩)

theorem partialBound_le (state : ℕ) : partialBound state ≤ 0x43ff := by
  unfold partialBound
  split_ifs <;> decide

/-- A codepoint stays in bounds, and is supported once it is accepted. -/
theorem tracks_decodeStep {state codepoint : ℕ} (tracks : Tracks state codepoint) (byte : UInt8) :
    Tracks (decodeStep state codepoint byte).1 (decodeStep state codepoint byte).2 ∧
      ((decodeStep state codepoint byte).1 = accept →
        (decodeStep state codepoint byte).2 ≤ maxSupportedCodepoint) := by
  have isByte : byte.toNat < 256 := byte.toNat_lt
  rcases tracks with rfl | rfl | ⟨isTail, bounded⟩
  · rw [decodeStep_accept]
    have small : byte.toNat ≤ maxSupportedCodepoint :=
      Nat.le_trans (Nat.le_of_lt isByte) (by decide)
    exact ⟨tracks_lead isByte, fun _ => Nat.le_trans Nat.and_le_right small⟩
  · have stays : (decodeStep reject codepoint byte).1 = reject := next_reject isByte
    rw [stays]
    exact ⟨Or.inr (Or.inl rfl), fun isAccept => absurd isAccept (by decide)⟩
  · have inside : state ≠ accept := by
      rintro rfl
      exact absurd isTail (by decide)
    have small := partialBound_le state
    rw [decodeStep_tail inside (by omega)]
    dsimp only
    rcases tracks_tail isTail isByte with
      isReject | ⟨isAccept, supported⟩ | ⟨isOpen, inBound⟩
    · rw [isReject]
      exact ⟨Or.inr (Or.inl rfl), fun isAccept => absurd isAccept (by decide)⟩
    · rw [isAccept]
      exact ⟨Or.inl rfl, fun _ => by omega⟩
    · refine ⟨Or.inr (Or.inr ⟨?_, by omega⟩), fun isAccept => ?_⟩
      · exact List.mem_cons.mpr ((List.mem_cons.mp isOpen).imp_right fun isTwo =>
          List.mem_cons.mpr (Or.inl (List.mem_singleton.mp isTwo)))
      · rw [isAccept] at isOpen
        exact absurd isOpen (by decide)

theorem decodeLoop_supported {bytes : List UInt8} {consumed state codepoint : ℕ}
    (tracks : Tracks state codepoint) (start : consumed = 0 → codepoint = 0)
    {decoded : ℕ × ℕ} (isDecoded : decodeLoop bytes consumed state codepoint = some decoded) :
    decoded.1 ≤ maxSupportedCodepoint := by
  induction bytes generalizing consumed state codepoint with
  | nil =>
      simp only [decodeLoop, Option.ite_none_right_eq_some, Option.some.injEq] at isDecoded
      obtain ⟨first, rfl⟩ := isDecoded
      rw [start first]
      exact Nat.zero_le _
  | cons byte bytes ih =>
      obtain ⟨tracked, supported⟩ := tracks_decodeStep tracks byte
      simp only [decodeLoop] at isDecoded
      split_ifs at isDecoded with isNul first isAccept
      · cases isDecoded
        rw [start first]
        exact Nat.zero_le _
      · cases isDecoded
        exact supported isAccept
      · exact ih tracked (fun isZero => absurd isZero (Nat.succ_ne_zero _)) isDecoded

theorem decode_supported {bytes : List UInt8} {decoded : ℕ × ℕ}
    (isDecoded : decode bytes = some decoded) : decoded.1 ≤ maxSupportedCodepoint :=
  decodeLoop_supported (Or.inl rfl) (fun _ => rfl) isDecoded

theorem decode_encode {rune : ℕ} (scalar : IsScalar rune) (notNul : rune ≠ 0)
    (rest : List UInt8) :
    decode (encode rune ++ rest) = some (rune, (encode rune).length) := by
  have noNul : (0 : UInt8) ∉ encode rune := fun member =>
    notNul ((nul_mem_encode scalar.1).mp member)
  unfold decode
  rw [(reads_encode scalar 0).decodeLoop noNul, Nat.zero_add]

end Disvm.Utf8
