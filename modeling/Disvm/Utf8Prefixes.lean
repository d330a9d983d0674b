import Disvm.Utf8Codec

/-!
# The longest UTF-8 prefix of bytes

The automaton ends a codepoint only on the encoding of a rune, and it never ends
another one after bytes that do not go on with such an encoding.  The codepoints
counted are therefore those of the longest prefix that is UTF-8.
-/

namespace Disvm.Utf8

/-- The longest text at the beginning of bytes, by its runes. -/
structure LongestText (bytes : List UInt8) (runes : List ℕ) : Prop where
  scalars : ∀ rune ∈ runes, IsScalar rune
  isPrefix : encodeText runes <+: bytes
  longest : ∀ other, (∀ rune ∈ other, IsScalar rune) → encodeText other <+: bytes →
    (encodeText other).length ≤ (encodeText runes).length

section Inversion

variable {state codepoint rune byte : ℕ} {bytes : List UInt8}

theorem next_outside_E0 (low : 0x80 ≤ byte) (high : byte < 0xa0) :
    nextState afterE0 byte = reject := by
  rw [next_state (by decide) (by omega)]
  rcases rangeClass_tail low (by omega) with ⟨isTail, _⟩ | ⟨isTail, _⟩ | ⟨_, large⟩
  · rw [isTail]
    decide
  · rw [isTail]
    decide
  · omega

theorem next_outside_F0 (low : 0x80 ≤ byte) (high : byte < 0x90) :
    nextState afterF0 byte = reject := by
  rw [next_state (by decide) (by omega)]
  rcases rangeClass_tail low (by omega) with ⟨isTail, _⟩ | ⟨_, large, _⟩ | ⟨_, large⟩
  · rw [isTail]
    decide
  · omega
  · omega

theorem next_outside_F4 (low : 0x90 ≤ byte) (high : byte < 0xc0) :
    nextState afterF4 byte = reject := by
  rw [next_state (by decide) (by omega)]
  rcases rangeClass_tail (by omega) high with ⟨_, small⟩ | ⟨isTail, _⟩ | ⟨isTail, _⟩
  · omega
  · rw [isTail]
    decide
  · rw [isTail]
    decide

theorem next_invalid (low : 0x80 ≤ byte) (high : byte < 0xc2 ∨ 0xf5 ≤ byte) (isByte : byte < 256) :
    nextState accept byte = reject := by
  rw [next_lead isByte, rangeClass_invalid low high]

theorem not_reads_reject (codepoint : ℕ) (bytes : List UInt8) (rune : ℕ) :
    ¬ Reads reject codepoint bytes rune := by
  intro reads
  generalize isReject : reject = state at reads
  induction reads with
  | last step =>
      subst isReject
      have isAccept : reject = accept :=
        (next_reject (UInt8.toNat_lt _)).symm.trans (congrArg Prod.fst step)
      exact absurd isAccept (by decide)
  | more step _ _ ih =>
      subst isReject
      exact ih ((next_reject (UInt8.toNat_lt _)).symm.trans (congrArg Prod.fst step))

/-- The first byte of a codepoint or of its rest. -/
theorem Reads.uncons (reads : Reads state codepoint bytes rune) :
    ∃ byte rest, bytes = byte :: rest ∧ nextState state byte.toNat ≠ reject ∧
      (nextState state byte.toNat = accept ∧ rest = [] ∧
          rune = (decodeStep state codepoint byte).2 ∨
        nextState state byte.toNat ≠ accept ∧
          Reads (nextState state byte.toNat) (decodeStep state codepoint byte).2 rest rune) := by
  cases reads with
  | @last _ _ byte _ step =>
      have isAccept : nextState state byte.toNat = accept := congrArg Prod.fst step
      refine ⟨byte, [], rfl, ?_, Or.inl ⟨isAccept, rfl, (congrArg Prod.snd step).symm⟩⟩
      rw [isAccept]
      decide
  | @more _ _ byte next _ rest _ step notYet reads =>
      have isNext : nextState state byte.toNat = next := congrArg Prod.fst step
      have isCodepoint := congrArg Prod.snd step
      refine ⟨byte, rest, rfl, ?_, Or.inr ?_⟩
      · intro isReject
        rw [← isNext, isReject] at reads
        exact not_reads_reject _ _ _ reads
      · rw [isNext, isCodepoint]
        exact ⟨notYet, reads⟩

/-- A codepoint that is begun goes on with a tail byte. -/
theorem Reads.tail (reads : Reads state codepoint bytes rune) (isState : state ∈ tailStates)
    (small : codepoint < 2 ^ 26) :
    ∃ bits rest, bits < 64 ∧ bytes = UInt8.ofNat (0x80 + bits) :: rest ∧
      nextState state (0x80 + bits) ≠ reject ∧
      (nextState state (0x80 + bits) = accept ∧ rest = [] ∧ rune = codepoint * 64 + bits ∨
        nextState state (0x80 + bits) ≠ accept ∧
          Reads (nextState state (0x80 + bits)) (codepoint * 64 + bits) rest rune) := by
  have inside : state ≠ accept := by
    rintro rfl
    exact absurd isState (by decide)
  obtain ⟨byte, rest, rfl, notReject, next⟩ := reads.uncons
  have isTail : 0x80 ≤ byte.toNat ∧ byte.toNat < 0xc0 := by
    by_contra outside
    exact notReject (next_not_tail isState (by omega) byte.toNat_lt)
  have isByte : 0x80 + (byte.toNat - 0x80) = byte.toNat := by omega
  have bits : byte.toNat % 64 = byte.toNat - 0x80 := by omega
  refine ⟨byte.toNat - 0x80, rest, by omega, ?_, ?_, ?_⟩
  · rw [isByte, UInt8.ofNat_toNat]
  · rw [isByte]
    exact notReject
  · rw [decodeStep_tail inside small, bits] at next
    rw [isByte]
    exact next

theorem Reads.of_oneTail (reads : Reads oneTail codepoint bytes rune)
    (small : codepoint < 2 ^ 26) :
    ∃ bits < 64, bytes = [UInt8.ofNat (0x80 + bits)] ∧ rune = codepoint * 64 + bits := by
  obtain ⟨bits, rest, isBits, rfl, -, ended | ⟨notYet, -⟩⟩ := reads.tail (by decide) small
  · obtain ⟨-, rfl, isRune⟩ := ended
    exact ⟨bits, isBits, rfl, isRune⟩
  · exact absurd (next_tail (Nat.le_add_right _ _) (by omega)).1 notYet

/-- A tail byte before the last one. -/
theorem Reads.tail_then (reads : Reads state codepoint bytes rune) (next : ℕ)
    (isState : state ∈ tailStates) (small : codepoint < 2 ^ 26) (notLast : next ≠ accept)
    (goesOn : ∀ bits < 64, nextState state (0x80 + bits) ≠ reject →
      nextState state (0x80 + bits) = next) :
    ∃ bits rest, bits < 64 ∧ bytes = UInt8.ofNat (0x80 + bits) :: rest ∧
      nextState state (0x80 + bits) = next ∧ Reads next (codepoint * 64 + bits) rest rune := by
  obtain ⟨bits, rest, isBits, rfl, notReject, ⟨ended, -⟩ | ⟨-, later⟩⟩ := reads.tail isState small
  · exact absurd ((goesOn bits isBits notReject).symm.trans ended) notLast
  · have isNext := goesOn bits isBits notReject
    rw [isNext] at later
    exact ⟨bits, rest, isBits, rfl, isNext, later⟩

theorem Reads.of_twoTails (reads : Reads twoTails codepoint bytes rune)
    (small : codepoint < 2 ^ 16) :
    ∃ first < 64, ∃ second < 64,
      bytes = [UInt8.ofNat (0x80 + first), UInt8.ofNat (0x80 + second)] ∧
        rune = (codepoint * 64 + first) * 64 + second := by
  obtain ⟨first, rest, isFirst, rfl, -, later⟩ := reads.tail_then oneTail (by decide)
    (by omega) (by decide) fun bits isBits _ => (next_tail (Nat.le_add_right _ _) (by omega)).2.1
  obtain ⟨second, isSecond, rfl, isRune⟩ := later.of_oneTail (by omega)
  exact ⟨first, isFirst, second, isSecond, rfl, isRune⟩

/-- The bytes after the first of three, by what the second one must be. -/
theorem Reads.of_three {lead : ℕ} (isLead : lead < 16)
    (reads : Reads (if 0xe0 + lead = 0xe0 then afterE0 else if 0xe0 + lead = 0xed then afterED
      else twoTails) lead bytes rune) :
    UInt8.ofNat (0xe0 + lead) :: bytes = encode rune ∧ IsScalar rune := by
  have read : ∃ first < 64, ∃ second < 64,
      bytes = [UInt8.ofNat (0x80 + first), UInt8.ofNat (0x80 + second)] ∧
        rune = (lead * 64 + first) * 64 + second ∧ (lead = 0 → 0x20 ≤ first) ∧
        (lead = 0xd → first < 0x20) := by
    split_ifs at reads with isE0 isED
    · obtain ⟨first, rest, isFirst, rfl, isNext, later⟩ := reads.tail_then oneTail
        (by decide) (by omega) (by decide) fun bits isBits notReject => by
          by_cases low : 0x80 + bits < 0xa0
          · exact absurd (next_outside_E0 (Nat.le_add_right _ _) low) notReject
          · exact next_afterE0 (by omega) (by omega)
      obtain ⟨second, isSecond, rfl, isRune⟩ := later.of_oneTail (by omega)
      refine ⟨first, isFirst, second, isSecond, rfl, isRune, fun _ => ?_, by omega⟩
      by_contra low
      rw [next_outside_E0 (Nat.le_add_right _ _) (by omega)] at isNext
      exact absurd isNext (by decide)
    · obtain ⟨first, rest, isFirst, rfl, isNext, later⟩ := reads.tail_then oneTail
        (by decide) (by omega) (by decide) fun bits isBits notReject => by
          rw [next_afterED (by omega) (by omega)] at notReject ⊢
          split_ifs at notReject ⊢
          · rfl
          · exact absurd rfl notReject
      obtain ⟨second, isSecond, rfl, isRune⟩ := later.of_oneTail (by omega)
      refine ⟨first, isFirst, second, isSecond, rfl, isRune, by omega, fun _ => ?_⟩
      by_contra high
      rw [next_afterED (by omega) (by omega), if_neg (by omega)] at isNext
      exact absurd isNext (by decide)
    · obtain ⟨first, isFirst, second, isSecond, isBytes, isRune⟩ := reads.of_twoTails (by omega)
      exact ⟨first, isFirst, second, isSecond, isBytes, isRune, by omega, by omega⟩
  obtain ⟨first, isFirst, second, isSecond, rfl, rfl, afterFirst, beforeSurrogates⟩ := read
  refine ⟨?_, ?_, ?_⟩
  · rw [encode_three (by omega) (by omega)]
    congr 3 <;> congr 1 <;> omega
  · unfold maxSupportedCodepoint maxCodepoint4Byte
    omega
  · unfold IsSurrogate
    omega

/-- The bytes after the first of four. -/
theorem Reads.of_four {lead : ℕ} (isLead : lead < 5)
    (reads : Reads (if 0xf0 + lead = 0xf0 then afterF0 else if 0xf0 + lead = 0xf4 then afterF4
      else threeTails) lead bytes rune) :
    UInt8.ofNat (0xf0 + lead) :: bytes = encode rune ∧ IsScalar rune := by
  have read : ∃ first rest, first < 64 ∧ bytes = UInt8.ofNat (0x80 + first) :: rest ∧
      Reads twoTails (lead * 64 + first) rest rune ∧ (lead = 0 → 0x10 ≤ first) ∧
      (lead = 4 → first < 0x10) := by
    split_ifs at reads with isF0 isF4
    · obtain ⟨first, rest, isFirst, rfl, isNext, later⟩ := reads.tail_then twoTails
        (by decide) (by omega) (by decide) fun bits isBits notReject => by
          by_cases low : 0x80 + bits < 0x90
          · exact absurd (next_outside_F0 (Nat.le_add_right _ _) low) notReject
          · exact next_afterF0 (by omega) (by omega)
      refine ⟨first, rest, isFirst, rfl, later, fun _ => ?_, by omega⟩
      by_contra low
      rw [next_outside_F0 (Nat.le_add_right _ _) (by omega)] at isNext
      exact absurd isNext (by decide)
    · obtain ⟨first, rest, isFirst, rfl, isNext, later⟩ := reads.tail_then twoTails
        (by decide) (by omega) (by decide) fun bits isBits notReject => by
          by_cases low : 0x80 + bits < 0x90
          · exact next_afterF4 (by omega) low
          · exact absurd (next_outside_F4 (by omega) (by omega)) notReject
      refine ⟨first, rest, isFirst, rfl, later, by omega, fun _ => ?_⟩
      by_contra high
      rw [next_outside_F4 (by omega) (by omega)] at isNext
      exact absurd isNext (by decide)
    · obtain ⟨first, rest, isFirst, rfl, -, later⟩ := reads.tail_then twoTails
        (by decide) (by omega) (by decide) fun bits isBits _ =>
          (next_tail (Nat.le_add_right _ _) (by omega)).2.2
      exact ⟨first, rest, isFirst, rfl, later, by omega, by omega⟩
  obtain ⟨first, rest, isFirst, rfl, later, afterFirst, beforeLast⟩ := read
  obtain ⟨second, isSecond, third, isThird, rfl, rfl⟩ := later.of_twoTails (by omega)
  refine ⟨?_, ?_, ?_⟩
  · rw [encode_four (by omega) (by omega)]
    congr 4 <;> congr 1 <;> omega
  · unfold maxSupportedCodepoint maxCodepoint4Byte
    omega
  · unfold IsSurrogate
    omega

/-- The automaton ends a codepoint on the encoding of a rune only. -/
theorem Reads.of_accept (reads : Reads accept codepoint bytes rune) :
    bytes = encode rune ∧ IsScalar rune := by
  obtain ⟨byte, rest, rfl, notReject, next⟩ := reads.uncons
  have isByte := byte.toNat_lt
  rw [decodeStep_accept] at next
  by_cases ascii : byte.toNat < 0x80
  · rw [(next_accept_iff isByte).mpr ascii, bits_ascii ascii] at next
    obtain ⟨-, rfl, rfl⟩ | ⟨notAccept, -⟩ := next
    · refine ⟨?_, ?_, ?_⟩
      · rw [encode_ascii (by omega), UInt8.ofNat_toNat]
      · exact Nat.le_trans (Nat.le_of_lt isByte) (by decide)
      · unfold IsSurrogate
        omega
    · exact absurd rfl notAccept
  by_cases invalid : byte.toNat < 0xc2 ∨ 0xf5 ≤ byte.toNat
  · exact absurd (next_invalid (by omega) invalid isByte) notReject
  by_cases two : byte.toNat < 0xe0
  · obtain ⟨lead, isLead⟩ := Nat.exists_eq_add_of_le (show 0xc0 ≤ byte.toNat by omega)
    have isOfNat : byte = UInt8.ofNat (0xc0 + lead) := by rw [← isLead, UInt8.ofNat_toNat]
    rw [next_lead2 (by omega) two, bits_lead2 (by omega) two, isLead,
      Nat.add_sub_cancel_left] at next
    obtain ⟨isAccept, -⟩ | ⟨-, later⟩ := next
    · exact absurd isAccept (by decide)
    · dsimp only at later
      obtain ⟨bits, isBits, rfl, rfl⟩ := later.of_oneTail (by omega)
      refine ⟨?_, ?_, ?_⟩
      · rw [encode_two (by omega) (by omega), isOfNat]
        congr 2 <;> congr 1 <;> omega
      · unfold maxSupportedCodepoint maxCodepoint4Byte
        omega
      · unfold IsSurrogate
        omega
  by_cases three : byte.toNat < 0xf0
  · obtain ⟨lead, isLead⟩ := Nat.exists_eq_add_of_le (show 0xe0 ≤ byte.toNat by omega)
    have isOfNat : byte = UInt8.ofNat (0xe0 + lead) := by rw [← isLead, UInt8.ofNat_toNat]
    rw [next_lead3 (by omega) three, bits_lead3 (by omega) three, isLead,
      Nat.add_sub_cancel_left] at next
    obtain ⟨isAccept, -⟩ | ⟨-, later⟩ := next
    · split_ifs at isAccept <;> exact absurd isAccept (by decide)
    · rw [isOfNat]
      exact later.of_three (by omega)
  · obtain ⟨lead, isLead⟩ := Nat.exists_eq_add_of_le (show 0xf0 ≤ byte.toNat by omega)
    have isOfNat : byte = UInt8.ofNat (0xf0 + lead) := by rw [← isLead, UInt8.ofNat_toNat]
    rw [next_lead4 (by omega) (by omega), bits_lead4 (by omega) (by omega), isLead,
      Nat.add_sub_cancel_left] at next
    obtain ⟨isAccept, -⟩ | ⟨-, later⟩ := next
    · split_ifs at isAccept <;> exact absurd isAccept (by decide)
    · rw [isOfNat]
      exact later.of_four (by omega)

end Inversion

section Prefixes

variable {bytes : List UInt8} {runes : List ℕ}

/-- Bytes begin with one codepoint at most. -/
theorem Reads.unique {state codepoint rune otherRune : ℕ} {other rest otherRest : List UInt8}
    (reads : Reads state codepoint bytes rune) (others : Reads state codepoint other otherRune)
    (same : bytes ++ rest = other ++ otherRest) : bytes = other ∧ rune = otherRune := by
  induction reads generalizing other with
  | last step =>
      cases others with
      | last otherStep =>
          obtain ⟨rfl, -⟩ := List.cons.inj same
          rw [step] at otherStep
          cases otherStep
          exact ⟨rfl, rfl⟩
      | more otherStep notYet _ =>
          obtain ⟨rfl, -⟩ := List.cons.inj same
          rw [step] at otherStep
          cases otherStep
          exact absurd rfl notYet
  | more step notYet _ ih =>
      cases others with
      | last otherStep =>
          obtain ⟨rfl, -⟩ := List.cons.inj same
          rw [step] at otherStep
          cases otherStep
          exact absurd rfl notYet
      | more otherStep _ otherReads =>
          obtain ⟨rfl, sameRest⟩ := List.cons.inj same
          rw [step] at otherStep
          cases otherStep
          obtain ⟨rfl, isRune⟩ := ih otherReads sameRest
          exact ⟨rfl, isRune⟩

theorem encode_unique {rune otherRune : ℕ} (scalar : IsScalar rune)
    (otherScalar : IsScalar otherRune)
    {rest otherRest : List UInt8} (same : encode rune ++ rest = encode otherRune ++ otherRest) :
    rune = otherRune ∧ rest = otherRest := by
  obtain ⟨sameBytes, sameRune⟩ := (reads_encode scalar 0).unique (reads_encode otherScalar 0) same
  rw [sameBytes] at same
  exact ⟨sameRune, List.append_cancel_left same⟩

/-- No codepoint is counted in bytes that begin with none. -/
theorem countLoop_stuck {state codepoint : ℕ} (curr points last : ℕ)
    (stuck : ∀ read rune, Reads state codepoint read rune → ¬ read <+: bytes) :
    countLoop bytes curr state codepoint points last = (points, last) := by
  induction bytes generalizing state codepoint curr with
  | nil => rfl
  | cons byte bytes ih =>
      rw [countLoop_cons]
      by_cases isAccept : nextState state byte.toNat = accept
      · have reads : Reads state codepoint [byte] (decodeStep state codepoint byte).2 :=
          .last (Prod.ext isAccept rfl)
        exact absurd (List.cons_prefix_cons.mpr ⟨rfl, List.nil_prefix⟩) (stuck _ _ reads)
      · rw [if_neg isAccept]
        apply ih
        intro read rune reads isPrefix
        exact stuck (byte :: read) rune (.more rfl isAccept reads)
          (List.cons_prefix_cons.mpr ⟨rfl, isPrefix⟩)

/-- Bytes are a text followed by bytes that begin with no codepoint. -/
theorem exists_text (bytes : List UInt8) :
    ∃ runes rest, (∀ rune ∈ runes, IsScalar rune) ∧ bytes = encodeText runes ++ rest ∧
      ∀ rune, IsScalar rune → ¬ encode rune <+: rest := by
  induction isLength : bytes.length using Nat.strong_induction_on generalizing bytes with
  | h length ih =>
      by_cases begins : ∃ rune, IsScalar rune ∧ encode rune <+: bytes
      · obtain ⟨rune, scalar, after, rfl⟩ := begins
        have taken := List.length_pos_iff.mpr (encode_ne_nil scalar.1)
        obtain ⟨runes, rest, scalars, rfl, stuck⟩ := ih after.length (by
          rw [← isLength, List.length_append]
          omega) after rfl
        refine ⟨rune :: runes, rest, ?_, ?_, stuck⟩
        · intro other member
          rcases List.mem_cons.mp member with rfl | inRest
          · exact scalar
          · exact scalars other inRest
        · rw [encodeText_cons, List.append_assoc]
      · refine ⟨[], bytes, by simp, rfl, fun rune scalar isPrefix => ?_⟩
        exact begins ⟨rune, scalar, isPrefix⟩

/-- Any other text at the beginning is a part of that one. -/
theorem text_isPrefix {other : List ℕ} {rest : List UInt8} (scalars : ∀ rune ∈ runes, IsScalar rune)
    (stuck : ∀ rune, IsScalar rune → ¬ encode rune <+: rest)
    (otherScalars : ∀ rune ∈ other, IsScalar rune)
    (isPrefix : encodeText other <+: encodeText runes ++ rest) : other <+: runes := by
  induction other generalizing runes with
  | nil => exact List.nil_prefix
  | cons otherRune other ih =>
      obtain ⟨after, same⟩ := isPrefix
      rw [encodeText_cons, List.append_assoc] at same
      have otherScalar := otherScalars otherRune List.mem_cons_self
      cases runes with
      | nil => exact absurd ⟨_, same⟩ (stuck otherRune otherScalar)
      | cons rune runes =>
          rw [encodeText_cons, List.append_assoc] at same
          obtain ⟨rfl, sameRest⟩ := encode_unique otherScalar (scalars rune List.mem_cons_self) same
          exact List.cons_prefix_cons.mpr ⟨rfl,
            ih (fun other member => scalars other (List.mem_cons_of_mem _ member))
              (fun other member => otherScalars other (List.mem_cons_of_mem _ member))
              ⟨after, sameRest⟩⟩

theorem encodeText_isPrefix {other : List ℕ} (isPrefix : other <+: runes) :
    encodeText other <+: encodeText runes := by
  obtain ⟨rest, rfl⟩ := isPrefix
  rw [encodeText_append]
  exact List.prefix_append _ _

/-- The codepoints counted from the start are those of the longest text. -/
theorem exists_longestText (bytes : List UInt8) :
    ∃ runes, LongestText bytes runes ∧
      countLoop bytes 0 accept 0 0 0 = (runes.length, (encodeText runes).length - 1) := by
  obtain ⟨runes, rest, scalars, rfl, stuck⟩ := exists_text bytes
  refine ⟨runes, ⟨scalars, List.prefix_append _ _, fun other otherScalars isPrefix => ?_⟩, ?_⟩
  · exact (encodeText_isPrefix (text_isPrefix scalars stuck otherScalars isPrefix)).length_le
  · obtain ⟨later, counted⟩ := countLoop_encodeText scalars rest 0 0 0 0
    rw [counted, countLoop_stuck]
    · rw [Nat.zero_add, Nat.zero_add]
      split_ifs with isNil
      · rw [isNil]
        rfl
      · rfl
    · intro read rune reads isPrefix
      obtain ⟨rfl, scalar⟩ := reads.of_accept
      exact stuck rune scalar isPrefix

end Prefixes

end Disvm.Utf8
