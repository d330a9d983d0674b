import Disvm.Utf8Prefixes
import Mathlib.Data.BitVec

/-!
# Characters and bytes

`byte2char` runs the automaton of the decoder on a part of an array, and `char2byte` encodes a
character into a local buffer and copies as many bytes as lie between the start of the buffer
and the pointer that the encoder returns.
-/

namespace Disvm.CharBytes

open Utf8

abbrev Word := BitVec 32

def utfError : Word := 0xfffd

/-- `(int, int, int)`. -/
structure Decoded where
  t0 : Word
  t1 : ℕ
  t2 : ℕ
  deriving DecidableEq, Repr

/-- The loop of `byte2char`, after some bytes have been consumed. -/
def byteLoop : List UInt8 → (consumed state codepoint : ℕ) → Decoded
  | [], _, _, _ => ⟨utfError, 0, 0⟩
  | b :: rest, consumed, state, codepoint =>
      let (state, codepoint) := decodeStep state codepoint b
      if state = accept then ⟨BitVec.ofNat 32 codepoint, consumed + 1, 1⟩
      else if state = reject then ⟨utfError, 1, 0⟩
      else byteLoop rest (consumed + 1) state codepoint

/-- `Sys_byte2char`, nothing when it throws. -/
def byte2char (buf : List UInt8) (n : ℕ) : Option Decoded :=
  if buf.length ≤ n then none else some (byteLoop (buf.drop n) 0 accept 0)

/-- The local buffer: where it is, and what is found in it before it is written to. -/
structure LocalBuffer where
  address : Word
  contents : ℕ → UInt8

/-- The pointer behind the bytes that `encode` has written, null for a rune that is not
supported. -/
def encodeEnd (address : Word) (rune : ℕ) : Word :=
  if rune ≤ maxSupportedCodepoint then address + BitVec.ofNat 32 (encode rune).length else 0

/-- The bytes from the start of the local buffer on, once a rune has been encoded. -/
def localBytes (buffer : LocalBuffer) (rune count : ℕ) : List UInt8 :=
  (List.range count).map fun index => ((encode rune)[index]?).getD (buffer.contents index)

/-- `Sys_char2byte`: the result and the array, nothing when it throws. -/
def char2byte (buffer : LocalBuffer) (c : Word) (buf : List UInt8) (n : ℕ) :
    Option (ℤ × List UInt8) :=
  if buf.length ≤ n then none
  else
    let count := (encodeEnd buffer.address c.toNat - buffer.address).toInt
    let finalIndex := (n : ℤ) + count
    if (buf.length : ℤ) < finalIndex then some (0, buf)
    else some (count, buf.take n ++ localBytes buffer c.toNat count.toNat ++
      buf.drop (n + count.toNat))

/-- The character has been written and is read back. -/
structure Written (c : Word) (buf : List UInt8) (n k : ℕ) (later : List UInt8) : Prop where
  positive : 0 < k
  length : later.length = buf.length
  others : ∀ index, ¬ (n ≤ index ∧ index < n + k) → later[index]? = buf[index]?
  readBack : byte2char later n = some ⟨c, k, 1⟩

/-- A character is written and read back, or nothing is written, wherever the local buffer
is. -/
def EncodeLaw (c : Word) (buf : List UInt8) (n : ℕ) : Prop :=
  ∀ buffer, ∃ (k : ℕ) (later : List UInt8),
    char2byte buffer c buf n = some ((k : ℤ), later) ∧
      (Written c buf n k later ∨ k = 0 ∧ later = buf)

/-- A character that has been read is written as it was. -/
def DecodeLaw (buf : List UInt8) (n : ℕ) : Prop :=
  ∀ (c : Word) (k : ℕ), byte2char buf n = some ⟨c, k, 1⟩ →
    ∀ buffer, char2byte buffer c buf n = some ((k : ℤ), buf)

section Reading

variable {bytes rest : List UInt8} {consumed state codepoint rune : ℕ}

theorem byteLoop_reads (reads : Reads state codepoint bytes rune) (rest : List UInt8)
    (consumed : ℕ) : byteLoop (bytes ++ rest) consumed state codepoint =
      ⟨BitVec.ofNat 32 rune, consumed + bytes.length, 1⟩ := by
  induction reads generalizing consumed with
  | last step =>
      rw [List.cons_append, byteLoop, step]
      rfl
  | @more state codepoint byte next partialCodepoint tail rune step notYet reads ih =>
      have notReject : next ≠ reject := by
        rintro rfl
        exact not_reads_reject _ _ _ reads
      rw [List.cons_append, byteLoop, step]
      dsimp only
      rw [if_neg notYet, if_neg notReject, ih, List.length_cons]
      congr 1
      omega

theorem exists_reads {k : ℕ} {c : Word}
    (decoded : byteLoop bytes consumed state codepoint = ⟨c, k, 1⟩) :
    ∃ read rest rune, bytes = read ++ rest ∧ Reads state codepoint read rune ∧
      c = BitVec.ofNat 32 rune ∧ k = consumed + read.length := by
  induction bytes generalizing consumed state codepoint with
  | nil => cases decoded
  | cons byte bytes ih =>
      rw [byteLoop] at decoded
      obtain ⟨next, partialCodepoint, step⟩ :
        ∃ next partialCodepoint, decodeStep state codepoint byte = (next, partialCodepoint) :=
          ⟨_, _, rfl⟩
      rw [step] at decoded
      dsimp only at decoded
      split_ifs at decoded with isAccept isReject
      · obtain ⟨rfl, rfl, -⟩ := Decoded.mk.inj decoded
        rw [isAccept] at step
        exact ⟨[byte], bytes, partialCodepoint, rfl, Reads.last step, rfl, rfl⟩
      · cases decoded
      · obtain ⟨read, rest, rune, rfl, reads, isRune, isCount⟩ := ih decoded
        refine ⟨byte :: read, rest, rune, rfl, Reads.more step isAccept reads, isRune, ?_⟩
        rw [isCount, List.length_cons]
        omega

/-- The automaton rejects the second byte of a surrogate. -/
theorem byteLoop_surrogate (surrogate : IsSurrogate rune) (rest : List UInt8) :
    byteLoop (encode rune ++ rest) 0 accept codepoint = ⟨utfError, 1, 0⟩ := by
  obtain ⟨low, high⟩ := surrogate
  have lead := decodeStep_lead codepoint (show 0xe0 + rune / 4096 < 256 by omega)
    (bits_lead3 (by omega) (by omega))
  rw [next_lead3 (by omega) (by omega), if_neg (by omega), if_pos (by omega)] at lead
  have second := decodeStep_further afterED (0xe0 + rune / 4096 - 0xe0) (by decide) (by omega)
    (Nat.mod_lt (rune / 64) (show 0 < 64 by decide))
  rw [next_afterED (by omega) (by omega), if_neg (by omega)] at second
  rw [encode_three (by omega) (by omega)]
  simp only [List.cons_append, byteLoop, lead, second]
  rw [if_neg (by decide), if_neg (by decide), if_neg (by decide), if_pos trivial]

end Reading

section Writing

variable {c : Word} {buf : List UInt8} {n : ℕ}

theorem count_supported {rune : ℕ} (supported : rune ≤ maxSupportedCodepoint) (address : Word) :
    (encodeEnd address rune - address).toInt = (encode rune).length := by
  have few := encode_length_le rune
  unfold encodeEnd
  rw [if_pos supported, BitVec.add_comm, BitVec.add_sub_cancel, BitVec.toInt_ofNat']
  apply Int.bmod_eq_of_le <;> omega

theorem localBytes_encode (buffer : LocalBuffer) (rune : ℕ) :
    localBytes buffer rune (encode rune).length = encode rune := by
  apply List.ext_getElem
  · rw [localBytes, List.length_map, List.length_range]
  · intro index _ inside
    simp [localBytes, inside]

theorem char2byte_supported (inRange : n < buf.length)
    (supported : c.toNat ≤ maxSupportedCodepoint) (buffer : LocalBuffer) :
    char2byte buffer c buf n =
      if buf.length < n + (encode c.toNat).length then some (0, buf)
      else some (((encode c.toNat).length : ℤ),
        buf.take n ++ encode c.toNat ++ buf.drop (n + (encode c.toNat).length)) := by
  unfold char2byte
  dsimp only
  rw [if_neg (by omega), count_supported supported, Int.toNat_natCast, localBytes_encode]
  congr 1
  exact propext (by omega)

/-- The rest of the array is left as it is. -/
theorem getElem?_written (bytes : List UInt8) (room : n + bytes.length ≤ buf.length) {index : ℕ}
    (outside : ¬ (n ≤ index ∧ index < n + bytes.length)) :
    (buf.take n ++ bytes ++ buf.drop (n + bytes.length))[index]? = buf[index]? := by
  have taken : (buf.take n).length = n := List.length_take_of_le (by omega)
  by_cases before : index < n
  · rw [List.append_assoc, List.getElem?_append_left (by omega), List.getElem?_take_of_lt before]
  · rw [List.getElem?_append_right (by rw [List.length_append]; omega), List.getElem?_drop,
      List.length_append, taken]
    congr 1
    omega

theorem length_written (bytes : List UInt8) (room : n + bytes.length ≤ buf.length) :
    (buf.take n ++ bytes ++ buf.drop (n + bytes.length)).length = buf.length := by
  rw [List.length_append, List.length_append, List.length_take_of_le (by omega), List.length_drop]
  omega

theorem byte2char_written (bytes : List UInt8) (inRange : n < buf.length)
    (room : n + bytes.length ≤ buf.length) :
    byte2char (buf.take n ++ bytes ++ buf.drop (n + bytes.length)) n =
      some (byteLoop (bytes ++ buf.drop (n + bytes.length)) 0 accept 0) := by
  unfold byte2char
  rw [length_written bytes room, if_neg (by omega), List.append_assoc,
    List.drop_left' (List.length_take_of_le (by omega))]

/-- Room for a rune is room for one byte at least. -/
theorem written_encode (inRange : n < buf.length) (scalar : IsScalar c.toNat)
    (room : n + (encode c.toNat).length ≤ buf.length) :
    Written c buf n (encode c.toNat).length
      (buf.take n ++ encode c.toNat ++ buf.drop (n + (encode c.toNat).length)) where
  positive := List.length_pos_iff.mpr (encode_ne_nil scalar.1)
  length := length_written _ room
  others _ := getElem?_written _ room
  readBack := by
    rw [byte2char_written _ inRange room, byteLoop_reads (reads_encode scalar 0),
      BitVec.ofNat_toNat, BitVec.setWidth_eq, Nat.zero_add]

theorem encodeLaw_scalar (inRange : n < buf.length) (scalar : IsScalar c.toNat) :
    EncodeLaw c buf n := by
  intro buffer
  rw [char2byte_supported inRange scalar.1]
  split_ifs with short
  · exact ⟨0, buf, rfl, Or.inr ⟨rfl, rfl⟩⟩
  · exact ⟨_, _, rfl, Or.inl (written_encode inRange scalar (by omega))⟩

theorem encode_surrogate_length (surrogate : IsSurrogate c.toNat) :
    (encode c.toNat).length = 3 := by
  obtain ⟨low, high⟩ := surrogate
  rw [encode_three (by omega) (by omega)]
  rfl

theorem encodeLaw_surrogate (inRange : n < buf.length) (surrogate : IsSurrogate c.toNat) :
    EncodeLaw c buf n ↔ buf.length < n + 3 := by
  have supported : c.toNat ≤ maxSupportedCodepoint := Nat.le_trans surrogate.2 (by decide)
  have three := encode_surrogate_length surrogate
  constructor
  · intro law
    by_contra noRoom
    obtain ⟨k, later, wrote, written⟩ := law ⟨1, fun _ => 0⟩
    rw [char2byte_supported inRange supported, if_neg (by omega)] at wrote
    obtain ⟨isCount, rfl⟩ := Prod.mk.inj (Option.some.inj wrote)
    rcases written with written | ⟨none, -⟩
    · have readBack := written.readBack
      rw [byte2char_written _ inRange (by omega), byteLoop_surrogate surrogate] at readBack
      cases Option.some.inj readBack
    · omega
  · intro short buffer
    rw [char2byte_supported inRange supported, if_pos (by omega)]
    exact ⟨0, buf, rfl, Or.inr ⟨rfl, rfl⟩⟩

/-- The null pointer lies before the local buffer. -/
theorem char2byte_unsupported (inRange : n < buf.length)
    (unsupported : maxSupportedCodepoint < c.toNat) (contents : ℕ → UInt8) :
    char2byte ⟨1, contents⟩ c buf n = some (-1, buf) := by
  have isCount : (encodeEnd 1 c.toNat - 1).toInt = -1 := by
    unfold encodeEnd
    rw [if_neg (Nat.not_le.mpr unsupported)]
    decide
  unfold char2byte
  dsimp only
  rw [isCount, if_neg (by omega), if_neg (by omega)]
  simp [localBytes]

theorem not_encodeLaw_unsupported (inRange : n < buf.length)
    (unsupported : maxSupportedCodepoint < c.toNat) : ¬ EncodeLaw c buf n := by
  intro law
  obtain ⟨k, later, wrote, -⟩ := law ⟨1, fun _ => 0⟩
  rw [char2byte_unsupported inRange unsupported] at wrote
  obtain ⟨isCount, -⟩ := Prod.mk.inj (Option.some.inj wrote)
  omega

theorem decodeLaw (inRange : n < buf.length) : DecodeLaw buf n := by
  intro c k decoded buffer
  unfold byte2char at decoded
  rw [if_neg (by omega)] at decoded
  obtain ⟨read, rest, rune, isRead, reads, rfl, rfl⟩ := exists_reads (Option.some.inj decoded)
  obtain ⟨rfl, scalar⟩ := reads.of_accept
  have isRune : (BitVec.ofNat 32 rune).toNat = rune := by
    have small : maxSupportedCodepoint < 2 ^ 32 := by decide
    have supported := scalar.1
    rw [BitVec.toNat_ofNat]
    exact Nat.mod_eq_of_lt (by omega)
  have lengths := congrArg List.length isRead
  rw [List.length_drop, List.length_append] at lengths
  rw [char2byte_supported inRange (by rw [isRune]; exact scalar.1), isRune, if_neg (by omega),
    ← List.drop_drop, isRead, List.drop_left, List.append_assoc, ← isRead,
    List.take_append_drop, Nat.zero_add]

/-- Every character that the decoder accepts is written and read back; a surrogate is written
where there is room for it, and read back as an error. -/
theorem char_byte_iff (c : Word) (buf : List UInt8) (n : ℕ) (inRange : n < buf.length) :
    EncodeLaw c buf n ∧ DecodeLaw buf n ↔
      IsScalar c.toNat ∨ IsSurrogate c.toNat ∧ buf.length < n + 3 := by
  rw [and_iff_left (decodeLaw inRange)]
  by_cases unsupported : maxSupportedCodepoint < c.toNat
  · apply iff_of_false (not_encodeLaw_unsupported inRange unsupported)
    rintro (scalar | ⟨surrogate, -⟩)
    · exact absurd scalar.1 (Nat.not_le.mpr unsupported)
    · exact absurd (Nat.le_trans surrogate.2 (by decide)) (Nat.not_le.mpr unsupported)
  · by_cases surrogate : IsSurrogate c.toNat
    · rw [encodeLaw_surrogate inRange surrogate]
      constructor
      · exact fun short => Or.inr ⟨surrogate, short⟩
      · rintro (scalar | ⟨-, short⟩)
        · exact absurd surrogate scalar.2
        · exact short
    · have scalar : IsScalar c.toNat := ⟨Nat.not_lt.mp unsupported, surrogate⟩
      exact iff_of_true (encodeLaw_scalar inRange scalar) (Or.inl scalar)

theorem char_byte_letter : EncodeLaw 65 [0, 0] 1 ∧ DecodeLaw [0, 0] 1 :=
  (char_byte_iff 65 [0, 0] 1 (by decide)).mpr (Or.inl (by decide))

/-- The first surrogate, and minus one. -/
theorem surrogate_not_char_byte :
    ¬ (EncodeLaw 0xd800 [0, 0, 0] 0 ∧ DecodeLaw [0, 0, 0] 0) ∧
      ¬ (EncodeLaw (-1) [0] 0 ∧ DecodeLaw [0] 0) := by
  constructor
  · rintro ⟨law, -⟩
    exact absurd ((encodeLaw_surrogate (by decide) (by decide)).mp law) (by decide)
  · rintro ⟨law, -⟩
    exact not_encodeLaw_unsupported (by decide) (by decide) law

end Writing

end Disvm.CharBytes
