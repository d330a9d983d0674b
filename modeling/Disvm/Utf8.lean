import Mathlib.Data.Nat.Bitwise
import Mathlib.Algebra.Order.Ring.Nat

/-!
# UTF-8

The decoder reads a byte at a time through a table that holds the class of each
byte and, after these, the transitions of its automaton.  A state of the
automaton is its row in the table.
-/

namespace Disvm.Utf8

def multiByteValueMask : ℕ := 0x3f
def maxCodepointAscii : ℕ := 0x7f
def maxCodepoint2Byte : ℕ := 0x7ff
def maxCodepoint3Byte : ℕ := 0xffff
def maxCodepoint4Byte : ℕ := 0x10ffff
def maxSupportedCodepoint : ℕ := maxCodepoint4Byte

def utf8d : List ℕ := [
  -- Bytes to character classes.
  0, 0, 0, 0, 0, 0, 0, 0, 0, 0, 0, 0, 0, 0, 0, 0, 0, 0, 0, 0, 0, 0, 0, 0, 0, 0, 0, 0, 0, 0, 0, 0,
  0, 0, 0, 0, 0, 0, 0, 0, 0, 0, 0, 0, 0, 0, 0, 0, 0, 0, 0, 0, 0, 0, 0, 0, 0, 0, 0, 0, 0, 0, 0, 0,
  0, 0, 0, 0, 0, 0, 0, 0, 0, 0, 0, 0, 0, 0, 0, 0, 0, 0, 0, 0, 0, 0, 0, 0, 0, 0, 0, 0, 0, 0, 0, 0,
  0, 0, 0, 0, 0, 0, 0, 0, 0, 0, 0, 0, 0, 0, 0, 0, 0, 0, 0, 0, 0, 0, 0, 0, 0, 0, 0, 0, 0, 0, 0, 0,
  1, 1, 1, 1, 1, 1, 1, 1, 1, 1, 1, 1, 1, 1, 1, 1, 9, 9, 9, 9, 9, 9, 9, 9, 9, 9, 9, 9, 9, 9, 9, 9,
  7, 7, 7, 7, 7, 7, 7, 7, 7, 7, 7, 7, 7, 7, 7, 7, 7, 7, 7, 7, 7, 7, 7, 7, 7, 7, 7, 7, 7, 7, 7, 7,
  8, 8, 2, 2, 2, 2, 2, 2, 2, 2, 2, 2, 2, 2, 2, 2, 2, 2, 2, 2, 2, 2, 2, 2, 2, 2, 2, 2, 2, 2, 2, 2,
  10, 3, 3, 3, 3, 3, 3, 3, 3, 3, 3, 3, 3, 4, 3, 3, 11, 6, 6, 6, 5, 8, 8, 8, 8, 8, 8, 8, 8, 8, 8, 8,
  -- A state and a character class to a state.
  0, 12, 24, 36, 60, 96, 84, 12, 12, 12, 48, 72, 12, 12, 12, 12, 12, 12, 12, 12, 12, 12, 12, 12,
  12, 0, 12, 12, 12, 12, 12, 0, 12, 0, 12, 12, 12, 24, 12, 12, 12, 12, 12, 24, 12, 24, 12, 12,
  12, 12, 12, 12, 12, 12, 12, 24, 12, 12, 12, 12, 12, 24, 12, 12, 12, 12, 12, 12, 12, 24, 12, 12,
  12, 12, 12, 12, 12, 12, 12, 36, 12, 36, 12, 12, 12, 36, 12, 12, 12, 12, 12, 36, 12, 36, 12, 12,
  12, 36, 12, 12, 12, 12, 12, 12, 12, 12, 12, 12]

def accept : ℕ := 0
def reject : ℕ := 12

/-- The class of a byte. -/
def classOf (byte : ℕ) : ℕ :=
  utf8d.getD byte 0

def nextState (state byte : ℕ) : ℕ :=
  utf8d.getD (256 + state + classOf byte) 0

/-- `decode_step`, with the new state and codepoint. -/
def decodeStep (state codepoint : ℕ) (byte : UInt8) : ℕ × ℕ :=
  let type := classOf byte.toNat
  (nextState state byte.toNat,
    if state ≠ accept then
      (byte.toNat &&& multiByteValueMask) ||| ((codepoint <<< 6) % 2 ^ 32)
    else
      (0xff >>> type) &&& byte.toNat)

/-- The loop of `count_codepoints`; `last` is the offset of the byte that ended a
codepoint last. -/
def countLoop : List UInt8 → (curr state codepoint points last : ℕ) → ℕ × ℕ
  | [], _, _, _, points, last => (points, last)
  | byte :: rest, curr, state, codepoint, points, last =>
      let (state, codepoint) := decodeStep state codepoint byte
      if state = accept then
        countLoop rest (curr + 1) state codepoint (points + 1) curr
      else
        countLoop rest (curr + 1) state codepoint points last

/-- `count_codepoints`: the codepoints and the bytes that they take.  No bytes are
passed as a null pointer. -/
def countCodepoints : List UInt8 → ℕ × ℕ
  | [] => (0, 0)
  | byte :: rest =>
      let (points, last) := countLoop (byte :: rest) 0 accept 0 0 0
      (points, last + 1)

/-- The loop of `decode`, which stops at a NUL; the end of the bytes is one. -/
def decodeLoop : List UInt8 → (consumed state codepoint : ℕ) → Option (ℕ × ℕ)
  | [], consumed, _, codepoint => if consumed = 0 then some (codepoint, 0) else none
  | byte :: rest, consumed, state, codepoint =>
      if byte = 0 then
        if consumed = 0 then some (codepoint, 0) else none
      else
        let (state, codepoint) := decodeStep state codepoint byte
        if state = accept then some (codepoint, consumed + 1)
        else decodeLoop rest (consumed + 1) state codepoint

/-- `decode`: the codepoint and the bytes consumed, nothing when it throws. -/
def decode (bytes : List UInt8) : Option (ℕ × ℕ) :=
  decodeLoop bytes 0 accept 0

/-- `encode`; a rune that is not supported has no bytes. -/
def encode (rune : ℕ) : List UInt8 :=
  if rune ≤ maxCodepointAscii then
    [UInt8.ofNat rune]
  else if rune ≤ maxCodepoint2Byte then
    [UInt8.ofNat (0xc0 + rune >>> 6), UInt8.ofNat (0x80 + (rune &&& multiByteValueMask))]
  else if rune ≤ maxCodepoint3Byte then
    [UInt8.ofNat (0xe0 + rune >>> 12),
      UInt8.ofNat (0x80 + (rune >>> 6 &&& multiByteValueMask)),
      UInt8.ofNat (0x80 + (rune &&& multiByteValueMask))]
  else if rune ≤ maxCodepoint4Byte then
    [UInt8.ofNat (0xf0 + rune >>> 18),
      UInt8.ofNat (0x80 + (rune >>> 12 &&& multiByteValueMask)),
      UInt8.ofNat (0x80 + (rune >>> 6 &&& multiByteValueMask)),
      UInt8.ofNat (0x80 + (rune &&& multiByteValueMask))]
  else []

def encodeText (runes : List ℕ) : List UInt8 :=
  runes.flatMap encode

example : countCodepoints (encodeText [0x41, 0xe9, 0x308f, 0x1f600]) = (4, 10) := by decide

def IsSurrogate (rune : ℕ) : Prop :=
  0xd800 ≤ rune ∧ rune ≤ 0xdfff

instance (rune : ℕ) : Decidable (IsSurrogate rune) :=
  inferInstanceAs (Decidable (_ ∧ _))

/-- The runes that UTF-8 has an encoding for. -/
def IsScalar (rune : ℕ) : Prop :=
  rune ≤ maxSupportedCodepoint ∧ ¬ IsSurrogate rune

instance (rune : ℕ) : Decidable (IsScalar rune) :=
  inferInstanceAs (Decidable (_ ∧ _))

end Disvm.Utf8
