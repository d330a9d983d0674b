import Disvm.Utf8

/-!
# Strings

A string keeps its characters in cells of one or four bytes, in a buffer of its
own or in an allocation.  The model lets every write land and keeps apart
whether one went past the end of the storage.  `_length` is exact; the other
numbers are words.
-/

namespace Disvm.Strings

open Utf8

/-- The exceptions of string operations, with what they carry. -/
inductive VmException where
  | invalidUtf8
  | outOfRangeMemory
  | indexOutOfRangeMemory (validMin validMax invalidValue : ℤ)
  | dereferenceNil (operation : String)
  | outOfMemory
  deriving DecidableEq, Repr

/-- Where `_encoded_str` points: to the storage of the string or to an
allocation of a size, whose text ends in a NUL. -/
inductive Encoded where
  | storage
  | alloc (size : ℕ) (text : List UInt8)
  deriving DecidableEq, Repr

/-- `vm_string_t`.  `chars` are the cells of the storage, `size` its bytes. -/
structure VmString where
  refCount : ℕ
  length : ℕ
  lengthMax : ℤ
  encoded : Option Encoded
  characterSize : ℕ
  isAlloc : Bool
  size : ℕ
  chars : ℕ → ℕ
  overrun : Bool

def charSize : ℕ := 1
def runeSize : ℕ := 4

/-- The bytes of `_mem.local`. -/
def localSize : ℕ := 16

/-- `compute_max_length(_mem.local)`. -/
def localMaxLength : ℕ := localSize - 1

/-- `compute_max_length`, a word. -/
def computeMaxLength (currentLength : ℕ) : ℤ :=
  Int.bmod (currentLength + 1 + currentLength / 4 : ℕ) (2 ^ 32)

/-- A number of bytes as an argument of the allocator. -/
def allocSize (bytes : ℤ) : ℕ :=
  (bytes % 2 ^ 32).toNat

namespace VmString

def runes (string : VmString) : List ℕ :=
  (List.range string.length).map string.chars

def empty : VmString where
  refCount := 1
  length := 0
  lengthMax := localMaxLength
  encoded := none
  characterSize := charSize
  isAlloc := false
  size := localSize
  chars _ := 0
  overrun := false

/-- The decoding loop of the constructor. -/
def decodeRunes : ℕ → List UInt8 → Option (List ℕ)
  | 0, _ => some []
  | count + 1, encodedStr =>
      (decode encodedStr).bind fun (codepoint, consumed) =>
        (decodeRunes count (encodedStr.drop consumed)).map (codepoint :: ·)

/-- The string of UTF-8 text. -/
def ofUtf8 (encodedStr : List UInt8) : Except VmException VmString :=
  let encodedStrLen := encodedStr.length
  let utf8Length := countCodepoints encodedStr
  if encodedStrLen ≠ utf8Length.2 then .error .invalidUtf8
  else
    let characterSize := if encodedStrLen ≠ utf8Length.1 then runeSize else charSize
    let isAlloc := decide (localMaxLength < encodedStrLen)
    let lengthMax : ℤ :=
      if isAlloc then computeMaxLength utf8Length.1 else ↑(localMaxLength / characterSize)
    let size := if isAlloc then allocSize (lengthMax * characterSize) else localSize
    let copied :=
      if characterSize = charSize then some (encodedStr.map UInt8.toNat)
      else decodeRunes utf8Length.1 encodedStr
    match copied with
    | none => .error .invalidUtf8
    | some copied => .ok {
        refCount := 1
        length := utf8Length.1
        lengthMax := lengthMax
        encoded := none
        characterSize := characterSize
        isAlloc := isAlloc
        size := size
        chars := fun index => copied.getD index 0
        overrun := decide (size < copied.length * characterSize) }

/-- `copy_characters_to`. -/
def copyCharactersTo (dest : ℕ → ℕ) (destStart : ℕ) (source : ℕ → ℕ) (sourceLength : ℕ) :
    ℕ → ℕ := fun index =>
  if destStart ≤ index ∧ index < destStart + sourceLength then source (index - destStart)
  else dest index

/-- `combine` into a new allocation. -/
def combine (source1 source2 : VmString) : ℕ → ℕ :=
  copyCharactersTo (copyCharactersTo (fun _ => 0) 0 source1.chars source1.length)
    source1.length source2.chars source2.length

/-- The string of two strings. -/
def concat (s1 s2 : VmString) : VmString :=
  let characterSize := max s1.characterSize s2.characterSize
  let length := s1.length + s2.length
  let lengthMax := computeMaxLength length
  let size := allocSize (lengthMax * characterSize)
  { refCount := 1
    length := length
    lengthMax := lengthMax
    encoded := none
    characterSize := characterSize
    isAlloc := true
    size := size
    chars := combine s1 s2
    overrun := decide (size < length * characterSize) }

/-- The slice of a string, in storage of the same kind as the string's. -/
def slice (other : VmString) (beginIndex endIndex : ℤ) : Except VmException VmString :=
  if endIndex < beginIndex then .error .outOfRangeMemory
  else if beginIndex < 0 then
    .error (.indexOutOfRangeMemory 0 other.length beginIndex)
  else if other.length < endIndex then
    .error (.indexOutOfRangeMemory 0 other.length endIndex)
  else
    let length := (endIndex - beginIndex).toNat
    let lengthMax := computeMaxLength length
    let size :=
      if other.isAlloc then allocSize (lengthMax * other.characterSize) else localSize
    .ok {
      refCount := 1
      length := length
      lengthMax := lengthMax
      encoded := none
      characterSize := other.characterSize
      isAlloc := other.isAlloc
      size := size
      chars := copyCharactersTo (fun _ => 0) 0
        (fun index => other.chars (beginIndex.toNat + index)) length
      overrun := decide (size < length * other.characterSize) }

/-- `append`; without memory only the encoded string is lost. -/
def append (string other : VmString) (available : Bool) : VmString × Option VmException :=
  if other.length = 0 then (string, none)
  else if !available then ({ string with encoded := none }, some .outOfMemory)
  else
    let length := string.length + other.length
    let lengthMax := computeMaxLength length
    let isRune := decide (string.characterSize = runeSize ∨ other.characterSize = runeSize)
    let characterSize := if isRune then runeSize else charSize
    let size := allocSize (lengthMax * characterSize)
    ({ string with
        length := length
        lengthMax := lengthMax
        encoded := none
        characterSize := characterSize
        isAlloc := true
        size := size
        chars := combine string other
        overrun := string.overrun || decide (size < length * characterSize) }, none)

def getRune (string : VmString) (index : ℤ) : Except VmException ℕ :=
  if index < 0 ∨ string.length ≤ index then
    .error (.indexOutOfRangeMemory 0 (string.length - 1) index)
  else .ok (string.chars index.toNat)

/-- `_length_max` of a larger allocation. -/
def grownMaxLength (string : VmString) : ℤ :=
  if string.length = 0 then localMaxLength else computeMaxLength string.length

/-- The characters move to a new allocation; without memory the sizes have
changed and the storage has not. -/
def moveTo (string : VmString) (characterSize : ℕ) (available : Bool) :
    VmString × Option VmException :=
  let lengthMax := string.grownMaxLength
  let sized := { string with characterSize := characterSize, lengthMax := lengthMax }
  if !available then (sized, some .outOfMemory)
  else
    let size := allocSize (lengthMax * characterSize)
    ({ sized with
        isAlloc := true
        size := size
        chars := copyCharactersTo (fun _ => 0) 0 string.chars string.length
        overrun := string.overrun || decide (size < string.length * characterSize) }, none)

/-- The character is written, at the end it makes the string longer. -/
def writeRune (string : VmString) (index value : ℕ) : VmString :=
  { string with
    chars := Function.update string.chars index
      (if string.characterSize ≠ charSize then value else value &&& maxCodepointAscii)
    overrun := string.overrun || decide (string.size < (index + 1) * string.characterSize)
    length := if string.length = index then string.length + 1 else string.length }

/-- `set_rune`. -/
def setRune (string : VmString) (index : ℤ) (value : ℕ) (available : Bool) :
    VmString × Option VmException :=
  if maxSupportedCodepoint < value then (string, some .invalidUtf8)
  else if index < 0 ∨ string.length < index then
    (string, some (.indexOutOfRangeMemory 0 string.length index))
  else
    let released := { string with encoded := none }
    let newCharacterSize := if maxCodepointAscii < value then runeSize else charSize
    let (moved, thrown) :=
      if string.characterSize < newCharacterSize then released.moveTo newCharacterSize available
      else if string.lengthMax ≤ index then released.moveTo string.characterSize available
      else (released, none)
    match thrown with
    | some exception => (moved, some exception)
    | none => (moved.writeRune index.toNat value, none)

/-- The text before the terminating NUL of an encoded string. -/
def encodedText (string : VmString) : Encoded → List UInt8
  | .storage => string.runes.map UInt8.ofNat
  | .alloc _ text => text

/-- `str`, with the encoded string that it keeps. -/
def str (string : VmString) : VmString × Encoded :=
  match string.encoded with
  | some encoded => (string, encoded)
  | none =>
      let encoded :=
        if string.characterSize = charSize then
          if string.lengthMax ≤ string.length then
            .alloc (allocSize (string.length + 1)) (string.runes.map UInt8.ofNat)
          else .storage
        else
          .alloc (allocSize (string.length * string.characterSize + 1)) (encodeText string.runes)
      ({ string with encoded := some encoded }, encoded)

/-- The NUL that ends an encoded string is inside its buffer. -/
def NulInside (string : VmString) : Encoded → Prop
  | .storage => string.length < string.size ∧ string.chars string.length = 0
  | .alloc size text => text.length < size

instance (string : VmString) (encoded : Encoded) : Decidable (string.NulInside encoded) :=
  match encoded with
  | .storage => inferInstanceAs (Decidable (_ ∧ _))
  | .alloc _ _ => inferInstanceAs (Decidable (_ < _))

end VmString

end Disvm.Strings
