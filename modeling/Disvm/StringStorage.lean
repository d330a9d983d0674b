import Disvm.StringContents

/-!
# The storage of strings

What every string keeps: its maximal length fits the storage in use, its length
the maximal length, and the storage is zero from the length on, so that the NUL
of an ASCII string needs no copy.
-/

namespace Disvm.Strings

open Utf8

/-- The operations that make strings, with their operands. -/
inductive Operation where
  | empty
  | ofUtf8 (encodedStr : List UInt8)
  | concat (s1 s2 : VmString)
  | slice (other : VmString) (beginIndex endIndex : ℤ)
  | append (string other : VmString) (available : Bool)
  | setRune (string : VmString) (index : ℤ) (value : ℕ) (available : Bool)
  | str (string : VmString)

namespace Operation

def operands : Operation → List VmString
  | empty => []
  | ofUtf8 _ => []
  | concat s1 s2 => [s1, s2]
  | slice other _ _ => [other]
  | append string other _ => [string, other]
  | setRune string _ _ _ => [string]
  | str string => [string]

/-- The string afterwards; a constructor that throws makes none. -/
def result : Operation → Option VmString
  | empty => some VmString.empty
  | ofUtf8 encodedStr => (VmString.ofUtf8 encodedStr).toOption
  | concat s1 s2 => some (s1.concat s2)
  | slice other beginIndex endIndex => (other.slice beginIndex endIndex).toOption
  | append string other available => some (string.append other available).1
  | setRune string index value available => some (string.setRune index value available).1
  | str string => some string.str.1

end Operation

/-- The strings that a sequence of permitted operations makes. -/
inductive Built (permitted : Operation → Prop) : VmString → Prop
  | perform (operation : Operation) {string : VmString}
      (operands : ∀ operand ∈ operation.operands, Built permitted operand)
      (allowed : permitted operation) (made : operation.result = some string) :
      Built permitted string

/-- The length fits the maximal length and this the storage, every write has
been inside it, and so is the NUL of the encoded string. -/
structure Stored (string : VmString) : Prop where
  length : string.length ≤ string.lengthMax
  lengthMax : string.lengthMax * string.characterSize ≤ string.size
  writes : string.overrun = false
  nul : string.str.1.NulInside string.str.2

/-- A length with room to grow whose bytes do not overflow. -/
def Fits (length characterSize : ℕ) : Prop :=
  length + 1 + length / 4 < 2 ^ 31 ∧ (length + 1 + length / 4) * characterSize < 2 ^ 32

instance (length characterSize : ℕ) : Decidable (Fits length characterSize) :=
  inferInstanceAs (Decidable (_ ∧ _))

/-- The operations that keep the storage: text in the local buffer has at most
three runes unless it is ASCII, the slice of a string in its local buffer still
fits it with its slack, no number of bytes overflows, and `set_rune` gets the
memory to move to. -/
def Permitted : Operation → Prop
  | .empty => True
  | .ofUtf8 encodedStr =>
      let utf8Length := countCodepoints encodedStr
      if encodedStr.length ≤ localMaxLength then
        encodedStr.length ≠ utf8Length.1 → utf8Length.1 ≤ localMaxLength / runeSize
      else
        Fits utf8Length.1 (if encodedStr.length ≠ utf8Length.1 then runeSize else charSize)
  | .concat s1 s2 => Fits (s1.length + s2.length) (max s1.characterSize s2.characterSize)
  | .slice other beginIndex endIndex =>
      let length := (endIndex - beginIndex).toNat
      0 ≤ beginIndex → beginIndex ≤ endIndex → endIndex ≤ other.length →
        if other.isAlloc then Fits length other.characterSize
        else (length + 1 + length / 4) * other.characterSize ≤ localSize
  | .append string other available =>
      available = true → other.length ≠ 0 →
        Fits (string.length + other.length) (max string.characterSize other.characterSize)
  | .setRune string index value available =>
      value ≤ maxSupportedCodepoint → 0 ≤ index → index ≤ string.length →
        let newCharacterSize := if maxCodepointAscii < value then runeSize else charSize
        string.characterSize < newCharacterSize ∨ string.lengthMax ≤ index →
          available = true ∧
            Fits string.length (max string.characterSize newCharacterSize)
  | .str _ => True

/-- What the operations keep. -/
structure Kept (string : VmString) : Prop where
  cells : string.characterSize = charSize ∨ string.characterSize = runeSize
  localStorage : string.isAlloc = false → string.size = localSize
  word : string.lengthMax < 2 ^ 31
  size : string.size < 2 ^ 32
  length : string.length ≤ string.lengthMax
  lengthMax : string.lengthMax * string.characterSize ≤ string.size
  writes : string.overrun = false
  tail : ∀ index, string.length ≤ index → string.chars index = 0
  encoded : ∀ encoded, string.encoded = some encoded → string.NulInside encoded

section Sizes

variable {length characterSize : ℕ}

theorem computeMaxLength_eq (fits : length + 1 + length / 4 < 2 ^ 31) :
    computeMaxLength length = (length + 1 + length / 4 : ℕ) := by
  unfold computeMaxLength
  exact Int.bmod_eq_of_le (by omega) (by omega)

theorem allocSize_eq {bytes : ℕ} (fits : bytes < 2 ^ 32) : allocSize bytes = bytes := by
  unfold allocSize
  omega

/-- The size of an allocation for a length. -/
theorem allocSize_computeMaxLength (fits : Fits length characterSize) :
    allocSize (computeMaxLength length * characterSize) =
      (length + 1 + length / 4) * characterSize := by
  rw [computeMaxLength_eq fits.1, ← Int.natCast_mul]
  exact allocSize_eq fits.2

/-- The allocation holds the length that it is for. -/
theorem allocSize_enough (fits : Fits length characterSize) :
    decide (allocSize (computeMaxLength length * characterSize) < length * characterSize) =
      false := by
  rw [allocSize_computeMaxLength fits, decide_eq_false_iff_not, Nat.not_lt]
  exact Nat.mul_le_mul_right _ (by omega)

end Sizes

theorem Kept.stored {string : VmString} (kept : Kept string) : Stored string where
  length := kept.length
  lengthMax := kept.lengthMax
  writes := kept.writes
  nul := by
    have sizes := kept.lengthMax
    have lengths := kept.length
    have isWord := kept.word
    have isSize := kept.size
    unfold VmString.str
    cases cached : string.encoded with
    | some encoded => exact kept.encoded encoded cached
    | none =>
        dsimp only
        split_ifs with isChar full
        · show (string.runes.map UInt8.ofNat).length < allocSize ↑(string.length + 1 : ℕ)
          rw [allocSize_eq (by omega)]
          simp [VmString.runes]
        · refine ⟨?_, kept.tail _ (Nat.le_refl _)⟩
          show string.length < string.size
          rw [isChar] at sizes
          unfold charSize at sizes
          omega
        · have isRune : string.characterSize = 4 := kept.cells.resolve_left isChar
          have short := encodeText_length_le string.runes
          have count : string.runes.length = string.length := by simp [VmString.runes]
          rw [isRune] at sizes
          show (encodeText string.runes).length <
            allocSize ↑(string.length * string.characterSize + 1 : ℕ)
          rw [isRune, allocSize_eq (by omega)]
          omega

section Operations

variable {string other made : VmString}

theorem kept_empty : Kept VmString.empty where
  cells := Or.inl rfl
  localStorage _ := rfl
  word := by decide
  size := by decide
  length := by decide
  lengthMax := by decide
  writes := rfl
  tail _ _ := rfl
  encoded _ cached := by cases cached

/-- A string with room for a maximal length in its storage. -/
structure Roomy (string : VmString) (maxLength : ℕ) : Prop where
  cells : string.characterSize = charSize ∨ string.characterSize = runeSize
  word : maxLength < 2 ^ 31
  lengthMax : string.lengthMax = maxLength
  length : string.length ≤ maxLength
  room : maxLength * string.characterSize ≤ string.size
  size : string.size < 2 ^ 32
  localStorage : string.isAlloc = false → string.size = localSize

theorem Roomy.kept {maxLength : ℕ} (roomy : Roomy string maxLength)
    (writes : string.overrun = false)
    (tail : ∀ index, string.length ≤ index → string.chars index = 0)
    (encoded : string.encoded = none) : Kept string where
  cells := roomy.cells
  localStorage := roomy.localStorage
  word := by
    have small := roomy.word
    rw [roomy.lengthMax]
    omega
  size := roomy.size
  length := by
    rw [roomy.lengthMax]
    exact Int.ofNat_le.mpr roomy.length
  lengthMax := by
    rw [roomy.lengthMax, ← Int.natCast_mul]
    exact Int.ofNat_le.mpr roomy.room
  writes := writes
  tail := tail
  encoded other cached := by
    rw [encoded] at cached
    cases cached

/-- A string in a new allocation for a maximal length. -/
theorem roomy_allocated {maxLength : ℕ}
    (cells : string.characterSize = charSize ∨ string.characterSize = runeSize)
    (word : maxLength < 2 ^ 31) (fits : maxLength * string.characterSize < 2 ^ 32)
    (isAlloc : string.isAlloc = true) (lengthMax : string.lengthMax = maxLength)
    (length : string.length ≤ maxLength)
    (size : string.size = allocSize (string.lengthMax * string.characterSize)) :
    Roomy string maxLength where
  cells := cells
  word := word
  lengthMax := lengthMax
  length := length
  room := by rw [size, lengthMax, ← Int.natCast_mul, allocSize_eq fits]
  size := by
    rw [size]
    exact allocSize_lt _
  localStorage isLocal := by
    rw [isAlloc] at isLocal
    cases isLocal

/-- A string in a new allocation for its length. -/
theorem roomy_computed
    (cells : string.characterSize = charSize ∨ string.characterSize = runeSize)
    (fits : Fits string.length string.characterSize) (isAlloc : string.isAlloc = true)
    (lengthMax : string.lengthMax = computeMaxLength string.length)
    (size : string.size = allocSize (string.lengthMax * string.characterSize)) :
    Roomy string (string.length + 1 + string.length / 4) :=
  roomy_allocated cells fits.1 fits.2 isAlloc (lengthMax.trans (computeMaxLength_eq fits.1))
    (by omega) size

theorem copyCharactersTo_tail {dest source : ℕ → ℕ} {start length index : ℕ}
    (after : start + length ≤ index) :
    VmString.copyCharactersTo dest start source length index = dest index := by
  unfold VmString.copyCharactersTo
  rw [if_neg (by omega)]

/-- A new allocation is zero after the characters copied to it. -/
theorem copied_tail {source : ℕ → ℕ} {length index : ℕ} (after : length ≤ index) :
    VmString.copyCharactersTo (fun _ => 0) 0 source length index = 0 :=
  copyCharactersTo_tail (by omega)

theorem combine_tail {index : ℕ} (after : string.length + other.length ≤ index) :
    string.combine other index = 0 := by
  unfold VmString.combine
  rw [copyCharactersTo_tail after, copyCharactersTo_tail (by omega)]

theorem kept_concat (first : Kept string) (second : Kept other)
    (permitted : Permitted (.concat string other)) : Kept (string.concat other) := by
  have fits : Fits (string.length + other.length)
      (max string.characterSize other.characterSize) := permitted
  have cells := cells_max first.cells second.cells
  unfold VmString.concat
  refine Roomy.kept (roomy_computed cells fits ?_ ?_ ?_) ?_ (fun _ after => combine_tail after) ?_
  · dsimp only
  · dsimp only
  · dsimp only
  · exact allocSize_enough fits
  · dsimp only

/-- Without its encoded string a string keeps its storage. -/
theorem Kept.release (kept : Kept string) : Kept { string with encoded := none } where
  __ := kept
  encoded _ cached := by cases cached

theorem kept_append (first : Kept string) (second : Kept other) {available : Bool}
    (permitted : Permitted (.append string other available)) :
    Kept (string.append other available).1 := by
  unfold VmString.append
  split_ifs with isEmpty unavailable
  · exact first
  · exact first.release
  · have isAvailable : available = true := by simpa using unavailable
    have fits := permitted isAvailable isEmpty
    have cells := cells_max first.cells second.cells
    rw [cells_max_eq first.cells second.cells] at fits cells
    simp only [decide_eq_true_eq]
    refine Roomy.kept (roomy_computed cells fits ?_ ?_ ?_) ?_
      (fun _ after => combine_tail after) ?_
    · dsimp only
    · dsimp only
    · dsimp only
    · rw [first.writes, Bool.false_or]
      exact allocSize_enough fits
    · dsimp only

theorem kept_slice (kept : Kept other) {beginIndex endIndex : ℤ}
    (permitted : Permitted (.slice other beginIndex endIndex))
    (made : other.slice beginIndex endIndex = .ok string) : Kept string := by
  unfold VmString.slice at made
  split_ifs at made with reversed negative outside isAlloc
  · have fits := permitted (by omega) (by omega) (by omega)
    rw [if_pos isAlloc] at fits
    cases made
    refine Roomy.kept (roomy_computed kept.cells fits isAlloc ?_ ?_) ?_ ?_ ?_
    · dsimp only
    · dsimp only
    · exact allocSize_enough fits
    · intro index after
      dsimp only at after ⊢
      exact copied_tail after
    · dsimp only
  · have fits := permitted (by omega) (by omega) (by omega)
    rw [if_neg isAlloc] at fits
    cases made
    have cells := kept.cells
    have positive : 1 ≤ other.characterSize := by
      rcases cells with isCell | isCell <;> rw [isCell] <;> decide
    have small : (endIndex - beginIndex).toNat + 1 + (endIndex - beginIndex).toNat / 4 ≤
        localSize := Nat.le_trans (Nat.le_mul_of_pos_right _ positive) fits
    unfold localSize at small
    have word : (endIndex - beginIndex).toNat + 1 + (endIndex - beginIndex).toNat / 4 < 2 ^ 31 := by
      omega
    refine Roomy.kept ⟨cells, word, ?_, ?_, fits, ?_, fun _ => ?_⟩ ?_ ?_ ?_
    · dsimp only
      exact computeMaxLength_eq word
    · dsimp only
      omega
    · show localSize < 2 ^ 32
      decide
    · dsimp only
    · have inside : (endIndex - beginIndex).toNat * other.characterSize ≤ localSize :=
        Nat.le_trans (Nat.mul_le_mul_right _ (by omega)) fits
      exact decide_eq_false (Nat.not_lt.mpr inside)
    · intro index after
      dsimp only at after ⊢
      exact copied_tail after
    · dsimp only

/-- The character is inside the maximal length. -/
theorem kept_writeRune (kept : Kept string) (released : string.encoded = none) {index : ℕ}
    (inString : index ≤ string.length) (inMax : index < string.lengthMax) (value : ℕ) :
    Kept (string.writeRune index value) where
  cells := kept.cells
  localStorage := kept.localStorage
  word := kept.word
  size := kept.size
  length := by
    have lengths := kept.length
    unfold VmString.writeRune
    dsimp only
    split_ifs <;> omega
  lengthMax := kept.lengthMax
  writes := by
    have sizes := kept.lengthMax
    have room : ((index + 1 : ℕ) : ℤ) * string.characterSize ≤ string.size :=
      Int.le_trans (Int.mul_le_mul_of_nonneg_right (by omega) (by omega)) sizes
    have inside : ¬ string.size < (index + 1) * string.characterSize := by
      rw [← Int.natCast_mul] at room
      omega
    unfold VmString.writeRune
    dsimp only
    rw [kept.writes, Bool.false_or, decide_eq_false inside]
  tail other after := by
    have different : other ≠ index ∧ string.length ≤ other := by
      unfold VmString.writeRune at after
      dsimp only at after
      split_ifs at after <;> omega
    unfold VmString.writeRune
    dsimp only
    rw [Function.update_of_ne different.1]
    exact kept.tail other different.2
  encoded other cached := by
    rw [show (string.writeRune index value).encoded = string.encoded from rfl, released] at cached
    cases cached

/-- The string moves to an allocation with room for one more character. -/
theorem kept_moveTo (kept : Kept string) (released : string.encoded = none) {characterSize : ℕ}
    (cells : characterSize = charSize ∨ characterSize = runeSize)
    (fits : Fits string.length characterSize) :
    ∃ moved, string.moveTo characterSize true = (moved, none) ∧ Kept moved ∧
      moved.length = string.length ∧ string.length < moved.lengthMax ∧
      moved.encoded = none := by
  obtain ⟨maxLength, isMax, word, room, more⟩ : ∃ maxLength : ℕ,
      string.grownMaxLength = maxLength ∧ maxLength < 2 ^ 31 ∧
        maxLength * characterSize < 2 ^ 32 ∧ string.length < maxLength := by
    unfold VmString.grownMaxLength
    split_ifs with isEmpty
    · refine ⟨localMaxLength, rfl, by decide, ?_, ?_⟩
      · rcases cells with isCell | isCell <;> rw [isCell] <;> decide
      · rw [isEmpty]
        decide
    · exact ⟨_, computeMaxLength_eq fits.1, fits.1, fits.2, by omega⟩
  have enough : ¬ allocSize (string.grownMaxLength * characterSize) <
      string.length * characterSize := by
    rw [isMax, ← Int.natCast_mul, allocSize_eq room, Nat.not_lt]
    exact Nat.mul_le_mul_right _ (Nat.le_of_lt more)
  unfold VmString.moveTo
  simp only [Bool.not_true, Bool.false_eq_true, if_false]
  refine ⟨_, rfl, Roomy.kept (roomy_allocated cells word room ?_ isMax (Nat.le_of_lt more) ?_)
    ?_ ?_ released, ?_, ?_, released⟩
  · dsimp only
  · dsimp only
  · rw [kept.writes, Bool.false_or, decide_eq_false enough]
  · intro index after
    exact copied_tail after
  · dsimp only
  · rw [isMax]
    exact Int.ofNat_lt.mpr more

theorem kept_setRune (kept : Kept string) {index : ℤ} {value : ℕ} {available : Bool}
    (permitted : Permitted (.setRune string index value available)) :
    Kept (string.setRune index value available).1 := by
  unfold VmString.setRune
  by_cases unsupported : maxSupportedCodepoint < value
  · rw [if_pos unsupported]
    exact kept
  by_cases outside : index < 0 ∨ string.length < index
  · rw [if_neg unsupported, if_pos outside]
    exact kept
  rw [if_neg unsupported, if_neg outside]
  have inString : index.toNat ≤ string.length := by omega
  have moves := permitted (by omega) (by omega) (by omega)
  dsimp only at moves ⊢
  generalize isNew : (if maxCodepointAscii < value then runeSize else charSize) = newSize at moves ⊢
  have newCells : newSize = charSize ∨ newSize = runeSize := by
    rw [← isNew]
    split_ifs
    · exact Or.inr rfl
    · exact Or.inl rfl
  by_cases wider : string.characterSize < newSize
  · obtain ⟨rfl, fits⟩ := moves (Or.inl wider)
    rw [Nat.max_eq_right (Nat.le_of_lt wider)] at fits
    obtain ⟨moved, isMoved, movedKept, sameLength, more, noText⟩ :=
      kept_moveTo kept.release rfl newCells fits
    rw [if_pos wider, isMoved]
    dsimp only at sameLength more
    exact kept_writeRune movedKept noText (by omega) (by omega) value
  by_cases full : string.lengthMax ≤ index
  · obtain ⟨rfl, fits⟩ := moves (Or.inr full)
    rw [Nat.max_eq_left (Nat.not_lt.mp wider)] at fits
    obtain ⟨moved, isMoved, movedKept, sameLength, more, noText⟩ :=
      kept_moveTo kept.release rfl kept.cells fits
    rw [if_neg wider, if_pos full, isMoved]
    dsimp only at sameLength more
    exact kept_writeRune movedKept noText (by omega) (by omega) value
  · rw [if_neg wider, if_neg full]
    exact kept_writeRune kept.release rfl inString (by dsimp only; omega) value

theorem kept_str (kept : Kept string) : Kept string.str.1 := by
  have nul := kept.stored.nul
  rw [str_fst] at nul ⊢
  exact { kept with
    encoded := fun encoded cached => by
      cases cached
      exact nul }

theorem kept_ofUtf8 {encodedStr : List UInt8} (permitted : Permitted (.ofUtf8 encodedStr))
    (made : VmString.ofUtf8 encodedStr = .ok string) : Kept string := by
  obtain ⟨-, copied, isCopied, rfl⟩ := ofUtf8_spec made
  have count := length_copiedText isCopied
  have cases := textCells_cases encodedStr
  have cells := cases.imp And.left And.left
  dsimp only [Permitted] at permitted
  rw [← count] at permitted cases
  have tail : ∀ index, copied.length ≤ index → copied.getD index 0 = 0 := fun _ after =>
    List.getD_eq_default _ _ after
  by_cases allocated : localMaxLength < encodedStr.length
  · rw [if_neg (Nat.not_le.mpr allocated), count] at permitted
    have fits : Fits copied.length (textCells encodedStr) := count ▸ permitted
    rw [decide_eq_true allocated]
    unfold textString
    simp only [if_true]
    refine Roomy.kept (roomy_computed cells fits rfl ?_ ?_) ?_ tail ?_
    · dsimp only
    · dsimp only
    · exact allocSize_enough fits
    · dsimp only
  · rw [if_pos (Nat.not_lt.mp allocated)] at permitted
    rw [decide_eq_false allocated]
    have room : copied.length ≤ localMaxLength / textCells encodedStr ∧
        localMaxLength / textCells encodedStr * textCells encodedStr ≤ localSize := by
      rcases cases with ⟨isChar, ascii⟩ | ⟨isRune, multi⟩
      · rw [isChar, ← ascii]
        exact ⟨Nat.not_lt.mp allocated, by decide⟩
      · rw [isRune]
        exact ⟨permitted multi, by decide⟩
    have word : localMaxLength / textCells encodedStr < 2 ^ 31 :=
      Nat.lt_of_le_of_lt (Nat.div_le_self _ _) (by decide)
    refine Roomy.kept ⟨cells, word, rfl, room.1, room.2, ?_, fun _ => rfl⟩ ?_ tail rfl
    · show localSize < 2 ^ 32
      decide
    · exact decide_eq_false (Nat.not_lt.mpr
        (Nat.le_trans (Nat.mul_le_mul_right _ room.1) room.2))

end Operations

theorem ok_of_toOption {Value : Type} {result : Except VmException Value} {value : Value}
    (made : result.toOption = some value) : result = .ok value := by
  cases result with
  | error exception => cases made
  | ok other =>
      cases made
      rfl

theorem kept_of_built {string : VmString} (built : Built Permitted string) : Kept string := by
  induction built with
  | perform operation operands allowed made ih =>
      cases operation with
      | empty =>
          cases made
          exact kept_empty
      | ofUtf8 encodedStr => exact kept_ofUtf8 allowed (ok_of_toOption made)
      | concat s1 s2 =>
          cases made
          exact kept_concat (ih s1 (by simp [Operation.operands]))
            (ih s2 (by simp [Operation.operands])) allowed
      | slice other beginIndex endIndex =>
          exact kept_slice (ih other (by simp [Operation.operands])) allowed
            (ok_of_toOption made)
      | append string other available =>
          cases made
          exact kept_append (ih string (by simp [Operation.operands]))
            (ih other (by simp [Operation.operands])) allowed
      | setRune string index value available =>
          cases made
          exact kept_setRune (ih string (by simp [Operation.operands])) allowed
      | str string =>
          cases made
          exact kept_str (ih string (by simp [Operation.operands]))

/-- Every string that permitted operations make is stored well. -/
theorem stored_of_built {string : VmString} (built : Built Permitted string) : Stored string :=
  (kept_of_built built).stored

/-- An empty string that takes its first rune moves to an allocation. -/
theorem stored_of_built_widened : Stored (VmString.empty.setRune 0 0x3088 true).1 := by
  have built : Built Permitted VmString.empty :=
    .perform .empty (fun _ member => by cases member) trivial rfl
  refine stored_of_built (.perform (.setRune VmString.empty 0 0x3088 true) ?_ ?_ rfl)
  · intro operand member
    exact List.mem_singleton.mp member ▸ built
  · intro _ _ _ _
    decide

/-- Five runes of three bytes each, a text of fifteen bytes. -/
def fiveRunes : List UInt8 :=
  encodeText [0x308f, 0x304c, 0x3088, 0x305f, 0x308c]

theorem five_runes_overrun :
    ∃ string, Built (fun _ => True) string ∧ string.overrun = true ∧ ¬ Stored string := by
  let string := (VmString.ofUtf8 fiveRunes).toOption.get (by decide +kernel)
  have past : string.overrun = true := by decide +kernel
  refine ⟨string, ?_, past, fun stored => ?_⟩
  · exact .perform (.ofUtf8 fiveRunes) (fun _ member => by cases member) trivial
      (Option.some_get _).symm
  · rw [stored.writes] at past
    cases past

end Disvm.Strings
