import Disvm.Utf8Codec
import Disvm.VmString

/-!
# The runes of strings

What each operation does to the runes of a string, and what strings keep: one
byte for a character only when all of them are ASCII, an encoded string that is
the encoding of the runes, and buffers that a word can address.
-/

namespace Disvm.Strings

open Utf8

structure WellFormed (string : VmString) : Prop where
  cells : string.characterSize = charSize ∨ string.characterSize = runeSize
  ascii : string.characterSize = charSize → ∀ rune ∈ string.runes, rune ≤ maxCodepointAscii
  supported : ∀ rune ∈ string.runes, rune ≤ maxSupportedCodepoint
  encoded : ∀ encoded, string.encoded = some encoded →
    string.encodedText encoded = encodeText string.runes
  size : string.size < 2 ^ 32
  encodedSize : ∀ size text, string.encoded = some (.alloc size text) → size < 2 ^ 32

/-- One rune is replaced, or appended at the end. -/
def putRune (runes : List ℕ) (index rune : ℕ) : List ℕ :=
  if index = runes.length then runes ++ [rune] else runes.set index rune

/-- The runes from one index up to another one. -/
def sliceRunes (runes : List ℕ) (start stop : ℕ) : List ℕ :=
  (runes.drop start).take (stop - start)

section Runes

variable {string other : VmString}

theorem length_runes (string : VmString) : string.runes.length = string.length := by
  simp [VmString.runes]

theorem getElem?_runes (string : VmString) (index : ℕ) :
    string.runes[index]? = if index < string.length then some (string.chars index) else none := by
  unfold VmString.runes
  rw [List.getElem?_map]
  split_ifs with inside
  · rw [List.getElem?_range inside]
    rfl
  · rw [List.getElem?_eq_none (by rw [List.length_range]; omega)]
    rfl

/-- Strings with the same characters up to their length have the same runes. -/
theorem runes_ext {runes : List ℕ} (length : string.length = runes.length)
    (same : ∀ index, index < string.length → some (string.chars index) = runes[index]?) :
    string.runes = runes := by
  apply List.ext_getElem?
  intro index
  rw [getElem?_runes]
  split_ifs with inside
  · exact same index inside
  · exact (List.getElem?_eq_none (by omega)).symm

theorem mem_putRune {runes : List ℕ} {index rune other : ℕ}
    (member : other ∈ putRune runes index rune) : other ∈ runes ∨ other = rune := by
  unfold putRune at member
  split_ifs at member
  · simpa using member
  · exact List.mem_or_eq_of_mem_set member

theorem mem_sliceRunes {runes : List ℕ} {start stop other : ℕ}
    (member : other ∈ sliceRunes runes start stop) : other ∈ runes :=
  List.mem_of_mem_drop (List.mem_of_mem_take member)

theorem sliceRunes_all (runes : List ℕ) : sliceRunes runes 0 runes.length = runes := by
  unfold sliceRunes
  rw [List.drop_zero, Nat.sub_zero, List.take_length]

/-- `str` only keeps the encoded string that it returns. -/
theorem str_fst (string : VmString) :
    string.str.1 = { string with encoded := some string.str.2 } := by
  unfold VmString.str
  cases cached : string.encoded with
  | some encoded =>
      cases string
      cases cached
      rfl
  | none => rfl

theorem cells_max_eq (first : string.characterSize = charSize ∨ string.characterSize = runeSize)
    (second : other.characterSize = charSize ∨ other.characterSize = runeSize) :
    max string.characterSize other.characterSize =
      if string.characterSize = runeSize ∨ other.characterSize = runeSize then runeSize
      else charSize := by
  rcases first with isFirst | isFirst <;> rcases second with isSecond | isSecond <;>
    simp [isFirst, isSecond, charSize, runeSize]

theorem cells_max (first : string.characterSize = charSize ∨ string.characterSize = runeSize)
    (second : other.characterSize = charSize ∨ other.characterSize = runeSize) :
    max string.characterSize other.characterSize = charSize ∨
      max string.characterSize other.characterSize = runeSize := by
  rw [cells_max_eq first second]
  split_ifs
  · exact Or.inr rfl
  · exact Or.inl rfl

theorem wellFormed_empty : WellFormed VmString.empty where
  cells := Or.inl rfl
  ascii _ rune member := by cases member
  supported rune member := by cases member
  encoded encoded cached := by cases cached
  size := by decide
  encodedSize size text cached := by cases cached

theorem allocSize_lt (bytes : ℤ) : allocSize bytes < 2 ^ 32 := by
  unfold allocSize
  omega

theorem localSize_lt : localSize < 2 ^ 32 := by
  decide

/-- A string without an encoded one is well formed by its runes. -/
theorem wellFormed_of_runes {runes : List ℕ} (isRunes : string.runes = runes)
    (cells : string.characterSize = charSize ∨ string.characterSize = runeSize)
    (ascii : string.characterSize = charSize → ∀ rune ∈ runes, rune ≤ maxCodepointAscii)
    (supported : ∀ rune ∈ runes, rune ≤ maxSupportedCodepoint)
    (released : string.encoded = none) (size : string.size < 2 ^ 32) : WellFormed string where
  cells := cells
  ascii := by
    rw [isRunes]
    exact ascii
  supported := by
    rw [isRunes]
    exact supported
  encoded encoded cached := by
    rw [released] at cached
    cases cached
  size := size
  encodedSize size text cached := by
    rw [released] at cached
    cases cached

theorem getElem?_sliceRunes (runes : List ℕ) (start stop index : ℕ) :
    (sliceRunes runes start stop)[index]? =
      if index < stop - start then runes[start + index]? else none := by
  unfold sliceRunes
  rw [List.getElem?_take, List.getElem?_drop]

theorem copied_inside {source : ℕ → ℕ} {length index : ℕ} (inside : index < length) :
    VmString.copyCharactersTo (fun _ => 0) 0 source length index = source index := by
  unfold VmString.copyCharactersTo
  rw [if_pos (by omega), Nat.sub_zero]

/-- Characters copied from a part of a string. -/
theorem runes_copied {copied : VmString} {start stop : ℕ} (ordered : start ≤ stop)
    (high : stop ≤ other.length) (length : copied.length = stop - start)
    (chars : copied.chars = VmString.copyCharactersTo (fun _ => 0) 0
      (fun index => other.chars (start + index)) copied.length) :
    copied.runes = sliceRunes other.runes start stop := by
  refine runes_ext ?_ fun index inside => ?_
  · unfold sliceRunes
    rw [List.length_take, List.length_drop, length_runes, length]
    omega
  · rw [chars, copied_inside inside, getElem?_sliceRunes, if_pos (by omega), getElem?_runes,
      if_pos (by omega)]

theorem slice_ok (wellFormed : WellFormed other) {beginIndex endIndex : ℤ}
    (low : 0 ≤ beginIndex) (ordered : beginIndex ≤ endIndex) (high : endIndex ≤ other.length) :
    ∃ sliced, other.slice beginIndex endIndex = .ok sliced ∧ WellFormed sliced ∧
      sliced.runes = sliceRunes other.runes beginIndex.toNat endIndex.toNat ∧
      sliced.refCount = 1 := by
  obtain ⟨sliced, made, length, chars, cells, noText, size, count⟩ : ∃ sliced,
      other.slice beginIndex endIndex = .ok sliced ∧
        sliced.length = endIndex.toNat - beginIndex.toNat ∧
        sliced.chars = VmString.copyCharactersTo (fun _ => 0) 0
          (fun index => other.chars (beginIndex.toNat + index)) sliced.length ∧
        sliced.characterSize = other.characterSize ∧ sliced.encoded = none ∧
        sliced.size < 2 ^ 32 ∧ sliced.refCount = 1 := by
    unfold VmString.slice
    rw [if_neg (by omega), if_neg (by omega), if_neg (by omega)]
    refine ⟨_, rfl, by dsimp only; omega, rfl, rfl, rfl, ?_, rfl⟩
    dsimp only
    split_ifs
    · exact allocSize_lt _
    · exact localSize_lt
  have isRunes := runes_copied (by omega) (by omega) length chars
  refine ⟨sliced, made, wellFormed_of_runes isRunes ?_ ?_ ?_ noText size, isRunes, count⟩
  · exact cells ▸ wellFormed.cells
  · exact fun isChar rune member =>
      wellFormed.ascii (cells ▸ isChar) rune (mem_sliceRunes member)
  · exact fun rune member => wellFormed.supported rune (mem_sliceRunes member)

theorem slice_error {beginIndex endIndex : ℤ}
    (outside : ¬ (0 ≤ beginIndex ∧ beginIndex ≤ endIndex ∧ endIndex ≤ other.length)) :
    ∃ exception, other.slice beginIndex endIndex = .error exception := by
  unfold VmString.slice
  split_ifs with reversed negative above
  · exact ⟨_, rfl⟩
  · exact ⟨_, rfl⟩
  · exact ⟨_, rfl⟩
  · omega

theorem mem_decodeRunes {count : ℕ} {encodedStr : List UInt8} {decoded : List ℕ}
    (isDecoded : VmString.decodeRunes count encodedStr = some decoded) :
    decoded.length = count ∧ ∀ rune ∈ decoded, rune ≤ maxSupportedCodepoint := by
  induction count generalizing encodedStr decoded with
  | zero =>
      cases isDecoded
      exact ⟨rfl, fun rune member => by cases member⟩
  | succ count ih =>
      simp only [VmString.decodeRunes, Option.bind_eq_some_iff, Option.map_eq_some_iff] at isDecoded
      obtain ⟨⟨codepoint, consumed⟩, first, rest, isRest, rfl⟩ := isDecoded
      obtain ⟨length, supported⟩ := ih isRest
      refine ⟨by rw [List.length_cons, length], fun rune member => ?_⟩
      rcases List.mem_cons.mp member with rfl | inRest
      · exact decode_supported first
      · exact supported rune inRest

/-- The cells that the constructor chooses for text. -/
def textCells (encodedStr : List UInt8) : ℕ :=
  if encodedStr.length ≠ (countCodepoints encodedStr).1 then runeSize else charSize

/-- The string of copied characters. -/
def textString (characterSize : ℕ) (isAlloc : Bool) (copied : List ℕ) : VmString :=
  let lengthMax : ℤ :=
    if isAlloc then computeMaxLength copied.length else ↑(localMaxLength / characterSize)
  let size := if isAlloc then allocSize (lengthMax * characterSize) else localSize
  { refCount := 1
    length := copied.length
    lengthMax := lengthMax
    encoded := none
    characterSize := characterSize
    isAlloc := isAlloc
    size := size
    chars := fun index => copied.getD index 0
    overrun := decide (size < copied.length * characterSize) }

theorem runes_textString (characterSize : ℕ) (isAlloc : Bool) (copied : List ℕ) :
    (textString characterSize isAlloc copied).runes = copied := by
  refine runes_ext rfl fun index inside => ?_
  have inList : index < copied.length := inside
  rw [List.getElem?_eq_getElem inList]
  exact congrArg some (List.getD_eq_getElem _ _ inList)

theorem textCells_cases (encodedStr : List UInt8) :
    textCells encodedStr = charSize ∧ encodedStr.length = (countCodepoints encodedStr).1 ∨
      textCells encodedStr = runeSize ∧ encodedStr.length ≠ (countCodepoints encodedStr).1 := by
  unfold textCells
  split_ifs with multi
  · exact Or.inr ⟨rfl, multi⟩
  · exact Or.inl ⟨rfl, not_not.mp multi⟩

/-- The characters that the constructor copies from text. -/
def copiedText (encodedStr : List UInt8) : Option (List ℕ) :=
  if textCells encodedStr = charSize then some (encodedStr.map UInt8.toNat)
  else VmString.decodeRunes (countCodepoints encodedStr).1 encodedStr

theorem length_copiedText {encodedStr : List UInt8} {copied : List ℕ}
    (isCopied : copiedText encodedStr = some copied) :
    copied.length = (countCodepoints encodedStr).1 := by
  unfold copiedText at isCopied
  rcases textCells_cases encodedStr with ⟨isChar, ascii⟩ | ⟨isRune, -⟩
  · rw [if_pos isChar] at isCopied
    cases isCopied
    rw [List.length_map, ascii]
  · rw [if_neg (by rw [isRune]; decide)] at isCopied
    exact (mem_decodeRunes isCopied).1

theorem ofUtf8_eq (encodedStr : List UInt8) :
    VmString.ofUtf8 encodedStr =
      if encodedStr.length ≠ (countCodepoints encodedStr).2 then .error .invalidUtf8
      else match copiedText encodedStr with
        | none => .error .invalidUtf8
        | some copied => .ok (textString (textCells encodedStr)
            (decide (localMaxLength < encodedStr.length)) copied) := by
  unfold VmString.ofUtf8
  by_cases invalid : encodedStr.length ≠ (countCodepoints encodedStr).2
  · dsimp only
    rw [if_pos invalid, if_pos invalid]
  · rw [if_neg invalid]
    cases isCopied : copiedText encodedStr with
    | none =>
        unfold copiedText textCells at isCopied
        simp only [isCopied]
        rw [if_neg invalid]
    | some copied =>
        have length := length_copiedText isCopied
        unfold copiedText textCells at isCopied
        simp only [isCopied]
        unfold textString textCells
        rw [if_neg invalid, length]

theorem ofUtf8_spec {encodedStr : List UInt8} (made : VmString.ofUtf8 encodedStr = .ok string) :
    encodedStr.length = (countCodepoints encodedStr).2 ∧
      ∃ copied, copiedText encodedStr = some copied ∧
        string = textString (textCells encodedStr)
          (decide (localMaxLength < encodedStr.length)) copied := by
  rw [ofUtf8_eq] at made
  split_ifs at made with invalid
  refine ⟨not_not.mp invalid, ?_⟩
  cases isCopied : copiedText encodedStr with
  | none =>
      rw [isCopied] at made
      cases made
  | some copied =>
      rw [isCopied] at made
      cases made
      exact ⟨copied, rfl, rfl⟩

theorem wellFormed_ofUtf8 {encodedStr : List UInt8}
    (made : VmString.ofUtf8 encodedStr = .ok string) :
    WellFormed string ∧ string.refCount = 1 := by
  obtain ⟨-, copied, isCopied, rfl⟩ := ofUtf8_spec made
  unfold copiedText at isCopied
  refine ⟨wellFormed_of_runes (runes_textString _ _ _) ?_ ?_ ?_ rfl ?_, rfl⟩
  · exact (textCells_cases encodedStr).imp And.left And.left
  · intro isChar rune member
    have isTextCell : textCells encodedStr = charSize := isChar
    rw [if_pos isTextCell] at isCopied
    cases isCopied
    obtain ⟨byte, inText, rfl⟩ := List.mem_map.mp member
    have full : (countCodepoints encodedStr).1 = encodedStr.length := by
      rcases textCells_cases encodedStr with ⟨-, ascii⟩ | ⟨isRune, -⟩
      · exact ascii.symm
      · rw [isRune] at isTextCell
        exact absurd isTextCell (by decide)
    exact Nat.le_of_lt_succ (ascii_of_countCodepoints full byte inText)
  · intro rune member
    split_ifs at isCopied with isChar
    · cases isCopied
      obtain ⟨byte, -, rfl⟩ := List.mem_map.mp member
      exact Nat.le_trans (Nat.le_of_lt byte.toNat_lt) (by decide)
    · exact (mem_decodeRunes isCopied).2 rune member
  · dsimp only [textString]
    split_ifs
    · exact allocSize_lt _
    · exact localSize_lt

theorem combine_first {index : ℕ} (inside : index < string.length) :
    string.combine other index = string.chars index := by
  unfold VmString.combine VmString.copyCharactersTo
  rw [if_neg (by omega), if_pos (by omega), Nat.sub_zero]

theorem combine_second {index : ℕ} (after : string.length ≤ index)
    (inside : index < string.length + other.length) :
    string.combine other index = other.chars (index - string.length) := by
  unfold VmString.combine VmString.copyCharactersTo
  rw [if_pos ⟨after, inside⟩]

/-- The characters of two strings in one storage. -/
theorem runes_combine {combined : VmString}
    (length : combined.length = string.length + other.length)
    (chars : combined.chars = string.combine other) :
    combined.runes = string.runes ++ other.runes := by
  refine runes_ext ?_ fun index inside => ?_
  · rw [List.length_append, length_runes, length_runes, length]
  · rw [chars]
    by_cases first : index < string.length
    · rw [List.getElem?_append_left (by rw [length_runes]; exact first), getElem?_runes,
        if_pos first, combine_first first]
    · rw [List.getElem?_append_right (by rw [length_runes]; omega), length_runes, getElem?_runes,
        if_pos (by omega), combine_second (by omega) (by omega)]

/-- Two strings are ASCII when a wider cell is not needed for either. -/
theorem ascii_of_max (first : WellFormed string) (second : WellFormed other)
    (isChar : max string.characterSize other.characterSize = charSize) :
    ∀ rune ∈ string.runes ++ other.runes, rune ≤ maxCodepointAscii := by
  have isFirst : string.characterSize = charSize := first.cells.resolve_right fun isRune => by
    rw [isRune] at isChar
    exact absurd (isChar ▸ Nat.le_max_left runeSize _) (by decide)
  have isSecond : other.characterSize = charSize := second.cells.resolve_right fun isRune => by
    rw [isRune] at isChar
    exact absurd (isChar ▸ Nat.le_max_right _ runeSize) (by decide)
  intro rune member
  rcases List.mem_append.mp member with inFirst | inSecond
  · exact first.ascii isFirst rune inFirst
  · exact second.ascii isSecond rune inSecond

theorem supported_append (first : WellFormed string) (second : WellFormed other) :
    ∀ rune ∈ string.runes ++ other.runes, rune ≤ maxSupportedCodepoint := by
  intro rune member
  rcases List.mem_append.mp member with inFirst | inSecond
  · exact first.supported rune inFirst
  · exact second.supported rune inSecond

theorem runes_concat (string other : VmString) :
    (string.concat other).runes = string.runes ++ other.runes :=
  runes_combine rfl rfl

theorem wellFormed_concat (first : WellFormed string) (second : WellFormed other) :
    WellFormed (string.concat other) := by
  refine wellFormed_of_runes (runes_concat string other) ?_ ?_ (supported_append first second)
    rfl ?_
  · exact cells_max first.cells second.cells
  · exact ascii_of_max first second
  · unfold VmString.concat
    dsimp only
    exact allocSize_lt _

theorem append_spec (first : WellFormed string) (second : WellFormed other) :
    ∃ appended, string.append other true = (appended, none) ∧ WellFormed appended ∧
      appended.runes = string.runes ++ other.runes ∧ appended.refCount = string.refCount := by
  by_cases isEmpty : other.length = 0
  · have noRunes : other.runes = [] := List.length_eq_zero_iff.mp (by rw [length_runes, isEmpty])
    refine ⟨string, ?_, first, ?_, rfl⟩
    · unfold VmString.append
      rw [if_pos isEmpty]
    · rw [noRunes, List.append_nil]
  obtain ⟨appended, made, length, chars, cells, noText, size, count⟩ : ∃ appended,
      string.append other true = (appended, none) ∧
        appended.length = string.length + other.length ∧
        appended.chars = string.combine other ∧
        appended.characterSize = max string.characterSize other.characterSize ∧
        appended.encoded = none ∧ appended.size < 2 ^ 32 ∧
        appended.refCount = string.refCount := by
    unfold VmString.append
    rw [if_neg isEmpty, if_neg (by decide)]
    refine ⟨_, rfl, rfl, rfl, ?_, rfl, ?_, rfl⟩
    · simp only [decide_eq_true_eq]
      exact (cells_max_eq first.cells second.cells).symm
    · dsimp only
      exact allocSize_lt _
  have isRunes := runes_combine length chars
  refine ⟨appended, made, wellFormed_of_runes isRunes ?_ ?_ (supported_append first second) noText
    size, isRunes, count⟩
  · exact cells ▸ cells_max first.cells second.cells
  · exact fun isChar => ascii_of_max first second (cells ▸ isChar)

theorem setRune_error {index : ℤ} {value : ℕ} (available : Bool)
    (refused : ¬ (value ≤ maxSupportedCodepoint ∧ 0 ≤ index ∧ index ≤ string.length)) :
    ∃ exception, string.setRune index value available = (string, some exception) := by
  unfold VmString.setRune
  by_cases unsupported : maxSupportedCodepoint < value
  · rw [if_pos unsupported]
    exact ⟨_, rfl⟩
  · rw [if_neg unsupported, if_pos (by omega)]
    exact ⟨_, rfl⟩

theorem runes_writeRune {index : ℕ} (inside : index ≤ string.length) (value : ℕ) :
    (string.writeRune index value).runes = putRune string.runes index
      (if string.characterSize ≠ charSize then value else value &&& maxCodepointAscii) := by
  unfold putRune
  rw [length_runes]
  by_cases atEnd : index = string.length
  · subst atEnd
    rw [if_pos rfl]
    refine runes_ext ?_ fun other inString => ?_
    · simp [VmString.writeRune, length_runes]
    · simp only [VmString.writeRune, if_true] at inString ⊢
      by_cases isLast : other = string.length
      · subst isLast
        rw [Function.update_self, List.getElem?_append_right (by rw [length_runes]), length_runes,
          Nat.sub_self]
        rfl
      · rw [Function.update_of_ne isLast,
          List.getElem?_append_left (by rw [length_runes]; omega), getElem?_runes,
          if_pos (by omega)]
  · rw [if_neg atEnd]
    have kept : string.length ≠ index := fun same => atEnd same.symm
    refine runes_ext ?_ fun other inString => ?_
    · simp [VmString.writeRune, length_runes, kept]
    · simp only [VmString.writeRune, if_neg kept] at inString ⊢
      rw [List.getElem?_set, length_runes]
      by_cases isOne : index = other
      · subst isOne
        rw [Function.update_self, if_pos rfl, if_pos inString]
      · rw [Function.update_of_ne (Ne.symm isOne), if_neg isOne, getElem?_runes, if_pos inString]

/-- Moving to another storage changes no character. -/
theorem moveTo_spec (string : VmString) (characterSize : ℕ) :
    ∃ moved, string.moveTo characterSize true = (moved, none) ∧ moved.runes = string.runes ∧
      moved.length = string.length ∧ moved.characterSize = characterSize ∧
      moved.encoded = string.encoded ∧ moved.size < 2 ^ 32 ∧
      moved.refCount = string.refCount := by
  unfold VmString.moveTo
  simp only [Bool.not_true, Bool.false_eq_true, if_false]
  refine ⟨_, rfl, ?_, rfl, rfl, rfl, allocSize_lt _, rfl⟩
  refine runes_ext (length_runes string).symm fun index inside => ?_
  dsimp only at inside ⊢
  rw [copied_inside inside, getElem?_runes, if_pos inside]

/-- The rune is written into cells that are wide enough for it. -/
theorem writeRune_spec {moved : VmString} (wellFormed : WellFormed string)
    (isRunes : moved.runes = string.runes) (noText : moved.encoded = none)
    (size : moved.size < 2 ^ 32)
    (cells : moved.characterSize = charSize ∨ moved.characterSize = runeSize)
    (wider : string.characterSize ≤ moved.characterSize) {index value : ℕ}
    (inside : index ≤ moved.length) (supported : value ≤ maxSupportedCodepoint)
    (wide : moved.characterSize = charSize → value ≤ maxCodepointAscii) :
    WellFormed (moved.writeRune index value) ∧
      (moved.writeRune index value).runes = putRune string.runes index value := by
  have written : (moved.writeRune index value).runes = putRune string.runes index value := by
    rw [runes_writeRune inside, isRunes]
    split_ifs with isRune
    · rfl
    · have small : value < 2 ^ 7 := Nat.lt_succ_of_le (wide (not_not.mp isRune))
      have masked : value &&& maxCodepointAscii = value % 2 ^ 7 :=
        Nat.and_two_pow_sub_one_eq_mod value 7
      rw [masked, Nat.mod_eq_of_lt small]
  refine ⟨wellFormed_of_runes written cells ?_ ?_ noText size, written⟩
  · intro isChar rune member
    have isChar' : moved.characterSize = charSize := isChar
    have wasChar : string.characterSize = charSize := by
      refine wellFormed.cells.resolve_right fun isRune => ?_
      rw [isRune, isChar'] at wider
      exact absurd wider (by decide)
    rcases mem_putRune member with old | rfl
    · exact wellFormed.ascii wasChar rune old
    · exact wide isChar'
  · intro rune member
    rcases mem_putRune member with old | rfl
    · exact wellFormed.supported rune old
    · exact supported

theorem setRune_ok (wellFormed : WellFormed string) {index : ℤ} {value : ℕ}
    (supported : value ≤ maxSupportedCodepoint) (low : 0 ≤ index) (high : index ≤ string.length) :
    ∃ written, string.setRune index value true = (written, none) ∧ WellFormed written ∧
      written.runes = putRune string.runes index.toNat value ∧
      written.refCount = string.refCount := by
  unfold VmString.setRune
  rw [if_neg (Nat.not_lt.mpr supported), if_neg (by omega)]
  dsimp only
  generalize isNew : (if maxCodepointAscii < value then runeSize else charSize) = newSize
  have newCells : newSize = charSize ∨ newSize = runeSize := by
    rw [← isNew]
    split_ifs
    · exact Or.inr rfl
    · exact Or.inl rfl
  have wide : newSize = charSize → value ≤ maxCodepointAscii := by
    intro isChar
    by_contra large
    rw [if_pos (Nat.not_le.mp large), isChar] at isNew
    exact absurd isNew (by decide)
  have narrow : ¬ string.characterSize < newSize → string.characterSize = charSize →
      value ≤ maxCodepointAscii := by
    intro notWider isChar
    refine wide (newCells.resolve_right fun isRune => notWider ?_)
    rw [isRune, isChar]
    decide
  by_cases wider : string.characterSize < newSize
  · obtain ⟨moved, isMoved, sameRunes, sameLength, cells, noText, size, count⟩ :=
      moveTo_spec { string with encoded := none } newSize
    rw [if_pos wider, isMoved]
    dsimp only at sameLength
    obtain ⟨written, isWritten⟩ := writeRune_spec wellFormed sameRunes noText size
      (cells ▸ newCells) (cells ▸ Nat.le_of_lt wider) (show index.toNat ≤ moved.length by omega)
      supported (cells ▸ wide)
    exact ⟨_, rfl, written, isWritten, count⟩
  by_cases full : string.lengthMax ≤ index
  · obtain ⟨moved, isMoved, sameRunes, sameLength, cells, noText, size, count⟩ :=
      moveTo_spec { string with encoded := none } string.characterSize
    rw [if_neg wider, if_pos full, isMoved]
    dsimp only at sameLength
    obtain ⟨written, isWritten⟩ := writeRune_spec wellFormed sameRunes noText size
      (cells ▸ wellFormed.cells) (Nat.le_of_eq cells.symm)
      (show index.toNat ≤ moved.length by omega) supported (cells ▸ narrow wider)
    exact ⟨_, rfl, written, isWritten, count⟩
  · rw [if_neg wider, if_neg full]
    let released := { string with encoded := none }
    have inside : index.toNat ≤ released.length := show index.toNat ≤ string.length by omega
    obtain ⟨written, isWritten⟩ := writeRune_spec wellFormed (show released.runes = _ from rfl) rfl
      wellFormed.size wellFormed.cells (Nat.le_refl _) inside supported (narrow wider)
    exact ⟨_, rfl, written, isWritten, rfl⟩

theorem encodeText_ascii {runes : List ℕ} (ascii : ∀ rune ∈ runes, rune ≤ maxCodepointAscii) :
    encodeText runes = runes.map UInt8.ofNat := by
  induction runes with
  | nil => rfl
  | cons rune runes ih =>
      rw [encodeText_cons, encode_ascii (ascii rune List.mem_cons_self),
        ih fun other member => ascii other (List.mem_cons_of_mem _ member)]
      rfl

theorem encodedText_keep (string : VmString) (kept : Option Encoded) (encoded : Encoded) :
    { string with encoded := kept }.encodedText encoded = string.encodedText encoded := by
  cases encoded with
  | storage => rfl
  | alloc size text => rfl

/-- `str` gives the encoding of the runes. -/
theorem str_spec (wellFormed : WellFormed string) :
    WellFormed string.str.1 ∧ string.str.1.runes = string.runes ∧
      string.str.1.encodedText string.str.2 = encodeText string.runes ∧
      string.str.1.refCount = string.refCount := by
  have text : string.encodedText string.str.2 = encodeText string.runes := by
    unfold VmString.str
    cases cached : string.encoded with
    | some encoded => exact wellFormed.encoded encoded cached
    | none =>
        dsimp only
        split_ifs with isChar full
        · exact (encodeText_ascii (wellFormed.ascii isChar)).symm
        · exact (encodeText_ascii (wellFormed.ascii isChar)).symm
        · rfl
  have size : ∀ size text, string.str.2 = .alloc size text → size < 2 ^ 32 := by
    intro size bytes isText
    unfold VmString.str at isText
    cases cached : string.encoded with
    | some encoded =>
        rw [cached] at isText
        cases isText
        exact wellFormed.encodedSize size bytes cached
    | none =>
        rw [cached] at isText
        dsimp only at isText
        split_ifs at isText
        · cases isText
          exact allocSize_lt _
        · cases isText
          exact allocSize_lt _
  rw [str_fst]
  refine ⟨⟨wellFormed.cells, wellFormed.ascii, wellFormed.supported, ?_, wellFormed.size, ?_⟩, rfl,
    ?_, rfl⟩
  · intro encoded cached
    cases cached
    exact (encodedText_keep _ _ _).trans text
  · exact fun bufferSize bytes cached => size bufferSize bytes (Option.some.inj cached)
  · exact (encodedText_keep _ _ _).trans text

theorem getRune_spec (string : VmString) (index : ℤ) :
    string.getRune index =
      if 0 ≤ index ∧ index < string.length then .ok (string.chars index.toNat)
      else .error (.indexOutOfRangeMemory 0 (string.length - 1) index) := by
  unfold VmString.getRune
  split_ifs
  · omega
  · rfl
  · rfl
  · omega

end Runes

end Disvm.Strings
