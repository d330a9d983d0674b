import Disvm.FirstDifference
import Disvm.StringContents

/-!
# Comparison of strings

`compare` orders strings by their runes when one of the two is stored in bytes.
Two strings that are stored in runes go through `memcmp`, which takes the low
byte of a rune first and ends after as many bytes as the shorter string has
runes.
-/

namespace Disvm.Strings

open Utf8

/-- A string of the program; its length is a word. -/
structure StringValue where
  string : VmString
  wellFormed : WellFormed string
  word : string.length < 2 ^ 31

/-- The strings behind the pointers of a program. -/
abbrev StringValues := ℕ → StringValue

inductive CompareCase where
  | asciiAscii
  | asciiRune
  | runeAscii
  | runeRune
  deriving DecidableEq, Repr

/-- The scenario matrix. -/
def scenario (string1 string2 : VmString) : CompareCase :=
  if string1.characterSize = charSize then
    if string2.characterSize = charSize then .asciiAscii else .asciiRune
  else if string2.characterSize = charSize then .runeAscii else .runeRune

/-- A `char`, which has a sign, as a rune. -/
def runeOfChar (character : ℕ) : ℕ :=
  if character < 0x80 then character else character + 0xffffff00

def byteOf (cell offset : ℕ) : ℕ :=
  cell >>> (8 * offset) % 256

/-- A byte of the storage; the low byte of a cell comes first. -/
def VmString.byte (string : VmString) (offset : ℕ) : ℕ :=
  byteOf (string.chars (offset / string.characterSize)) (offset % string.characterSize)

/-- `_compare`. -/
def compareCharacters (len : ℕ) (s1 s2 : ℕ → ℕ) : ℤ :=
  scan (fun sc1 sc2 => if sc1 < sc2 then -1 else 1) s1 s2 0 len

def memcmp (bytes1 bytes2 : ℕ → ℕ) (count : ℕ) : ℤ :=
  scan (fun byte1 byte2 : ℕ => (byte1 : ℤ) - byte2) bytes1 bytes2 0 count

/-- What is read for a pointer; nil has no characters. -/
def stringAt (values : StringValues) : Option ℕ → VmString
  | none => VmString.empty
  | some pointer => (values pointer).string

/-- `vm_string_t::compare`.  Strings have the same memory when they are the same. -/
def compare (values : StringValues) (s1 s2 : Option ℕ) : ℤ :=
  if s1 = s2 then 0
  else
    let string1 := stringAt values s1
    let string2 := stringAt values s2
    let minLength := min string1.length string2.length
    let result :=
      match scenario string1 string2 with
      | .asciiAscii | .runeRune => memcmp string1.byte string2.byte minLength
      | .asciiRune =>
          compareCharacters minLength (fun index => runeOfChar (string1.chars index)) string2.chars
      | .runeAscii =>
          compareCharacters minLength string1.chars fun index => runeOfChar (string2.chars index)
    if result ≠ 0 then result else (string1.length : ℤ) - string2.length

inductive StringBranch where
  | bltc
  | bgtc
  | blec
  | bgec
  | beqc
  | bnec
  deriving DecidableEq, Repr

/-- The test that a branch makes on the result of `compare`. -/
def StringBranch.test (result : ℤ) : StringBranch → Bool
  | .bltc => result < 0
  | .bgtc => 0 < result
  | .blec => result ≤ 0
  | .bgec => 0 ≤ result
  | .beqc => result = 0
  | .bnec => result ≠ 0

/-- The next pc after a string branch. -/
def StringBranch.execute (branch : StringBranch) (values : StringValues)
    (src mid : Option ℕ) (dest nextPc : ℤ) : ℤ :=
  if branch.test (compare values src mid) then dest else nextPc

def runesAt (values : StringValues) (pointer : Option ℕ) : List ℕ :=
  (stringAt values pointer).runes

/-- The relation of the operands on which a branch is taken. -/
def StringBranch.Holds (src mid : List ℕ) : StringBranch → Prop
  | .bltc => src < mid
  | .bgtc => mid < src
  | .blec => src ≤ mid
  | .bgec => mid ≤ src
  | .beqc => src = mid
  | .bnec => src ≠ mid

/-- `compare` and the branches order strings by their runes. -/
structure ComparesRunes (values : StringValues) (s1 s2 : Option ℕ) : Prop where
  agrees : Agrees (compare values s1 s2) (runesAt values s1) (runesAt values s2)
  branches : ∀ (branch : StringBranch) (dest nextPc : ℤ),
    (branch.Holds (runesAt values s1) (runesAt values s2) →
      branch.execute values s1 s2 dest nextPc = dest) ∧
    (¬ branch.Holds (runesAt values s1) (runesAt values s2) →
      branch.execute values s1 s2 dest nextPc = nextPc)

/-- The lowest byte in which two supported runes differ. -/
def lowByte (left right : ℕ) : ℕ :=
  if byteOf left 0 ≠ byteOf right 0 then 0
  else if byteOf left 1 ≠ byteOf right 1 then 1
  else 2

/-- At the first runes that differ, their lowest byte that differs is among the
bytes compared and has the order of the runes, or it is not and the shorter
string has the smaller rune. -/
def BytesDecide (first second : List ℕ) : Prop :=
  ∀ index left right, FirstDifference first second index left right →
    if runeSize * index + lowByte left right < min first.length second.length then
      (byteOf left (lowByte left right) < byteOf right (lowByte left right) ↔ left < right)
    else first.length ≠ second.length ∧ (first.length < second.length ↔ left < right)

/-- One of the strings is stored in bytes, or the bytes of the runes have their
order. -/
def Comparable (values : StringValues) (s1 s2 : Option ℕ) : Prop :=
  (stringAt values s1).characterSize = charSize ∨ (stringAt values s2).characterSize = charSize ∨
    BytesDecide (runesAt values s1) (runesAt values s2)

section Compare

variable {values : StringValues} {s1 s2 : Option ℕ} {string1 string2 : VmString} {result : ℤ}

theorem wellFormed_stringAt (values : StringValues) (pointer : Option ℕ) :
    WellFormed (stringAt values pointer) := by
  cases pointer with
  | none => exact wellFormed_empty
  | some pointer => exact (values pointer).wellFormed

/-- The loop finds no difference when the runes of one string are a prefix of those
of the other one. -/
theorem chars_same (isPrefix : string1.runes <+: string2.runes ∨ string2.runes <+: string1.runes)
    {index : ℕ} (inside : index < min string1.length string2.length) :
    string1.chars index = string2.chars index := by
  have same : string1.runes[index]? = string2.runes[index]? := by
    rcases isPrefix with isPrefix | isPrefix
    · exact prefix_getElem? isPrefix (by rw [length_runes]; omega)
    · exact (prefix_getElem? isPrefix (by rw [length_runes]; omega)).symm
  rw [getElem?_runes, getElem?_runes, if_pos (by omega), if_pos (by omega)] at same
  exact Option.some.inj same

theorem chars_difference {index left right : ℕ}
    (differs : FirstDifference string1.runes string2.runes index left right) :
    index < min string1.length string2.length ∧ string1.chars index = left ∧
      string2.chars index = right ∧
      ∀ earlier, earlier < index → string1.chars earlier = string2.chars earlier := by
  obtain ⟨low, high⟩ := differs.lt_length
  rw [length_runes] at low high
  obtain ⟨isLeft, isRight⟩ := differs.getElem?
  rw [getElem?_runes, if_pos low] at isLeft
  rw [getElem?_runes, if_pos high] at isRight
  refine ⟨by omega, Option.some.inj isLeft, Option.some.inj isRight, fun earlier before => ?_⟩
  have same := differs.before before
  rw [getElem?_runes, getElem?_runes, if_pos (by omega), if_pos (by omega)] at same
  exact Option.some.inj same

/-- A loop over characters with the order of the runes as its verdict. -/
theorem agrees_scan {verdict : ℕ → ℕ → ℤ} {read1 read2 : ℕ → ℕ}
    (isRead1 : ∀ index < string1.length, read1 index = string1.chars index)
    (isRead2 : ∀ index < string2.length, read2 index = string2.chars index)
    (sign : ∀ left right, left ≠ right →
      verdict left right ≠ 0 ∧ (verdict left right < 0 ↔ left < right))
    (isResult : result = scan verdict read1 read2 0 (min string1.length string2.length)) :
    Agrees (if result ≠ 0 then result else (string1.length : ℤ) - string2.length)
      string1.runes string2.runes := by
  have sameReads : ∀ index < min string1.length string2.length,
      string1.chars index = string2.chars index → read1 index = read2 index :=
    fun index inside same => by
      rw [isRead1 index (by omega), isRead2 index (by omega), same]
  rcases prefix_or_difference string1.runes string2.runes with
    isPrefix | ⟨index, left, right, differs⟩
  · have isZero : result = 0 := by
      rw [isResult]
      apply scan_same
      intro place _ high
      exact sameReads place (by omega) (chars_same isPrefix (by omega))
    rw [if_neg (not_not.mpr isZero), ← length_runes string1, ← length_runes string2]
    exact agrees_of_prefixes isPrefix
  · obtain ⟨inside, isLeft, isRight, before⟩ := chars_difference differs
    have isVerdict : result = verdict left right := by
      rw [isResult, scan_at (Nat.zero_le index) (by omega)
        (fun earlier _ isEarlier => sameReads earlier (by omega) (before earlier isEarlier)),
        isRead1 index (by omega), isRead2 index (by omega), isLeft, isRight]
      rw [isRead1 index (by omega), isRead2 index (by omega), isLeft, isRight]
      exact differs.ne
    obtain ⟨notZero, negative⟩ := sign left right differs.ne
    rw [if_pos (by rw [isVerdict]; exact notZero), differs.agrees_iff, isVerdict]
    exact ⟨notZero, negative⟩

theorem runeOfChar_eq (wellFormed : WellFormed string1) (bytes : string1.characterSize = charSize)
    {index : ℕ} (inside : index < string1.length) :
    runeOfChar (string1.chars index) = string1.chars index := by
  have ascii := wellFormed.ascii bytes (string1.chars index)
    (List.mem_map_of_mem (List.mem_range.mpr inside))
  unfold maxCodepointAscii at ascii
  unfold runeOfChar
  rw [if_pos (by omega)]

theorem byte_chars (wellFormed : WellFormed string1) (bytes : string1.characterSize = charSize)
    {index : ℕ} (inside : index < string1.length) :
    string1.byte index = string1.chars index := by
  have ascii := wellFormed.ascii bytes (string1.chars index)
    (List.mem_map_of_mem (List.mem_range.mpr inside))
  unfold maxCodepointAscii at ascii
  unfold VmString.byte byteOf
  rw [bytes]
  unfold charSize
  rw [Nat.div_one, Nat.mod_one, Nat.mul_zero, Nat.shiftRight_zero]
  omega

theorem compareCharacters_sign (left right : ℕ) (_ : left ≠ right) :
    (if left < right then (-1 : ℤ) else 1) ≠ 0 ∧
      ((if left < right then (-1 : ℤ) else 1) < 0 ↔ left < right) := by
  split_ifs with less
  · simp [less]
  · simp [less]

theorem memcmp_sign (left right : ℕ) (different : left ≠ right) :
    (left : ℤ) - right ≠ 0 ∧ ((left : ℤ) - right < 0 ↔ left < right) := by
  omega

theorem byteOf_supported {rune : ℕ} (supported : rune ≤ maxSupportedCodepoint) :
    rune = byteOf rune 0 + 256 * byteOf rune 1 + 65536 * byteOf rune 2 := by
  unfold maxSupportedCodepoint maxCodepoint4Byte at supported
  unfold byteOf
  simp only [Nat.shiftRight_eq_div_pow, Nat.mul_zero, Nat.mul_one, Nat.pow_zero, Nat.reduceMul,
    Nat.reducePow, Nat.div_one]
  omega

theorem lowByte_spec {left right : ℕ} (leftSupported : left ≤ maxSupportedCodepoint)
    (rightSupported : right ≤ maxSupportedCodepoint) (different : left ≠ right) :
    lowByte left right < runeSize ∧
      byteOf left (lowByte left right) ≠ byteOf right (lowByte left right) ∧
      ∀ offset < lowByte left right, byteOf left offset = byteOf right offset := by
  have isLeft := byteOf_supported leftSupported
  have isRight := byteOf_supported rightSupported
  unfold lowByte runeSize
  split_ifs with low middle
  · exact ⟨by omega, low, fun offset before => by omega⟩
  · refine ⟨by omega, middle, fun offset before => ?_⟩
    obtain rfl : offset = 0 := by omega
    exact not_not.mp low
  · refine ⟨by omega, fun same => different ?_, fun offset before => ?_⟩
    · rw [isLeft, isRight, not_not.mp low, not_not.mp middle, same]
    · obtain rfl | rfl : offset = 0 ∨ offset = 1 := by omega
      · exact not_not.mp low
      · exact not_not.mp middle

theorem byte_runes (runes : string1.characterSize = runeSize) (index : ℕ) {offset : ℕ}
    (inside : offset < runeSize) :
    string1.byte (runeSize * index + offset) = byteOf (string1.chars index) offset := by
  unfold VmString.byte
  rw [runes]
  unfold runeSize at inside ⊢
  rw [Nat.mul_add_div (by omega), Nat.div_eq_of_lt inside, Nat.mul_add_mod, Nat.mod_eq_of_lt inside,
    Nat.add_zero]

/-- Equal characters before a place have equal bytes before it. -/
theorem bytes_same (runes1 : string1.characterSize = runeSize)
    (runes2 : string2.characterSize = runeSize) (limit : ℕ)
    (same : ∀ index < limit, string1.chars index = string2.chars index) {place : ℕ}
    (before : place < runeSize * limit) : string1.byte place = string2.byte place := by
  have inside : place % runeSize < runeSize := Nat.mod_lt place (by decide)
  have below : place / runeSize < limit := by
    unfold runeSize at before ⊢
    omega
  rw [← Nat.div_add_mod place runeSize, byte_runes runes1 _ inside, byte_runes runes2 _ inside,
    same _ below]

theorem supported_chars (wellFormed : WellFormed string1) {index : ℕ}
    (inside : index < string1.length) : string1.chars index ≤ maxSupportedCodepoint :=
  wellFormed.supported _ (List.mem_map_of_mem (List.mem_range.mpr inside))

/-- Two strings stored in runes are ordered as their bytes decide. -/
theorem agrees_memcmp_iff (wellFormed1 : WellFormed string1) (wellFormed2 : WellFormed string2)
    (runes1 : string1.characterSize = runeSize) (runes2 : string2.characterSize = runeSize)
    (isResult : result = memcmp string1.byte string2.byte (min string1.length string2.length)) :
    Agrees (if result ≠ 0 then result else (string1.length : ℤ) - string2.length)
      string1.runes string2.runes ↔ BytesDecide string1.runes string2.runes := by
  rcases prefix_or_difference string1.runes string2.runes with
    isPrefix | ⟨index, left, right, differs⟩
  · have isZero : result = 0 := by
      rw [isResult, memcmp]
      apply scan_same
      intro place _ high
      apply bytes_same runes1 runes2 (min string1.length string2.length)
      · intro index inside
        exact chars_same isPrefix inside
      · unfold runeSize
        omega
    rw [if_neg (not_not.mpr isZero), ← length_runes string1, ← length_runes string2]
    exact iff_of_true (agrees_of_prefixes isPrefix) fun index left right differs =>
      absurd isPrefix differs.not_prefixes
  · obtain ⟨inside, isLeft, isRight, before⟩ := chars_difference differs
    have decides : BytesDecide string1.runes string2.runes ↔
        if runeSize * index + lowByte left right < min string1.length string2.length then
          (byteOf left (lowByte left right) < byteOf right (lowByte left right) ↔ left < right)
        else string1.length ≠ string2.length ∧
          (string1.length < string2.length ↔ left < right) := by
      rw [← length_runes string1, ← length_runes string2]
      constructor
      · exact fun decide => decide index left right differs
      · intro decided otherIndex otherLeft otherRight other
        obtain ⟨rfl, rfl, rfl⟩ := differs.unique other
        exact decided
    obtain ⟨lowInside, lowDiffers, lowFirst⟩ := lowByte_spec
      (isLeft ▸ supported_chars wellFormed1 (by omega))
      (isRight ▸ supported_chars wellFormed2 (by omega)) differs.ne
    have sameBefore : ∀ place < runeSize * index + lowByte left right,
        string1.byte place = string2.byte place := fun place isBefore => by
      rcases Nat.lt_or_ge place (runeSize * index) with isEarlier | isHere
      · exact bytes_same runes1 runes2 index before isEarlier
      · obtain ⟨offset, rfl⟩ := Nat.exists_eq_add_of_le isHere
        rw [byte_runes runes1 index (by omega), byte_runes runes2 index (by omega), isLeft, isRight]
        exact lowFirst offset (by omega)
    rw [decides, differs.agrees_iff]
    by_cases reached : runeSize * index + lowByte left right < min string1.length string2.length
    · have isVerdict : result = (byteOf left (lowByte left right) : ℤ) -
          byteOf right (lowByte left right) := by
        rw [isResult, memcmp, scan_at (Nat.zero_le _) (by omega)
          (fun earlier _ isEarlier => sameBefore earlier isEarlier),
          byte_runes runes1 index lowInside, byte_runes runes2 index lowInside, isLeft, isRight]
        rw [byte_runes runes1 index lowInside, byte_runes runes2 index lowInside, isLeft, isRight]
        exact lowDiffers
      rw [if_pos reached, if_pos (by omega), isVerdict]
      omega
    · have isZero : result = 0 := by
        rw [isResult, memcmp]
        apply scan_same
        intro place _ high
        exact sameBefore place (by omega)
      rw [if_neg reached, if_neg (not_not.mpr isZero)]
      omega

theorem characterSize_of_ne (wellFormed : WellFormed string1)
    (notBytes : string1.characterSize ≠ charSize) : string1.characterSize = runeSize :=
  wellFormed.cells.resolve_left notBytes

theorem test_iff {first second : List ℕ} (agrees : Agrees result first second)
    (branch : StringBranch) : branch.test result = true ↔ branch.Holds first second := by
  have negative := agrees.negative
  have positive := agrees.positive
  cases branch with
  | bltc => exact decide_eq_true_iff.trans negative
  | bgtc => exact decide_eq_true_iff.trans positive
  | blec =>
      refine decide_eq_true_iff.trans ?_
      rw [← not_lt, positive]
      exact not_lt
  | bgec =>
      refine decide_eq_true_iff.trans ?_
      rw [← not_lt, negative]
      exact not_lt
  | beqc => exact decide_eq_true_iff.trans agrees.zero
  | bnec => exact decide_eq_true_iff.trans (not_congr agrees.zero)

theorem comparesRunes_of_agrees
    (agrees : Agrees (compare values s1 s2) (runesAt values s1) (runesAt values s2)) :
    ComparesRunes values s1 s2 where
  agrees := agrees
  branches branch _ _ :=
    ⟨fun holds => if_pos ((test_iff agrees branch).mpr holds),
      fun fails => if_neg fun taken => fails ((test_iff agrees branch).mp taken)⟩

theorem agrees_self (values : StringValues) (pointer : Option ℕ) :
    Agrees (compare values pointer pointer) (runesAt values pointer)
      (runesAt values pointer) := by
  unfold compare
  rw [if_pos rfl]
  constructor
  · exact iff_of_false (lt_irrefl _) (lt_irrefl _)
  · exact iff_of_true rfl rfl
  · exact iff_of_false (lt_irrefl _) (lt_irrefl _)

/-- `compare` is lexicographic by code point exactly for strings that are not both
stored in runes, and for those whose bytes happen to have their order. -/
theorem comparesRunes_iff (values : StringValues) (s1 s2 : Option ℕ) :
    ComparesRunes values s1 s2 ↔ Comparable values s1 s2 := by
  refine Iff.trans ⟨ComparesRunes.agrees, comparesRunes_of_agrees⟩ ?_
  by_cases same : s1 = s2
  · subst same
    exact iff_of_true (agrees_self values s1) (Or.inr (Or.inr fun index left right differs =>
      absurd (Or.inl (List.prefix_refl _)) differs.not_prefixes))
  · have wellFormed1 := wellFormed_stringAt values s1
    have wellFormed2 := wellFormed_stringAt values s2
    unfold compare Comparable
    rw [if_neg same]
    by_cases bytes1 : (stringAt values s1).characterSize = charSize
    · refine iff_of_true ?_ (Or.inl bytes1)
      by_cases bytes2 : (stringAt values s2).characterSize = charSize
      · have isCase : scenario (stringAt values s1) (stringAt values s2) = .asciiAscii := by
          rw [scenario, if_pos bytes1, if_pos bytes2]
        simp only [isCase]
        exact agrees_scan (fun index inside => byte_chars wellFormed1 bytes1 inside)
          (fun index inside => byte_chars wellFormed2 bytes2 inside) memcmp_sign rfl
      · have isCase : scenario (stringAt values s1) (stringAt values s2) = .asciiRune := by
          rw [scenario, if_pos bytes1, if_neg bytes2]
        simp only [isCase]
        exact agrees_scan (fun index inside => runeOfChar_eq wellFormed1 bytes1 inside)
          (fun index _ => rfl) compareCharacters_sign rfl
    · by_cases bytes2 : (stringAt values s2).characterSize = charSize
      · refine iff_of_true ?_ (Or.inr (Or.inl bytes2))
        have isCase : scenario (stringAt values s1) (stringAt values s2) = .runeAscii := by
          rw [scenario, if_neg bytes1, if_pos bytes2]
        simp only [isCase]
        exact agrees_scan (fun index _ => rfl)
          (fun index inside => runeOfChar_eq wellFormed2 bytes2 inside) compareCharacters_sign rfl
      · have isCase : scenario (stringAt values s1) (stringAt values s2) = .runeRune := by
          rw [scenario, if_neg bytes1, if_neg bytes2]
        simp only [isCase]
        rw [or_iff_right bytes1, or_iff_right bytes2]
        exact agrees_memcmp_iff wellFormed1 wellFormed2
          (characterSize_of_ne wellFormed1 bytes1) (characterSize_of_ne wellFormed2 bytes2) rfl

end Compare

/-- A string of one rune. -/
def oneRune (rune : ℕ) (supported : rune ≤ maxSupportedCodepoint) : StringValue where
  string := (VmString.empty.setRune 0 rune true).1
  wellFormed := by
    obtain ⟨written, isWritten, wellFormed, -⟩ :=
      setRune_ok wellFormed_empty supported (le_refl 0) (Int.natCast_nonneg _)
    rw [isWritten]
    exact wellFormed
  word := by
    obtain ⟨written, isWritten, -, runes, -⟩ :=
      setRune_ok wellFormed_empty supported (le_refl 0) (Int.natCast_nonneg _)
    rw [isWritten, ← length_runes, runes]
    show 1 < 2 ^ 31
    decide

/-- U+0100 and U+00FF, in this order. -/
def twoStrings : StringValues
  | 0 => oneRune 0x100 (by decide)
  | _ + 1 => oneRune 0xff (by decide)

/-- U+0100 comes before U+00FF, as its low byte does. -/
theorem low_byte_first : ¬ ComparesRunes twoStrings (some 0) (some 1) := by
  intro compares
  have less : compare twoStrings (some 0) (some 1) < 0 := by decide
  have ordered : ¬ runesAt twoStrings (some 0) < runesAt twoStrings (some 1) := by decide
  exact ordered (compares.agrees.negative.mp less)

end Disvm.Strings
