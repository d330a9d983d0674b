import Mathlib.Algebra.Order.Ring.Int
import Mathlib.Data.List.Basic

/-!
# Numbers and delimiters in texts

Integers as decimal numerals, the integer at the start of a text, the part of a text
up to a delimiter, and the parts between delimiters.  What is put together from
numerals and delimiters is read back one part at a time.
-/

namespace Disvm.DecimalText

def decimal (value : ℤ) : List Char :=
  if value < 0 then '-' :: Nat.toDigits 10 value.natAbs else Nat.toDigits 10 value.natAbs

/-- The digits at the start of a text and the text behind them. -/
def readNat (text : List Char) : Option (ℕ × List Char) :=
  let digits := text.takeWhile Char.isDigit
  if digits = [] then none
  else some (Nat.ofDigitChars 10 digits 0, text.dropWhile Char.isDigit)

/-- An integer with an optional sign at the start of a text. -/
def readInt : List Char → Option (ℤ × List Char)
  | '-' :: text => (readNat text).map fun found => (-(found.1 : ℤ), found.2)
  | '+' :: text => (readNat text).map fun found => ((found.1 : ℤ), found.2)
  | text => (readNat text).map fun found => ((found.1 : ℤ), found.2)

/-- A text that does not go on with a digit. -/
def Ends (text : List Char) : Prop :=
  ∀ first ∈ text.head?, first.isDigit = false

theorem ends_nil : Ends [] := by
  rintro first ⟨⟩

theorem ends_cons {first : Char} (text : List Char) (isMark : first.isDigit = false) :
    Ends (first :: text) := by
  intro other isFirst
  cases isFirst
  exact isMark

theorem isDigit_of_mem_toDigits {value : ℕ} {digit : Char}
    (member : digit ∈ Nat.toDigits 10 value) : digit.isDigit = true :=
  Nat.isDigit_of_mem_toDigits (by decide) (by decide) member

theorem takeWhile_append_ends {digits text : List Char}
    (isDigits : ∀ digit ∈ digits, Char.isDigit digit = true) (ends : Ends text) :
    (digits ++ text).takeWhile Char.isDigit = digits ∧
      (digits ++ text).dropWhile Char.isDigit = text := by
  induction digits with
  | nil =>
      cases text with
      | nil => exact ⟨rfl, rfl⟩
      | cons first text =>
          have isMark := ends first rfl
          constructor
          · exact List.takeWhile_cons_of_neg (Bool.eq_false_iff.mp isMark)
          · exact List.dropWhile_cons_of_neg (Bool.eq_false_iff.mp isMark)
  | cons digit digits ih =>
      have isFirst := isDigits digit List.mem_cons_self
      obtain ⟨taken, dropped⟩ := ih fun other member =>
        isDigits other (List.mem_cons_of_mem _ member)
      constructor
      · rw [List.cons_append, List.takeWhile_cons_of_pos isFirst, taken]
      · rw [List.cons_append, List.dropWhile_cons_of_pos isFirst, dropped]

theorem readNat_toDigits (value : ℕ) {text : List Char} (ends : Ends text) :
    readNat (Nat.toDigits 10 value ++ text) = some (value, text) := by
  obtain ⟨taken, dropped⟩ :=
    takeWhile_append_ends (fun digit => isDigit_of_mem_toDigits) ends
  rw [readNat, taken, dropped, if_neg Nat.toDigits_ne_nil,
    Nat.ofDigitChars_toDigits (by decide) (by decide)]

/-- A text without a digit at its start has no number there. -/
theorem readNat_of_ends {text : List Char} (ends : Ends text) : readNat text = none := by
  have noDigits : ∀ digit ∈ ([] : List Char), digit.isDigit = true := fun _ member => by
    cases member
  have taken := (takeWhile_append_ends noDigits ends).1
  rw [List.nil_append] at taken
  rw [readNat, taken, if_pos rfl]

theorem readInt_of_digit {first : Char} (text : List Char) (isDigit : first.isDigit = true) :
    readInt (first :: text) =
      (readNat (first :: text)).map fun found => ((found.1 : ℤ), found.2) := by
  unfold readInt
  split
  · rename_i same
    cases same
    cases isDigit
  · rename_i same
    cases same
    cases isDigit
  · rfl

/-- A numeral is read back, whatever follows it that is not a digit. -/
theorem readInt_decimal (value : ℤ) {text : List Char} (ends : Ends text) :
    readInt (decimal value ++ text) = some (value, text) := by
  have found := readNat_toDigits value.natAbs ends
  unfold decimal
  split
  · show (readNat (Nat.toDigits 10 value.natAbs ++ text)).map _ = _
    rw [found, Option.map_some, Int.ofNat_natAbs_of_nonpos (by omega), Int.neg_neg]
  · have isNat : (value.natAbs : ℤ) = value := Int.natAbs_of_nonneg (by omega)
    cases digits : Nat.toDigits 10 value.natAbs with
    | nil => exact absurd digits Nat.toDigits_ne_nil
    | cons first rest =>
        have isDigit : first.isDigit = true :=
          isDigit_of_mem_toDigits (digits ▸ List.mem_cons_self)
        rw [digits] at found
        rw [List.cons_append] at found ⊢
        rw [readInt_of_digit _ isDigit, found, Option.map_some, isNat]

theorem decimal_ne_nil (value : ℤ) : decimal value ≠ [] := by
  unfold decimal
  split
  · exact List.cons_ne_nil _ _
  · exact Nat.toDigits_ne_nil

/-- The characters of a numeral are digits and the sign. -/
theorem mem_decimal {value : ℤ} {character : Char} (member : character ∈ decimal value) :
    character = '-' ∨ character.isDigit = true := by
  unfold decimal at member
  split at member
  · rcases List.mem_cons.mp member with isSign | inDigits
    · exact Or.inl isSign
    · exact Or.inr (isDigit_of_mem_toDigits inDigits)
  · exact Or.inr (isDigit_of_mem_toDigits member)

theorem notMem_decimal {value : ℤ} {mark : Char} (noSign : mark ≠ '-')
    (noDigit : mark.isDigit = false) : mark ∉ decimal value := by
  intro member
  rcases mem_decimal member with isSign | isDigit
  · exact noSign isSign
  · rw [noDigit] at isDigit
    cases isDigit

/-- The text before the first delimiter and the text after it, with the part read so
far; there is nothing to be had from a text without the delimiter. -/
def readUntilFrom (delimiter : Char) : List Char → List Char → List Char × List Char
  | _, [] => ([], [])
  | part, character :: text =>
      if character = delimiter then (part, text)
      else readUntilFrom delimiter (part ++ [character]) text

def readUntil (delimiter : Char) (text : List Char) : List Char × List Char :=
  readUntilFrom delimiter [] text

theorem readUntilFrom_append {delimiter : Char} {word : List Char} (isWord : delimiter ∉ word)
    (part text : List Char) :
    readUntilFrom delimiter part (word ++ delimiter :: text) = (part ++ word, text) := by
  induction word generalizing part with
  | nil => rw [List.nil_append, readUntilFrom, if_pos rfl, List.append_nil]
  | cons character word ih =>
      have isOther : character ≠ delimiter := (List.ne_of_not_mem_cons isWord).symm
      rw [List.cons_append, readUntilFrom, if_neg isOther, ih (List.not_mem_of_not_mem_cons isWord),
        List.append_assoc, List.singleton_append]

theorem readUntil_append {delimiter : Char} {word : List Char} (isWord : delimiter ∉ word)
    (text : List Char) : readUntil delimiter (word ++ delimiter :: text) = (word, text) :=
  readUntilFrom_append isWord [] text

/-- The parts between delimiters that are not empty, with the part read so far. -/
def splitFrom (delimiters : List Char) : List Char → List Char → List (List Char)
  | part, [] => if part = [] then [] else [part]
  | part, character :: text =>
      if character ∈ delimiters then
        if part = [] then splitFrom delimiters [] text
        else part :: splitFrom delimiters [] text
      else splitFrom delimiters (part ++ [character]) text

theorem splitFrom_append {delimiters word : List Char}
    (isWord : ∀ character ∈ word, character ∉ delimiters) (part text : List Char) :
    splitFrom delimiters part (word ++ text) = splitFrom delimiters (part ++ word) text := by
  induction word generalizing part with
  | nil => rw [List.nil_append, List.append_nil]
  | cons character word ih =>
      have isFirst := isWord character List.mem_cons_self
      have isRest : ∀ other ∈ word, other ∉ delimiters := fun other member =>
        isWord other (List.mem_cons_of_mem _ member)
      rw [List.cons_append, splitFrom, if_neg isFirst, ih isRest, List.append_assoc,
        List.singleton_append]

/-- A word and a delimiter give the word as a part. -/
theorem splitFrom_word {delimiters word : List Char} {delimiter : Char}
    (isWord : ∀ character ∈ word, character ∉ delimiters) (nonempty : word ≠ [])
    (isDelimiter : delimiter ∈ delimiters) (text : List Char) :
    splitFrom delimiters [] (word ++ delimiter :: text) =
      word :: splitFrom delimiters [] text := by
  rw [splitFrom_append isWord, List.nil_append, splitFrom, if_pos isDelimiter, if_neg nonempty]

theorem splitFrom_last {delimiters word : List Char}
    (isWord : ∀ character ∈ word, character ∉ delimiters) (nonempty : word ≠ []) :
    splitFrom delimiters [] word = [word] := by
  have parts := splitFrom_append isWord [] []
  rw [List.append_nil, List.nil_append] at parts
  rw [parts, splitFrom, if_neg nonempty]

end Disvm.DecimalText
