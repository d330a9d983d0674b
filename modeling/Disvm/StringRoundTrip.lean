import Disvm.StringRefinement
import Disvm.TransitionRuns
import Mathlib.Data.List.TakeWhile

/-!
# Strings through arrays of byte

A string is converted to an array of byte and back.  What the strings of a
program keep makes the conversion depend on the runes alone, apart from the
buffer of the text.
-/

namespace Disvm.Strings

open RefCounting Utf8

section Constructor

variable {string : VmString} {runes : List ℕ}

/-- The decoding loop reads back the runes that UTF-8 has encodings for, but for
NUL. -/
theorem decodeRunes_encodeText (scalars : ∀ rune ∈ runes, IsScalar rune)
    (noNul : ∀ rune ∈ runes, rune ≠ 0) :
    VmString.decodeRunes runes.length (encodeText runes) = some runes := by
  induction runes with
  | nil => rfl
  | cons rune runes ih =>
      have first := decode_encode (scalars rune List.mem_cons_self) (noNul rune List.mem_cons_self)
        (encodeText runes)
      have rest := ih (fun other member => scalars other (List.mem_cons_of_mem _ member))
        (fun other member => noNul other (List.mem_cons_of_mem _ member))
      rw [encodeText_cons, List.length_cons]
      simp only [VmString.decodeRunes, first, Option.bind_some, List.drop_left, rest,
        Option.map_some]

/-- The runes for which the storage that the constructor chooses has room. -/
def HasRoom (runes : List ℕ) : Prop :=
  (encodeText runes).length = runes.length ∨
    (encodeText runes).length ≤ localMaxLength ∧ runes.length * runeSize ≤ localSize ∨
    localMaxLength < (encodeText runes).length ∧ runes.length + 1 + runes.length / 4 < 2 ^ 30

instance (runes : List ℕ) : Decidable (HasRoom runes) :=
  inferInstanceAs (Decidable (_ ∨ _ ∨ _))

theorem allocSize_wrapped (count characterSize : ℕ) :
    allocSize (Int.bmod count (2 ^ 32) * characterSize) = count * characterSize % 2 ^ 32 := by
  have wrapped : Int.bmod count (2 ^ 32) % (2 ^ 32 : ℕ) = count % (2 ^ 32 : ℕ) := Int.bmod_emod
  have product : Int.bmod count (2 ^ 32) * characterSize % (2 ^ 32 : ℕ) =
      (count * characterSize % 2 ^ 32 : ℕ) := by
    rw [Int.mul_emod, wrapped, ← Int.mul_emod, ← Int.natCast_mul, ← Int.natCast_emod]
  unfold allocSize
  rw [show (2 ^ 32 : ℤ) = (2 ^ 32 : ℕ) by decide, product, Int.toNat_natCast]

/-- The bytes of an allocation for a length that is a word are enough for it
exactly without an overflow. -/
theorem allocSize_enough_iff {length : ℕ} (word : length < 2 ^ 31) :
    ¬ allocSize (computeMaxLength length * charSize) < length * charSize ∧
      (¬ allocSize (computeMaxLength length * runeSize) < length * runeSize ↔
        length + 1 + length / 4 < 2 ^ 30) := by
  unfold computeMaxLength
  rw [allocSize_wrapped, allocSize_wrapped]
  unfold charSize runeSize
  rw [Nat.mul_one, Nat.mul_one, Nat.mod_eq_of_lt (by omega)]
  omega

theorem length_le_encodeText (supported : ∀ rune ∈ runes, rune ≤ maxSupportedCodepoint) :
    runes.length ≤ (encodeText runes).length := by
  induction runes with
  | nil => exact Nat.le_refl _
  | cons rune runes ih =>
      have first := List.length_pos_iff.mpr (encode_ne_nil (supported rune List.mem_cons_self))
      have rest := ih fun other member => supported other (List.mem_cons_of_mem _ member)
      rw [encodeText_cons, List.length_append, List.length_cons]
      omega

/-- Runes that take a byte each are ASCII. -/
theorem ascii_of_length (supported : ∀ rune ∈ runes, rune ≤ maxSupportedCodepoint)
    (single : (encodeText runes).length = runes.length) :
    ∀ rune ∈ runes, rune ≤ maxCodepointAscii := by
  induction runes with
  | nil => simp
  | cons rune runes ih =>
      have supportedTail : ∀ other ∈ runes, other ≤ maxSupportedCodepoint := fun other member =>
        supported other (List.mem_cons_of_mem _ member)
      have first := List.length_pos_iff.mpr (encode_ne_nil (supported rune List.mem_cons_self))
      have rest := length_le_encodeText supportedTail
      rw [encodeText_cons, List.length_append, List.length_cons] at single
      intro other member
      rcases List.mem_cons.mp member with rfl | inTail
      · exact (encode_length_eq_one (supported other List.mem_cons_self)).mp (by omega)
      · exact ih supportedTail (by omega) other inTail

theorem copiedText_encodeText (scalars : ∀ rune ∈ runes, IsScalar rune)
    (noNul : ∀ rune ∈ runes, rune ≠ 0) : copiedText (encodeText runes) = some runes := by
  have counted := countCodepoints_encodeText scalars
  unfold copiedText
  rcases textCells_cases (encodeText runes) with ⟨isChar, single⟩ | ⟨isRune, -⟩
  · rw [counted] at single
    have ascii := ascii_of_length (fun rune member => (scalars rune member).1) single
    rw [if_pos isChar, encodeText_ascii ascii, List.map_map]
    refine congrArg some ((List.map_congr_left fun rune member => ?_).trans (List.map_id runes))
    exact UInt8.toNat_ofNat_of_lt' (Nat.lt_of_le_of_lt (ascii rune member) (by decide))
  · rw [if_neg (by rw [isRune]; decide), counted]
    exact decodeRunes_encodeText scalars noNul

/-- UTF-8 text makes the string of the characters that are copied from it. -/
theorem ofUtf8_copied (scalars : ∀ rune ∈ runes, IsScalar rune) {copied : List ℕ}
    (isCopied : copiedText (encodeText runes) = some copied)
    (word : (encodeText runes).length < 2 ^ 31) :
    ∃ string, VmString.ofUtf8 (encodeText runes) = .ok string ∧ string.runes = copied ∧
      (string.overrun = false ↔ HasRoom runes) := by
  have counted := countCodepoints_encodeText scalars
  have short := length_le_encodeText fun rune member => (scalars rune member).1
  have enough := allocSize_enough_iff (show runes.length < 2 ^ 31 by omega)
  have length : copied.length = runes.length := by
    rw [length_copiedText isCopied, counted]
  refine ⟨textString (textCells (encodeText runes))
    (decide (localMaxLength < (encodeText runes).length)) copied, ?_, runes_textString _ _ _, ?_⟩
  · rw [ofUtf8_eq, counted, isCopied, if_neg (not_not_intro rfl)]
  unfold textString HasRoom
  dsimp only
  rw [decide_eq_false_iff_not, length]
  rcases textCells_cases (encodeText runes) with ⟨isChar, single⟩ | ⟨isRune, multi⟩
  · rw [counted] at single
    rw [isChar]
    refine iff_of_true ?_ (Or.inl single)
    by_cases allocated : localMaxLength < (encodeText runes).length
    · simp only [decide_eq_true allocated, if_true]
      exact enough.1
    · simp only [decide_eq_false allocated, Bool.false_eq_true, if_false]
      unfold localMaxLength at allocated
      unfold charSize
      omega
  · rw [counted] at multi
    rw [isRune]
    by_cases allocated : localMaxLength < (encodeText runes).length
    · simp only [decide_eq_true allocated, if_true]
      rw [enough.2]
      have notLocal : ¬ (encodeText runes).length ≤ localMaxLength := Nat.not_le.mpr allocated
      simp only [multi, notLocal, allocated, false_and, true_and, false_or]
    · simp only [decide_eq_false allocated, Bool.false_eq_true, if_false]
      have isLocal : (encodeText runes).length ≤ localMaxLength := Nat.not_lt.mp allocated
      simp only [multi, isLocal, allocated, false_and, true_and, false_or, or_false, Nat.not_lt]

/-- Text of runes that UTF-8 has encodings for, but for NUL, makes the string of
these runes. -/
theorem ofUtf8_encodeText (scalars : ∀ rune ∈ runes, IsScalar rune)
    (noNul : ∀ rune ∈ runes, rune ≠ 0) (word : (encodeText runes).length < 2 ^ 31) :
    ∃ string, VmString.ofUtf8 (encodeText runes) = .ok string ∧ string.runes = runes ∧
      (string.overrun = false ↔ HasRoom runes) :=
  ofUtf8_copied scalars (copiedText_encodeText scalars noNul) word

/-- Text with a surrogate makes no string. -/
theorem ofUtf8_surrogate {rune : ℕ} (surrogate : IsSurrogate rune) (member : rune ∈ runes)
    (supported : ∀ rune ∈ runes, rune ≤ maxSupportedCodepoint) :
    VmString.ofUtf8 (encodeText runes) = .error .invalidUtf8 := by
  rw [ofUtf8_eq, if_pos (countCodepoints_surrogate surrogate member supported).symm]

end Constructor

section Conversions

variable {runes : List ℕ}

/-- The text up to its first NUL is the text of the runes up to the first NUL. -/
theorem takeWhile_encodeText (supported : ∀ rune ∈ runes, rune ≤ maxSupportedCodepoint) :
    (encodeText runes).takeWhile (· ≠ 0) = encodeText (runes.takeWhile (· ≠ 0)) := by
  induction runes with
  | nil => rfl
  | cons rune runes ih =>
      have rest := ih fun other member => supported other (List.mem_cons_of_mem _ member)
      rw [encodeText_cons]
      by_cases isNul : rune = 0
      · subst isNul
        rfl
      · have noNul : ∀ byte ∈ encode rune, decide (byte ≠ 0) = true := by
          intro byte member
          rw [decide_eq_true_eq]
          rintro rfl
          exact isNul ((nul_mem_encode (supported rune List.mem_cons_self)).mp member)
        have isPos : (fun other : ℕ => decide (other ≠ 0)) rune = true := decide_eq_true isNul
        rw [List.takeWhile_append_of_pos noNul, rest, List.takeWhile_cons, if_pos isPos,
          encodeText_cons]

theorem bmod_word {length : ℕ} (word : length < 2 ^ 31) :
    Int.bmod length (2 ^ 32) = length :=
  Int.bmod_eq_of_le (by omega) (by omega)

theorem bmod_pos_iff {length : ℕ} (short : length < 2 ^ 32) :
    0 < Int.bmod length (2 ^ 32) ↔ 0 < length ∧ length < 2 ^ 31 := by
  rw [Int.bmod_def]
  push_cast
  split_ifs <;> omega

/-- A text inside its buffer is shorter than a word can say. -/
theorem length_encodedText {string : VmString} {encoded : Encoded}
    (wellFormed : WellFormed string) (cached : string.encoded = some encoded)
    (inside : string.NulInside encoded) : (string.encodedText encoded).length < 2 ^ 32 := by
  cases encoded with
  | storage =>
      have short : string.length < string.size := inside.1
      have size := wellFormed.size
      unfold VmString.encodedText
      rw [List.length_map, length_runes]
      omega
  | alloc size text =>
      have short : text.length < size := inside
      have isSize := wellFormed.encodedSize size text cached
      exact Nat.lt_trans short isSize

end Conversions

namespace StringState

variable {slotCount : ℕ} {state : StringState slotCount}

/-- `cvtac` of bytes that make a string. -/
theorem cvtac_ok (coherent : Coherent state) (dest : Fin slotCount) (array : VmByteArray)
    {string : VmString} (nonempty : 0 < array.length)
    (made : VmString.ofUtf8 (array.bytes.take array.length.toNat) = .ok string) :
    (state.cvtac dest (some array)).2 = .done ∧ Coherent (state.cvtac dest (some array)).1 ∧
      (state.cvtac dest (some array)).1.load dest = some string ∧
      (state.cvtac dest (some array)).1.contents =
        Function.update state.contents dest string.runes := by
  obtain ⟨wellFormed, count⟩ := wellFormed_ofUtf8 made
  obtain ⟨heap, released, emptied, noContents⟩ := drop_spec coherent dest
  obtain ⟨filled, contents⟩ := putNew_spec emptied dest wellFormed count
  have isPut : state.cvtac dest (some array) =
      (putNew ⟨heap, Function.update state.slots dest none⟩ dest string, .done) := by
    unfold cvtac putNew decRefCountAndFree allocate setSlot
    rw [released]
    simp only [if_neg (Int.not_le.mpr nonempty), made, Function.update_self, Option.toList_none,
      release_nil, Function.update_idem]
  rw [isPut]
  refine ⟨rfl, filled, ?_, ?_⟩
  · unfold putNew load
    dsimp only
    rw [Function.update_self, Function.update_self, Option.toList_none, release_nil]
    exact Heap.allocate_self string
  · rw [contents, noContents, Function.update_idem]

theorem cvtac_done {dest : Fin slotCount} {array : VmByteArray}
    (done : (state.cvtac dest (some array)).2 = .done) :
    0 < array.length ∧
      ∃ string, VmString.ofUtf8 (array.bytes.take array.length.toNat) = .ok string := by
  unfold cvtac at done
  dsimp only at done
  split_ifs at done with isEmpty
  refine ⟨Int.not_le.mp isEmpty, ?_⟩
  cases made : VmString.ofUtf8 (array.bytes.take array.length.toNat) with
  | error exception =>
      rw [made] at done
      cases done
  | ok string => exact ⟨string, rfl⟩

/-- `cvtac` that does not throw leaves the heap sound. -/
theorem coherent_cvtac (coherent : Coherent state) {dest : Fin slotCount}
    {array : Option VmByteArray} (done : (state.cvtac dest array).2 = .done) :
    Coherent (state.cvtac dest array).1 := by
  cases array with
  | none =>
      obtain ⟨heap, released, emptied, -⟩ := drop_spec coherent dest
      unfold cvtac decRefCountAndFree setSlot
      rw [released]
      exact emptied
  | some array =>
      obtain ⟨nonempty, string, made⟩ := cvtac_done done
      exact (cvtac_ok coherent dest array nonempty made).2.1

/-- The steps that build strings: string instructions, and `cvtac` of nil and of
arrays that do not make it throw. -/
inductive Building (slotCount : ℕ) where
  | perform (action : Action slotCount)
  | cvtac (dest : Fin slotCount) (array : Option VmByteArray)

def build (state : StringState slotCount) : Building slotCount → Option (StringState slotCount)
  | .perform action => some (state.perform action).1
  | .cvtac dest array =>
      match state.cvtac dest array with
      | (later, .done) => some later
      | _ => none

/-- No string has been written past its storage. -/
def InsideStorage (state : StringState slotCount) : Prop :=
  ∀ id < state.heap.limit, ∀ string ∈ state.heap.cells id, string.overrun = false

instance (state : StringState slotCount) : Decidable state.InsideStorage :=
  inferInstanceAs (Decidable (∀ id < _, ∀ _ ∈ _, _))

/-- What a program has built, and whether none of its steps has written past the
storage of a string.  Such a write changes other fields and objects, of which
this model says nothing. -/
structure Built (slotCount : ℕ) where
  state : StringState slotCount
  inside : Bool

def Built.init : Built slotCount :=
  ⟨StringState.init, true⟩

def Built.build (built : Built slotCount) (building : Building slotCount) :
    Option (Built slotCount) :=
  (built.state.build building).map fun later =>
    ⟨later, built.inside && decide later.InsideStorage⟩

def Reached : Built slotCount → Prop :=
  Transition.Reachable (· = Built.init) (Transition.StepsBy (fun _ _ => True) Built.build)

/-- A string of a slot is converted to an array of byte and back, in a program
whose writes to strings were all inside their storage. -/
def RoundTrips (built : Built slotCount) (src dest : Fin slotCount) : Prop :=
  built.inside = true ∧
    ∃ converted array, built.state.cvtca src = some (converted, array) ∧
      (converted.cvtac dest (some array)).2 = .done ∧
      ∃ string, (converted.cvtac dest (some array)).1.load dest = some string ∧
        string.overrun = false ∧ string.length = (built.state.contents src).length ∧
        string.runes = built.state.contents src

/-- The strings that survive the conversion: their text ends inside its buffer,
there is some of it and a word holds its length, no rune is NUL or a surrogate,
and the string made from it has room. -/
def Convertible (string : VmString) : Prop :=
  string.str.1.NulInside string.str.2 ∧ string.runes ≠ [] ∧
    (∀ rune ∈ string.runes, rune ≠ 0 ∧ ¬ IsSurrogate rune) ∧
    (encodeText string.runes).length < 2 ^ 31 ∧ HasRoom string.runes

theorem coherent_build (coherent : Coherent state) {building : Building slotCount}
    {later : StringState slotCount} (built : state.build building = some later) :
    Coherent later := by
  cases building with
  | perform action =>
      cases built
      exact (perform_spec coherent action).coherent
  | cvtac dest array =>
      have done : (state.cvtac dest array).2 = .done ∧ (state.cvtac dest array).1 = later := by
        unfold build at built
        dsimp only at built
        split at built
        next other isOther =>
          cases built
          rw [isOther]
          exact ⟨rfl, rfl⟩
        next => cases built
      exact done.2 ▸ coherent_cvtac coherent done.1

theorem coherent_of_reached {built : Built slotCount} (reached : Reached built) :
    Coherent built.state := by
  refine Transition.Reachable.invariant (fun built => Coherent built.state) ?_ ?_ reached
  · rintro first rfl
    exact coherent_init
  · rintro before after _ coherent ⟨building, -, edge⟩
    obtain ⟨later, isLater, rfl⟩ := Option.map_eq_some_iff.mp edge
    exact coherent_build coherent isLater

/-- The text of `cvtca`, by the runes of the string. -/
theorem cvtca_spec (coherent : Coherent state) {src : Fin slotCount} {string : VmString}
    (loaded : state.load src = some string) (nonempty : string.runes ≠ [])
    (inside : string.str.1.NulInside string.str.2) :
    let bytes := encodeText (string.runes.takeWhile (· ≠ 0))
    ∃ converted, state.cvtca src = some (converted, ⟨Int.bmod bytes.length (2 ^ 32), bytes⟩) ∧
      Coherent converted ∧ converted.contents = state.contents ∧ bytes.length < 2 ^ 32 := by
  intro bytes
  have wellFormed := coherent.load_wellFormed loaded
  obtain ⟨kept, sameRunes, isText, -⟩ := str_spec wellFormed
  have matched := text_spec coherent src
  have isBytes : (string.str.1.encodedText string.str.2).takeWhile (· ≠ 0) = bytes := by
    rw [isText]
    exact takeWhile_encodeText wellFormed.supported
  have positive : 0 < string.length := by
    rw [← length_runes]
    exact List.length_pos_iff.mpr nonempty
  have short : (string.str.1.encodedText string.str.2).length < 2 ^ 32 :=
    length_encodedText kept (by rw [str_fst]) inside
  refine ⟨(state.text src).1, ?_, matched.coherent, matched.contents, ?_⟩
  · unfold cvtca text
    simp only [loaded, if_pos positive, if_pos inside, isBytes]
  · rw [← isBytes]
    exact Nat.lt_of_le_of_lt (List.takeWhile_sublist _).length_le short

theorem round_trips_iff {built : Built slotCount} (reached : Reached built)
    (src dest : Fin slotCount) :
    RoundTrips built src dest ↔
      built.inside = true ∧
        ∃ string, built.state.load src = some string ∧ Convertible string := by
  have coherent := coherent_of_reached reached
  refine and_congr_right fun _ => ?_
  generalize built.state = state at coherent
  have emptyThrows : (state.cvtac dest (some ⟨0, []⟩)).2 ≠ .done := fun done =>
    absurd (cvtac_done done).1 (Int.lt_irrefl 0)
  constructor
  · rintro ⟨converted, array, isConverted, done, back, loadedBack, room, -, sameRunes⟩
    cases loaded : state.load src with
    | none =>
        unfold cvtca at isConverted
        rw [loaded] at isConverted
        cases isConverted
        exact absurd done emptyThrows
    | some string =>
        refine ⟨string, rfl, ?_⟩
        by_cases isEmpty : string.runes = []
        · have noLength : ¬ 0 < string.length := by
            rw [← length_runes, isEmpty]
            exact Nat.lt_irrefl 0
          unfold cvtca at isConverted
          simp only [loaded, if_neg noLength] at isConverted
          cases isConverted
          exact absurd done emptyThrows
        have positive : 0 < string.length := by
          rw [← length_runes]
          exact List.length_pos_iff.mpr isEmpty
        by_cases inside : string.str.1.NulInside string.str.2
        case neg =>
          unfold cvtca at isConverted
          simp only [loaded, if_pos positive, if_neg inside] at isConverted
          cases isConverted
        obtain ⟨other, isOther, otherCoherent, -, short⟩ :=
          cvtca_spec coherent loaded isEmpty inside
        rw [isOther] at isConverted
        cases isConverted
        obtain ⟨nonempty, made, isMade⟩ := cvtac_done done
        have word := ((bmod_pos_iff short).mp (by simpa only using nonempty)).2
        obtain ⟨-, -, isBack, -⟩ := cvtac_ok otherCoherent dest _ nonempty isMade
        rw [loadedBack] at isBack
        cases isBack
        rw [bmod_word word] at isMade
        dsimp only at isMade
        rw [Int.toNat_natCast, List.take_length] at isMade
        have supported : ∀ rune ∈ string.runes.takeWhile (· ≠ 0), rune ≤ maxSupportedCodepoint :=
          fun rune member => (coherent.load_wellFormed loaded).supported rune
            ((List.takeWhile_sublist _).subset member)
        have noSurrogate : ∀ rune ∈ string.runes.takeWhile (· ≠ 0), ¬ IsSurrogate rune := by
          intro rune member surrogate
          rw [ofUtf8_surrogate surrogate member supported] at isMade
          cases isMade
        obtain ⟨text, isText, textRunes, hasRoom⟩ := ofUtf8_encodeText
          (fun rune member => ⟨supported rune member, noSurrogate rune member⟩)
          (fun rune member => by
            have plain := List.mem_takeWhile_imp member
            exact of_decide_eq_true plain) word
        rw [isMade] at isText
        cases isText
        have whole : string.runes.takeWhile (· ≠ 0) = string.runes := by
          rw [← textRunes, sameRunes, contents_load loaded]
        rw [whole] at noSurrogate word hasRoom
        exact ⟨inside, isEmpty, fun rune member =>
          ⟨of_decide_eq_true (List.takeWhile_eq_self_iff.mp whole rune member),
            noSurrogate rune member⟩, word, hasRoom.mp room⟩
  · rintro ⟨string, loaded, inside, nonempty, plain, word, room⟩
    have supported := (coherent.load_wellFormed loaded).supported
    have whole : string.runes.takeWhile (· ≠ 0) = string.runes :=
      List.takeWhile_eq_self_iff.mpr fun rune member => decide_eq_true (plain rune member).1
    obtain ⟨converted, isConverted, isCoherent, sameContents, short⟩ :=
      cvtca_spec coherent loaded nonempty inside
    rw [whole] at isConverted short
    obtain ⟨text, isText, textRunes, hasRoom⟩ := ofUtf8_encodeText
      (fun rune member => ⟨supported rune member, (plain rune member).2⟩)
      (fun rune member => (plain rune member).1) word
    rw [bmod_word word] at isConverted
    let array : VmByteArray := ⟨(encodeText string.runes).length, encodeText string.runes⟩
    have positive : 0 < array.length :=
      Int.natCast_pos.mpr (Nat.lt_of_lt_of_le (List.length_pos_iff.mpr nonempty)
        (length_le_encodeText supported))
    have isMade : VmString.ofUtf8 (array.bytes.take array.length.toNat) = .ok text := by
      dsimp only [array]
      rw [Int.toNat_natCast, List.take_length]
      exact isText
    obtain ⟨done, -, loadedBack, -⟩ := cvtac_ok isCoherent dest array positive isMade
    refine ⟨converted, array, isConverted, done, text, loadedBack, hasRoom.mpr room, ?_, ?_⟩
    · rw [contents_load loaded, ← textRunes, length_runes]
    · rw [contents_load loaded, textRunes]

def firstSlot : Fin 2 :=
  ⟨0, by decide⟩

def secondSlot : Fin 2 :=
  ⟨1, Nat.one_lt_two⟩

/-- A program of string instructions alone. -/
def performed (actions : List (Action slotCount)) : Built slotCount :=
  actions.foldl (fun built action =>
    ⟨(built.state.perform action).1,
      built.inside && decide (built.state.perform action).1.InsideStorage⟩) Built.init

theorem reached_performed (actions : List (Action slotCount)) : Reached (performed actions) := by
  have grows : ∀ built : Built slotCount, Reached built →
      Reached (actions.foldl (fun built action =>
        ⟨(built.state.perform action).1,
          built.inside && decide (built.state.perform action).1.InsideStorage⟩) built) := by
    induction actions with
    | nil => exact fun built reached => reached
    | cons action actions ih =>
        exact fun built reached =>
          ih _ (Transition.Reachable.next reached ⟨.perform action, trivial, rfl⟩)
  exact grows Built.init (Transition.Reachable.start rfl)

/-- The instructions that write runes at the end of a string. -/
def spelling (runes : List ℕ) : List (Action 2) :=
  runes.mapIdx fun index rune => .insc firstSlot rune index

/-- Two runes, of which a slice and a concatenation make a third one. -/
def someActions : List (Action 2) :=
  (spelling [0x61, 0xe9]).append
    [.movp secondSlot firstSlot, .slicec secondSlot 1 2, .addc secondSlot firstSlot firstSlot]

theorem round_trips_two_runes : RoundTrips (performed someActions) 0 1 := by
  let string := ((performed someActions).state.load 0).get (by decide +kernel)
  have loaded : (performed someActions).state.load 0 = some string := (Option.some_get _).symm
  have inside : string.str.1.NulInside string.str.2 := by decide +kernel
  have plain : string.runes = [0x61, 0xe9, 0xe9] := by decide +kernel
  refine (round_trips_iff (reached_performed _) 0 1).mpr
    ⟨by decide +kernel, string, loaded, inside, ?_⟩
  rw [plain]
  decide +kernel

/-- A NUL ends the text of a string before its end. -/
theorem nul_not_round_trips :
    Reached (performed (spelling [0x61, 0, 0x62])) ∧
      ¬ RoundTrips (performed (spelling [0x61, 0, 0x62])) 0 1 := by
  refine ⟨reached_performed _, ?_⟩
  rintro ⟨-, converted, array, isConverted, -, back, loadedBack, -, length, -⟩
  have shorter : ∀ pair ∈ (performed (spelling [0x61, 0, 0x62])).state.cvtca 0,
      ∀ string ∈ (pair.1.cvtac 1 (some pair.2)).1.load 1,
        string.length ≠ ((performed (spelling [0x61, 0, 0x62])).state.contents 0).length := by
    decide +kernel
  exact shorter (converted, array) isConverted back loadedBack length

/-- The slice of a string in its local buffer takes a 17th rune past the buffer. -/
example :
    (performed (spelling (List.replicate 15 0x61) ++
      [.slicec firstSlot 0 15, .insc firstSlot 0x61 15, .insc firstSlot 0x61 16])).inside =
        false := by
  decide +kernel

end StringState

end Disvm.Strings
