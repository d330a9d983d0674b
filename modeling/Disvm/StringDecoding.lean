import Disvm.StringRoundTrip
import Disvm.Utf8Prefixes

/-!
# Decoding bytes

`count_codepoints` gives the bytes up to the end of the last codepoint, but one
byte when there is none.  The constructor of strings compares this number with
the number of its bytes; the loop that copies the codepoints stays at the first
NUL.
-/

namespace Disvm.Strings

open Utf8

/-- `count_codepoints` of a pointer, with the bytes that follow it. -/
def countCodepointsAt (str : Option (List UInt8)) (maxLen : ℕ) : ℕ × ℕ :=
  match str with
  | none => (0, 0)
  | some bytes =>
      let (points, last) := countLoop (bytes.take maxLen) 0 accept 0 0 0
      (points, last + 1)

/-- `Sys_utfbytes` of the elements of an array. -/
def utfbytes (buf : Option (List UInt8)) (n : ℕ) : Except VmException ℤ :=
  match buf with
  | none => .error .outOfRangeMemory
  | some buffer =>
      if buffer.length < n then .error .outOfRangeMemory
      else if buffer.length ≤ 0 then .error (.indexOutOfRangeMemory 0 (buffer.length - 1) 0)
      else .ok (Int.bmod (countCodepointsAt (some buffer) n).2 (2 ^ 32))

/-- The codepoints and the bytes of the longest prefix that is UTF-8. -/
def CountsExactly (buffer : List UInt8) (n : ℕ) : Prop :=
  ∃ runes, LongestText (buffer.take n) runes ∧
    countCodepointsAt (some buffer) n = (runes.length, (encodeText runes).length)

def UtfbytesExactly (buffer : List UInt8) (n : ℕ) : Prop :=
  ∃ runes, LongestText (buffer.take n) runes ∧
    utfbytes (some buffer) n = .ok (encodeText runes).length

/-- UTF-8 makes the string of its runes, without writing past the storage, and other
bytes make none. -/
structure ConstructsExactly (text : List UInt8) : Prop where
  constructs : ∀ runes, (∀ rune ∈ runes, IsScalar rune) → text = encodeText runes →
    ∃ string, VmString.ofUtf8 text = .ok string ∧ string.runes = runes ∧ string.overrun = false
  refuses : (¬ ∃ runes, (∀ rune ∈ runes, IsScalar rune) ∧ text = encodeText runes) →
    VmString.ofUtf8 text = .error .invalidUtf8

def BeginsWithCodepoint (text : List UInt8) : Prop :=
  ∃ rune, IsScalar rune ∧ encode rune <+: text

/-- Only NULs follow a NUL. -/
def NulsLast (runes : List ℕ) : Prop :=
  ∀ rune ∈ runes.dropWhile (· ≠ 0), rune = 0

/-- UTF-8 that is not ASCII has room in the storage and NULs at its end only. -/
def CopiesExactly (text : List UInt8) : Prop :=
  ∀ runes, (∀ rune ∈ runes, IsScalar rune) → text = encodeText runes →
    HasRoom runes ∧ ((encodeText runes).length = runes.length ∨ NulsLast runes)

/-- `count_codepoints` as the constructor calls it. -/
theorem countCodepoints_eq (bytes : List UInt8) :
    countCodepoints bytes =
      countCodepointsAt (if bytes = [] then none else some bytes) bytes.length := by
  cases bytes with
  | nil => rfl
  | cons byte rest =>
      rw [if_neg (List.cons_ne_nil _ _)]
      unfold countCodepointsAt
      simp only [List.take_length]
      rfl

section Counting

variable {buffer text : List UInt8} {n : ℕ} {runes : List ℕ}

theorem begins_of_longest (longest : LongestText text runes) (nonempty : runes ≠ []) :
    BeginsWithCodepoint text := by
  cases runes with
  | nil => exact absurd rfl nonempty
  | cons rune runes =>
      refine ⟨rune, longest.scalars rune List.mem_cons_self, ?_⟩
      have isPrefix := longest.isPrefix
      rw [encodeText_cons] at isPrefix
      exact (List.prefix_append _ _).trans isPrefix

theorem length_pos_of_begins (longest : LongestText text runes)
    (begins : BeginsWithCodepoint text) : 0 < (encodeText runes).length := by
  obtain ⟨rune, scalar, isPrefix⟩ := begins
  have atLeast := longest.longest [rune] (by simpa using scalar) (by
    rw [encodeText_cons]
    exact (List.append_nil (encode rune)).symm ▸ isPrefix)
  rw [encodeText_cons, List.length_append] at atLeast
  have taken := List.length_pos_iff.mpr (encode_ne_nil scalar.1)
  omega

/-- The bytes counted are those of the longest text, or one. -/
theorem countCodepointsAt_eq (buffer : List UInt8) (n : ℕ) :
    ∃ runes, LongestText (buffer.take n) runes ∧
      countCodepointsAt (some buffer) n = (runes.length, (encodeText runes).length - 1 + 1) := by
  obtain ⟨runes, longest, counted⟩ := exists_longestText (buffer.take n)
  refine ⟨runes, longest, ?_⟩
  unfold countCodepointsAt
  simp only [counted]

theorem countsExactly_iff (buffer : List UInt8) (n : ℕ) :
    CountsExactly buffer n ↔ BeginsWithCodepoint (buffer.take n) := by
  obtain ⟨runes, longest, counted⟩ := countCodepointsAt_eq buffer n
  constructor
  · rintro ⟨other, otherLongest, exactly⟩
    apply begins_of_longest otherLongest
    rintro rfl
    rw [counted] at exactly
    exact absurd (congrArg Prod.snd exactly) (Nat.succ_ne_zero _)
  · intro begins
    refine ⟨runes, longest, ?_⟩
    rw [counted, Nat.sub_add_cancel (length_pos_of_begins longest begins)]

theorem length_le_of_longest (longest : LongestText (buffer.take n) runes) :
    (encodeText runes).length ≤ buffer.length := by
  have isPrefix := longest.isPrefix.length_le
  rw [List.length_take] at isPrefix
  omega

theorem utfbytesExactly_iff (word : buffer.length < 2 ^ 31) (inside : n ≤ buffer.length) :
    UtfbytesExactly buffer n ↔ BeginsWithCodepoint (buffer.take n) := by
  obtain ⟨runes, longest, counted⟩ := countCodepointsAt_eq buffer n
  constructor
  · rintro ⟨other, otherLongest, exactly⟩
    apply begins_of_longest otherLongest
    rintro rfl
    have isNil : runes = [] := by
      by_contra nonempty
      have pos := length_pos_of_begins otherLongest (begins_of_longest longest nonempty)
      exact absurd pos (by decide)
    subst isNil
    unfold utfbytes at exactly
    dsimp only at exactly
    rw [counted] at exactly
    split_ifs at exactly
    exact absurd (Except.ok.inj exactly) (by decide)
  · intro begins
    have pos := length_pos_of_begins longest begins
    have short := length_le_of_longest longest
    refine ⟨runes, longest, ?_⟩
    unfold utfbytes
    dsimp only
    rw [counted, if_neg (by omega), if_neg (by omega), Nat.sub_add_cancel pos, bmod_word (by omega)]

end Counting

section Constructor

variable {text : List UInt8} {runes : List ℕ}

theorem decodeRunes_nul (count : ℕ) (rest : List UInt8) :
    VmString.decodeRunes count (0 :: rest) = some (List.replicate count 0) := by
  induction count with
  | zero => rfl
  | succ count ih =>
      have first : decode (0 :: rest) = some (0, 0) := rfl
      simp only [VmString.decodeRunes, first, Option.bind_some, List.drop_zero, ih, Option.map_some]
      rfl

/-- The runes up to the first NUL are read back, all that follow as NULs. -/
theorem decodeRunes_text (scalars : ∀ rune ∈ runes, IsScalar rune) :
    VmString.decodeRunes runes.length (encodeText runes) =
      some (runes.takeWhile (· ≠ 0) ++
        List.replicate (runes.dropWhile (· ≠ 0)).length 0) := by
  induction runes with
  | nil => rfl
  | cons rune runes ih =>
      by_cases isNul : rune = 0
      · subst isNul
        have isNul : encode 0 = [0] := rfl
        rw [encodeText_cons, isNul, List.cons_append, decodeRunes_nul]
        simp
      · have first := decode_encode (scalars rune List.mem_cons_self) isNul (encodeText runes)
        have rest := ih fun other member => scalars other (List.mem_cons_of_mem _ member)
        rw [encodeText_cons, List.length_cons]
        simp only [VmString.decodeRunes, first, Option.bind_some, List.drop_left, rest,
          Option.map_some]
        simp [isNul]

theorem copied_eq_iff (runes : List ℕ) :
    runes.takeWhile (· ≠ 0) ++ List.replicate (runes.dropWhile (· ≠ 0)).length 0 = runes ↔
      NulsLast runes := by
  have parts :=
    List.takeWhile_append_dropWhile (p := fun rune : ℕ => decide (rune ≠ 0)) (l := runes)
  unfold NulsLast
  constructor
  · intro same rune member
    have isRest := List.append_cancel_left (same.trans parts.symm)
    rw [← isRest] at member
    exact (List.mem_replicate.mp member).2
  · intro nulsLast
    rw [← List.eq_replicate_iff.mpr ⟨rfl, nulsLast⟩]
    exact parts

/-- The characters that are copied from UTF-8 are its runes when it is ASCII or has
NULs at its end only. -/
theorem exists_copiedText (scalars : ∀ rune ∈ runes, IsScalar rune) :
    ∃ copied, copiedText (encodeText runes) = some copied ∧
      (copied = runes ↔ (encodeText runes).length = runes.length ∨ NulsLast runes) := by
  have counted := countCodepoints_encodeText scalars
  unfold copiedText
  rcases textCells_cases (encodeText runes) with ⟨isChar, single⟩ | ⟨isRune, multi⟩
  · rw [counted] at single
    have ascii := ascii_of_length (fun rune member => (scalars rune member).1) single
    rw [if_pos isChar]
    refine ⟨_, rfl, iff_of_true ?_ (Or.inl single)⟩
    rw [encodeText_ascii ascii, List.map_map]
    refine (List.map_congr_left fun rune member => ?_).trans (List.map_id runes)
    exact UInt8.toNat_ofNat_of_lt' (Nat.lt_of_le_of_lt (ascii rune member) (by decide))
  · rw [counted] at multi
    rw [if_neg (by rw [isRune]; decide), counted]
    refine ⟨_, decodeRunes_text scalars, (copied_eq_iff runes).trans ?_⟩
    exact ⟨Or.inr, fun either => either.resolve_left multi⟩

theorem encodeText_injective {other : List ℕ} (scalars : ∀ rune ∈ runes, IsScalar rune)
    (otherScalars : ∀ rune ∈ other, IsScalar rune) (same : encodeText runes = encodeText other) :
    runes = other := by
  have stuck : ∀ rune, IsScalar rune → ¬ encode rune <+: [] := fun rune scalar isPrefix =>
    encode_ne_nil scalar.1 (List.prefix_nil.mp isPrefix)
  have first : runes <+: other := by
    apply text_isPrefix otherScalars stuck scalars
    rw [List.append_nil, same]
  have second : other <+: runes := by
    apply text_isPrefix scalars stuck otherScalars
    rw [List.append_nil, same]
  exact first.eq_of_length (Nat.le_antisymm first.length_le second.length_le)

/-- Bytes that are no UTF-8 are refused, but for a single one. -/
theorem refuses_iff
    (notText : ¬ ∃ runes, (∀ rune ∈ runes, IsScalar rune) ∧ text = encodeText runes) :
    VmString.ofUtf8 text = .error .invalidUtf8 ↔
      (text.length = 1 → BeginsWithCodepoint text) := by
  obtain ⟨runes, longest, counted⟩ := exists_longestText text
  have nonempty : text ≠ [] := by
    rintro rfl
    exact notText ⟨[], by simp, rfl⟩
  have shorter : (encodeText runes).length < text.length := by
    refine Nat.lt_of_le_of_ne longest.isPrefix.length_le fun same =>
      notText ⟨runes, longest.scalars, ?_⟩
    exact (longest.isPrefix.eq_of_length same).symm
  have isCount := countCodepoints_of_ne_nil nonempty
  rw [counted] at isCount
  rw [ofUtf8_eq]
  by_cases begins : BeginsWithCodepoint text
  · have pos := length_pos_of_begins longest begins
    refine iff_of_true (if_pos ?_) fun _ => begins
    rw [isCount]
    dsimp only
    omega
  · have isNil : runes = [] := by
      by_contra isCons
      exact begins (begins_of_longest longest isCons)
    subst isNil
    by_cases single : text.length = 1
    · refine iff_of_false (fun refused => ?_) fun implies => begins (implies single)
      have isCopied : copiedText text = some [] := by
        have isRune : textCells text = runeSize := by
          unfold textCells
          rw [isCount, single]
          exact if_pos (by decide)
        unfold copiedText
        rw [if_neg (by rw [isRune]; decide), isCount]
        rfl
      rw [if_neg (by rw [isCount, single]; decide), isCopied] at refused
      cases refused
    · refine iff_of_true (if_pos ?_) fun isSingle => absurd isSingle single
      rw [isCount]
      exact single

theorem constructsExactly_iff (word : text.length < 2 ^ 31) :
    ConstructsExactly text ↔
      (text.length = 1 → BeginsWithCodepoint text) ∧ CopiesExactly text := by
  by_cases isText : ∃ runes, (∀ rune ∈ runes, IsScalar rune) ∧ text = encodeText runes
  · obtain ⟨runes, scalars, rfl⟩ := isText
    obtain ⟨copied, isCopied, copiesRunes⟩ := exists_copiedText scalars
    obtain ⟨string, made, isString, noOverrun⟩ := ofUtf8_copied scalars isCopied word
    constructor
    · intro exactly
      obtain ⟨other, otherMade, otherRunes, otherOverrun⟩ := exactly.constructs runes scalars rfl
      cases Except.ok.inj (made.symm.trans otherMade)
      refine ⟨fun single => ?_, fun other otherScalars same => ?_⟩
      · cases runes with
        | nil => exact absurd single (by decide)
        | cons rune runes =>
            refine ⟨rune, scalars rune List.mem_cons_self, ?_⟩
            rw [encodeText_cons]
            exact List.prefix_append _ _
      · cases encodeText_injective scalars otherScalars same
        exact ⟨noOverrun.mp otherOverrun, copiesRunes.mp (isString.symm.trans otherRunes)⟩
    · rintro ⟨-, copies⟩
      obtain ⟨hasRoom, allCopied⟩ := copies runes scalars rfl
      constructor
      · intro other otherScalars same
        cases encodeText_injective scalars otherScalars same
        exact ⟨string, made, isString.trans (copiesRunes.mpr allCopied), noOverrun.mpr hasRoom⟩
      · intro notText
        exact absurd ⟨runes, scalars, rfl⟩ notText
  · have copies : CopiesExactly text := fun runes scalars same =>
      absurd ⟨runes, scalars, same⟩ isText
    rw [and_iff_left copies, ← refuses_iff isText]
    constructor
    · intro exactly
      exact exactly.refuses isText
    · intro refused
      exact ⟨fun runes scalars same => absurd ⟨runes, scalars, same⟩ isText, fun _ => refused⟩

end Constructor

/-- The first `n` bytes of an array are counted exactly when they begin with a
codepoint, and make the string that they encode unless they are a single byte that
is none, have a NUL before another rune and are not ASCII, or do not fit. -/
theorem decodes_exactly_iff (buffer : List UInt8) (n : ℕ) (word : buffer.length < 2 ^ 31)
    (inside : n ≤ buffer.length) :
    (CountsExactly buffer n ↔ BeginsWithCodepoint (buffer.take n)) ∧
      (UtfbytesExactly buffer n ↔ BeginsWithCodepoint (buffer.take n)) ∧
      (ConstructsExactly (buffer.take n) ↔
        (n = 1 → BeginsWithCodepoint (buffer.take n)) ∧ CopiesExactly (buffer.take n)) := by
  have length : (buffer.take n).length = n := List.length_take_of_le inside
  have constructs := @constructsExactly_iff (buffer.take n) (by omega)
  rw [length] at constructs
  exact ⟨countsExactly_iff buffer n, utfbytesExactly_iff word inside, constructs⟩

theorem decodes_exactly_two_bytes :
    CountsExactly [0xc3, 0xa9, 0xff] 2 ∧ UtfbytesExactly [0xc3, 0xa9, 0xff] 2 ∧
      ConstructsExactly [0xc3, 0xa9] := by
  obtain ⟨counts, bytes, constructs⟩ :=
    decodes_exactly_iff [0xc3, 0xa9, 0xff] 2 (by decide) (by decide)
  have begins : BeginsWithCodepoint [0xc3, 0xa9] := ⟨0xe9, by decide, List.prefix_refl _⟩
  refine ⟨counts.mpr begins, bytes.mpr begins, constructs.mpr ⟨fun _ => begins, ?_⟩⟩
  intro runes scalars same
  obtain rfl : [0xe9] = runes := encodeText_injective (by decide) scalars same
  exact ⟨by decide, Or.inr fun rune member => by cases member⟩

theorem not_text_ff {runes : List ℕ} (scalars : ∀ rune ∈ runes, IsScalar rune) :
    [0xff] ≠ encodeText runes := by
  intro same
  have counted := countCodepoints_encodeText scalars
  rw [← same] at counted
  have none : runes.length = 0 := (congrArg Prod.fst counted).symm
  rw [List.eq_nil_of_length_eq_zero none] at same
  cases same

/-- A byte that begins nothing is counted, and the string of it is the empty one. -/
theorem invalid_byte_accepted :
    ¬ CountsExactly [0xff] 1 ∧ ¬ UtfbytesExactly [0xff] 1 ∧ ¬ ConstructsExactly [0xff] := by
  refine ⟨?_, ?_, ?_⟩
  · rintro ⟨runes, -, counted⟩
    have none : runes.length = 0 := (congrArg Prod.fst counted).symm
    rw [List.eq_nil_of_length_eq_zero none] at counted
    exact absurd (congrArg Prod.snd counted) (by decide)
  · rintro ⟨runes, longest, counted⟩
    have single : utfbytes (some [0xff]) 1 = .ok 1 := by decide
    have length : (1 : ℤ) = (encodeText runes).length := Except.ok.inj (single.symm.trans counted)
    apply not_text_ff longest.scalars
    refine (longest.isPrefix.eq_of_length ?_).symm
    show (encodeText runes).length = 1
    omega
  · intro exactly
    have refused := exactly.refuses fun ⟨runes, scalars, same⟩ => not_text_ff scalars same
    have made : ∃ string, VmString.ofUtf8 [0xff] = .ok string := ⟨_, rfl⟩
    obtain ⟨string, isString⟩ := made
    rw [isString] at refused
    cases refused

end Disvm.Strings
