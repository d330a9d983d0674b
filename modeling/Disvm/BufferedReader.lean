import Mathlib.Data.List.Basic
import Mathlib.Data.List.TakeWhile
import Mathlib.Data.PNat.Defs

/-!
# The buffered reader

Bytes are taken from a buffer that is filled from a stream whenever it has been used up.  What
has not been read is the rest of the buffer and the rest of the stream, and every read takes
its bytes from the front of it.
-/

namespace Disvm.BufferedReader

/-- A `std::istream`: what has not been read, and whether a read has come to its end. -/
structure Stream where
  rest : List UInt8
  fail : Bool
  deriving DecidableEq, Repr

/-- `std::istream::read`, with the bytes that `gcount` counts. -/
def Stream.read (stream : Stream) (count : ℕ) : List UInt8 × Stream :=
  if count ≤ stream.rest.length then
    (stream.rest.take count, { stream with rest := stream.rest.drop count })
  else (stream.rest, ⟨[], true⟩)

/-- `buffered_reader_t`. -/
structure Reader where
  stream : Stream
  currentIndex : ℕ
  currentSize : ℕ
  buffer : List UInt8
  deriving DecidableEq, Repr

/-- A reader with a buffer of some size. -/
def Reader.start (size : ℕ+) (contents : List UInt8) : Reader :=
  ⟨⟨contents, false⟩, 0, 0, List.replicate size 0⟩

/-- `check_buffer_content`: the amount in the buffer. -/
def checkBufferContent (r : Reader) : ℕ × Reader :=
  let r :=
    if r.currentSize ≤ r.currentIndex then
      if r.stream.fail then { r with currentIndex := 0, currentSize := 0 }
      else
        let (got, stream) := r.stream.read r.buffer.length
        { stream
          currentIndex := 0
          currentSize := if stream.fail then got.length else r.buffer.length
          buffer := got ++ r.buffer.drop got.length }
    else r
  (r.currentSize - r.currentIndex, r)

/-- The valid part of the buffer that has not been read. -/
def Reader.valid (r : Reader) : List UInt8 :=
  (r.buffer.take r.currentSize).drop r.currentIndex

/-- All that has not been read. -/
def Reader.unread (r : Reader) : List UInt8 :=
  r.valid ++ r.stream.rest

def Reader.advance (r : Reader) (count : ℕ) : Reader :=
  { r with currentIndex := r.currentIndex + count }

/-- The number that is returned, the bytes that have been copied and the reader. -/
structure NextBytes where
  count : ℕ
  copied : List UInt8
  reader : Reader
  deriving DecidableEq, Repr

/-- The loop of `get_next_bytes`; every turn copies a byte at least. -/
def nextBytesLoop : (turns bytesRequested bytesRequestedAcc : ℕ) → List UInt8 → Reader → NextBytes
  | 0, _, _, copied, r => ⟨0, copied, r⟩
  | turns + 1, bytesRequested, bytesRequestedAcc, copied, r =>
      let (amountInBuffer, r) := checkBufferContent r
      let content := r.buffer.drop r.currentIndex
      if amountInBuffer = 0 then ⟨0, copied, r⟩
      else if bytesRequested ≤ amountInBuffer then
        ⟨bytesRequestedAcc + bytesRequested, copied ++ content.take bytesRequested,
          r.advance bytesRequested⟩
      else
        nextBytesLoop turns (bytesRequested - amountInBuffer) (bytesRequestedAcc + amountInBuffer)
          (copied ++ content.take amountInBuffer) (r.advance amountInBuffer)

def getNextBytes (bytesRequested : ℕ) (r : Reader) : NextBytes :=
  if bytesRequested = 0 then ⟨0, [], r⟩ else nextBytesLoop bytesRequested bytesRequested 0 [] r

/-- What has been read before the delimiter, or up to where the loop has ended without it. -/
structure Scanned where
  found : Bool
  collected : List UInt8
  reader : Reader
  deriving DecidableEq, Repr

/-- The inner loop of the two reads up to a delimiter, over what is left in the buffer. -/
def scanBuffer (isDelim : UInt8 → Bool) : (left : ℕ) → List UInt8 → Reader → Scanned
  | 0, collected, r => ⟨false, collected, r⟩
  | left + 1, collected, r =>
      let c := r.buffer.getD r.currentIndex 0
      if isDelim c then ⟨true, collected, r.advance 1⟩
      else scanBuffer isDelim left (collected ++ [c]) (r.advance 1)

/-- The outer loop; every turn reads a byte at least. -/
def untilLoop (isDelim : UInt8 → Bool) : (turns : ℕ) → List UInt8 → Reader → Scanned
  | 0, collected, r => ⟨false, collected, r⟩
  | turns + 1, collected, r =>
      let (amountInBuffer, r) := checkBufferContent r
      if amountInBuffer = 0 then ⟨false, collected, r⟩
      else
        let scanned := scanBuffer isDelim (r.currentSize - r.currentIndex) collected r
        if scanned.found then scanned
        else untilLoop isDelim turns scanned.collected scanned.reader

/-- The value of a byte in the buffer, which is a `char` with a sign. -/
def asChar (byte : UInt8) : ℤ :=
  if byte.toNat < 0x80 then byte.toNat else byte.toNat - 0x100

/-- `get_as_string_until`; the string is empty when the delimiter is not found. -/
def getAsStringUntil (delim : UInt8) (r : Reader) : List UInt8 × Reader :=
  let scanned := untilLoop (fun c => asChar c = asChar delim) (r.unread.length + 1) [] r
  (if scanned.found then scanned.collected else [], scanned.reader)

/-- `get_bytes_until`, which compares a `char` with a `uint8_t`. -/
def getBytesUntil (delim : UInt8) (r : Reader) : Scanned :=
  untilLoop (fun b => asChar b = delim.toNat) (r.unread.length + 1) [] r

/-- `get_next_byte`, nothing when it does not succeed. -/
def getNextByte (r : Reader) : Option UInt8 × Reader :=
  let (amountInBuffer, r) := checkBufferContent r
  if amountInBuffer = 0 then (none, r)
  else (some (r.buffer.getD r.currentIndex 0), r.advance 1)

inductive Call where
  | nextBytes (count : ℕ)
  | nextByte
  | bytesUntil (delim : UInt8)
  | asStringUntil (delim : UInt8)
  deriving DecidableEq, Repr

/-- The bytes that a call gives, nothing when it reports that it has not succeeded. -/
def execute (r : Reader) : Call → Option (List UInt8) × Reader
  | .nextBytes count =>
      let got := getNextBytes count r
      (if got.count = count then some got.copied else none, got.reader)
  | .nextByte =>
      let (byte, r) := getNextByte r
      (byte.map fun byte => [byte], r)
  | .bytesUntil delim =>
      let scanned := getBytesUntil delim r
      (if scanned.found then some scanned.collected else none, scanned.reader)
  | .asStringUntil delim =>
      let (string, r) := getAsStringUntil delim r
      (some string, r)

def run (r : Reader) : List Call → List (Option (List UInt8)) × Reader
  | [] => ([], r)
  | call :: calls =>
      let (value, r) := execute r call
      let (values, r) := run r calls
      (value :: values, r)

/-- What comes before the first delimiter and what comes after it. -/
def flatUntil (rest : List UInt8) (delim : UInt8) : Option (List UInt8 × List UInt8) :=
  if delim ∈ rest then some (rest.takeWhile (· ≠ delim), (rest.dropWhile (· ≠ delim)).tail)
  else none

/-- The same call on the flat sequence of bytes.  A call that runs into the end leaves
nothing. -/
def flatExecute (rest : List UInt8) : Call → Option (List UInt8) × List UInt8
  | .nextBytes count =>
      if count ≤ rest.length then (some (rest.take count), rest.drop count) else (none, [])
  | .nextByte =>
      match rest with
      | [] => (none, [])
      | byte :: rest => (some [byte], rest)
  | .bytesUntil delim =>
      match flatUntil rest delim with
      | none => (none, [])
      | some (before, after) => (some before, after)
  | .asStringUntil delim =>
      match flatUntil rest delim with
      | none => (some [], [])
      | some (before, after) => (some before, after)

def flatRun (rest : List UInt8) : List Call → List (Option (List UInt8)) × List UInt8
  | [] => ([], rest)
  | call :: calls =>
      let (value, rest) := flatExecute rest call
      let (values, rest) := flatRun rest calls
      (value :: values, rest)

/-- The index and the size lie within the buffer, and a stream that has failed is at its
end. -/
structure WellFormed (r : Reader) : Prop where
  inside : r.currentIndex ≤ r.currentSize
  size : r.currentSize ≤ r.buffer.length
  nonempty : 0 < r.buffer.length
  failed : r.stream.fail = true → r.stream.rest = []

section Buffer

variable {r : Reader}

theorem wellFormed_start (size : ℕ+) (contents : List UInt8) :
    WellFormed (Reader.start size contents) where
  inside := le_rfl
  size := Nat.zero_le _
  nonempty := by
    rw [Reader.start, List.length_replicate]
    exact size.pos
  failed failed := by cases failed

theorem unread_start (size : ℕ+) (contents : List UInt8) :
    (Reader.start size contents).unread = contents := rfl

theorem WellFormed.length_valid (wellFormed : WellFormed r) :
    r.valid.length = r.currentSize - r.currentIndex := by
  rw [Reader.valid, List.length_drop, List.length_take_of_le wellFormed.size]

/-- What the buffer holds from the index on. -/
theorem take_content {count : ℕ} (inside : count ≤ r.currentSize - r.currentIndex) :
    (r.buffer.drop r.currentIndex).take count = r.valid.take count := by
  rw [Reader.valid, List.drop_take, List.take_take, Nat.min_eq_left inside]

theorem WellFormed.advance (wellFormed : WellFormed r) (count : ℕ)
    (inside : count ≤ r.currentSize - r.currentIndex) :
    WellFormed (r.advance count) ∧ (r.advance count).unread = r.unread.drop count := by
  have indexInside := wellFormed.inside
  refine ⟨⟨?_, wellFormed.size, wellFormed.nonempty, wellFormed.failed⟩, ?_⟩
  · show r.currentIndex + count ≤ r.currentSize
    omega
  · have isShort : count ≤ r.valid.length := by rwa [wellFormed.length_valid]
    rw [Reader.unread, Reader.unread, List.drop_append_of_le_length isShort, Reader.valid,
      Reader.valid, List.drop_drop]
    rfl

/-- What a fill of the buffer does. -/
theorem checkBufferContent_spec (wellFormed : WellFormed r) :
    WellFormed (checkBufferContent r).2 ∧ (checkBufferContent r).2.unread = r.unread ∧
      (checkBufferContent r).1 = (checkBufferContent r).2.valid.length ∧
      ((checkBufferContent r).1 = 0 → r.unread = []) := by
  unfold checkBufferContent
  by_cases used : r.currentSize ≤ r.currentIndex
  · have isUnread : r.unread = r.stream.rest := by
      have isNil : r.valid = [] := by
        rw [← List.length_eq_zero_iff, wellFormed.length_valid]
        omega
      rw [Reader.unread, isNil, List.nil_append]
    rw [if_pos used, isUnread]
    by_cases failed : r.stream.fail = true
    · rw [if_pos failed]
      exact ⟨⟨le_rfl, Nat.zero_le _, wellFormed.nonempty, wellFormed.failed⟩, rfl, rfl,
        fun _ => wellFormed.failed failed⟩
    · rw [if_neg failed]
      unfold Stream.read
      by_cases full : r.buffer.length ≤ r.stream.rest.length
      · have isLength := List.length_take_of_le full
        rw [if_pos full]
        dsimp only
        rw [if_neg failed, isLength, List.drop_length, List.append_nil]
        have isValid : Reader.valid ⟨{ r.stream with rest := r.stream.rest.drop r.buffer.length },
            0, r.buffer.length, r.stream.rest.take r.buffer.length⟩ =
            r.stream.rest.take r.buffer.length := by
          rw [Reader.valid, List.drop_zero, List.take_of_length_le (Nat.le_of_eq isLength)]
        refine ⟨⟨Nat.zero_le _, Nat.le_of_eq isLength.symm, ?_, fun isFail => absurd isFail failed⟩,
          ?_, ?_, ?_⟩
        · show 0 < (r.stream.rest.take r.buffer.length).length
          rw [isLength]
          exact wellFormed.nonempty
        · rw [Reader.unread, isValid, List.take_append_drop]
        · rw [isValid, isLength]
          rfl
        · intro none
          exact absurd none (Nat.ne_of_gt wellFormed.nonempty)
      · rw [if_neg full]
        dsimp only
        rw [if_pos rfl]
        have isValid : Reader.valid ⟨⟨[], true⟩, 0, r.stream.rest.length,
            r.stream.rest ++ r.buffer.drop r.stream.rest.length⟩ = r.stream.rest := by
          rw [Reader.valid, List.drop_zero, List.take_left]
        have isLength : (r.stream.rest ++ r.buffer.drop r.stream.rest.length).length =
            r.buffer.length := by
          rw [List.length_append, List.length_drop]
          omega
        refine ⟨⟨Nat.zero_le _, ?_, ?_, fun _ => rfl⟩, ?_, ?_, ?_⟩
        · show r.stream.rest.length ≤ (r.stream.rest ++ r.buffer.drop r.stream.rest.length).length
          rw [isLength]
          omega
        · show 0 < (r.stream.rest ++ r.buffer.drop r.stream.rest.length).length
          rw [isLength]
          exact wellFormed.nonempty
        · rw [Reader.unread, isValid, List.append_nil]
        · rw [isValid]
          rfl
        · exact List.length_eq_zero_iff.mp
  · rw [if_neg used]
    refine ⟨wellFormed, rfl, wellFormed.length_valid.symm, fun none => ?_⟩
    exact absurd (Nat.sub_eq_zero_iff_le.mp none) used

/-- The buffer is empty after a fill when nothing is left. -/
theorem checkBufferContent_eq_zero_iff (wellFormed : WellFormed r) :
    (checkBufferContent r).1 = 0 ↔ r.unread = [] := by
  obtain ⟨-, same, isAmount, none⟩ := checkBufferContent_spec wellFormed
  refine ⟨none, fun isNil => ?_⟩
  rw [← same, Reader.unread, List.append_eq_nil_iff] at isNil
  rw [isAmount, isNil.1]
  rfl

/-- The next byte of the buffer. -/
theorem WellFormed.unread_cons (wellFormed : WellFormed r)
    (inside : r.currentIndex < r.currentSize) :
    r.unread = r.buffer.getD r.currentIndex 0 :: (r.advance 1).unread := by
  have within : r.currentIndex < r.buffer.length := Nat.lt_of_lt_of_le inside wellFormed.size
  have isShort : r.currentIndex < (r.buffer.take r.currentSize).length := by
    rwa [List.length_take_of_le wellFormed.size]
  rw [Reader.unread, Reader.valid, List.drop_eq_getElem_cons isShort, List.getElem_take,
    List.getD_eq_getElem?_getD, List.getElem?_eq_getElem within]
  rfl

end Buffer

section Reads

variable {r : Reader}

/-- Bytes that are there are copied, and otherwise all that are left. -/
theorem nextBytesLoop_spec (turns bytesRequested acc : ℕ) (copied : List UInt8)
    (wellFormed : WellFormed r) (positive : 0 < bytesRequested)
    (enough : bytesRequested ≤ turns) :
    let got := nextBytesLoop turns bytesRequested acc copied r
    WellFormed got.reader ∧
      (bytesRequested ≤ r.unread.length → got.count = acc + bytesRequested ∧
        got.copied = copied ++ r.unread.take bytesRequested ∧
        got.reader.unread = r.unread.drop bytesRequested) ∧
      (r.unread.length < bytesRequested → got.count = 0 ∧ got.reader.unread = []) := by
  induction turns generalizing bytesRequested acc copied r with
  | zero => omega
  | succ turns ih =>
      obtain ⟨filled, same, isAmount, none⟩ := checkBufferContent_spec wellFormed
      obtain ⟨amount, r', isFilled⟩ : ∃ amount r', checkBufferContent r = (amount, r') :=
        ⟨_, _, rfl⟩
      rw [isFilled] at filled same isAmount none
      dsimp only at filled same isAmount none
      have isValid := filled.length_valid
      intro got
      have isGot : got = nextBytesLoop (turns + 1) bytesRequested acc copied r := rfl
      rw [nextBytesLoop, isFilled] at isGot
      dsimp only at isGot
      rw [← same]
      by_cases isZero : amount = 0
      · rw [if_pos isZero] at isGot
        have isNil := none isZero
        rw [isGot]
        refine ⟨filled, fun fits => ?_, fun _ => ⟨rfl, same.trans isNil⟩⟩
        rw [same, isNil] at fits
        exact absurd fits (Nat.not_le.mpr positive)
      rw [if_neg isZero] at isGot
      by_cases within : bytesRequested ≤ amount
      · rw [if_pos within, take_content (by omega)] at isGot
        obtain ⟨advanced, isRest⟩ := filled.advance bytesRequested (by omega)
        have isShort : bytesRequested ≤ r'.valid.length := by omega
        rw [isGot]
        refine ⟨advanced, fun _ => ⟨rfl, ?_, isRest⟩, fun short => ?_⟩
        · dsimp only
          rw [Reader.unread, List.take_append_of_le_length isShort]
        · rw [Reader.unread, List.length_append] at short
          omega
      · rw [if_neg within, take_content (by omega)] at isGot
        obtain ⟨advanced, isRest⟩ := filled.advance amount (by omega)
        obtain ⟨later, fits, short⟩ := ih (bytesRequested - amount) (acc + amount)
          (copied ++ r'.valid.take amount) advanced (by omega) (by omega)
        rw [← isGot] at later fits short
        rw [isRest, List.length_drop] at fits short
        refine ⟨later, fun isThere => ?_, fun isShort => short (by omega)⟩
        obtain ⟨isCount, isCopied, isUnread⟩ := fits (by omega)
        refine ⟨by omega, ?_, ?_⟩
        · have isTaken : r'.valid.take amount = r'.unread.take amount := by
            rw [Reader.unread, List.take_append_of_le_length (by omega)]
          have isSplit : bytesRequested = amount + (bytesRequested - amount) := by omega
          rw [isCopied, isTaken, List.append_assoc, ← List.take_add, ← isSplit]
        · rw [isUnread, List.drop_drop]
          congr 1
          omega

theorem getNextBytes_spec (bytesRequested : ℕ) (wellFormed : WellFormed r) :
    let got := getNextBytes bytesRequested r
    WellFormed got.reader ∧
      (bytesRequested ≤ r.unread.length → got.count = bytesRequested ∧
        got.copied = r.unread.take bytesRequested ∧
        got.reader.unread = r.unread.drop bytesRequested) ∧
      (got.count < bytesRequested ↔ r.unread.length < bytesRequested) ∧
      (r.unread.length < bytesRequested → got.reader.unread = []) := by
  unfold getNextBytes
  by_cases isZero : bytesRequested = 0
  · subst isZero
    rw [if_pos rfl]
    exact ⟨wellFormed, fun _ => ⟨rfl, rfl, rfl⟩, iff_of_false (lt_irrefl 0) (Nat.not_lt_zero _),
      fun fewer => absurd fewer (Nat.not_lt_zero _)⟩
  · obtain ⟨later, fits, short⟩ := nextBytesLoop_spec bytesRequested bytesRequested 0 []
      wellFormed (Nat.pos_of_ne_zero isZero) le_rfl
    rw [if_neg isZero]
    refine ⟨later, fun isThere => ?_, ?_, fun isShort => (short isShort).2⟩
    · obtain ⟨isCount, isCopied, isUnread⟩ := fits isThere
      exact ⟨by rw [isCount, Nat.zero_add], isCopied, isUnread⟩
    · constructor
      · intro fewer
        by_contra isThere
        have isCount := (fits (by omega)).1
        omega
      · intro isShort
        rw [(short isShort).1]
        exact Nat.pos_of_ne_zero isZero

/-- A scan has collected what comes before the first delimiter, or all that there was up to a
point. -/
structure ScannedFrom (isDelim : UInt8 → Bool) (collected unread : List UInt8)
    (scanned : Scanned) : Prop where
  wellFormed : WellFormed scanned.reader
  found : scanned.found = true → ∃ before delim, unread = before ++ delim :: scanned.reader.unread ∧
    isDelim delim = true ∧ (∀ c ∈ before, isDelim c = false) ∧
    scanned.collected = collected ++ before
  missing : scanned.found = false → ∃ before, unread = before ++ scanned.reader.unread ∧
    (∀ c ∈ before, isDelim c = false) ∧ scanned.collected = collected ++ before

theorem scanBuffer_spec (isDelim : UInt8 → Bool) (left : ℕ) (collected : List UInt8)
    (wellFormed : WellFormed r) (inside : left ≤ r.currentSize - r.currentIndex) :
    ScannedFrom isDelim collected r.unread (scanBuffer isDelim left collected r) ∧
      ((scanBuffer isDelim left collected r).found = false →
        (scanBuffer isDelim left collected r).reader.unread = r.unread.drop left) := by
  induction left generalizing collected r with
  | zero =>
      refine ⟨⟨wellFormed, fun found => (by cases found), fun _ => ⟨[], rfl, ?_, ?_⟩⟩, fun _ => rfl⟩
      · exact fun c member => nomatch member
      · exact (List.append_nil _).symm
  | succ left ih =>
      have isCons := wellFormed.unread_cons (by omega)
      obtain ⟨advanced, -⟩ := wellFormed.advance 1 (by omega)
      obtain ⟨c, isChar⟩ : ∃ c, r.buffer.getD r.currentIndex 0 = c := ⟨_, rfl⟩
      rw [isChar] at isCons
      rw [scanBuffer, isChar, isCons]
      cases isHere : isDelim c with
      | true =>
          rw [if_pos rfl]
          refine ⟨⟨advanced, fun _ => ⟨[], c, rfl, isHere, ?_, (List.append_nil _).symm⟩,
            fun missing => (by cases missing)⟩, fun missing => (by cases missing)⟩
          exact fun c member => nomatch member
      | false =>
          rw [if_neg Bool.false_ne_true]
          obtain ⟨⟨later, found, missing⟩, isRest⟩ := ih (collected ++ [c]) advanced (by
            show left ≤ r.currentSize - (r.currentIndex + 1)
            omega)
          refine ⟨⟨later, fun isFound => ?_, fun isMissing => ?_⟩, isRest⟩
          · obtain ⟨before, delim, isUnread, isDelimiter, others, isCollected⟩ := found isFound
            refine ⟨c :: before, delim, congrArg _ isUnread, isDelimiter, ?_, ?_⟩
            · exact List.forall_mem_cons.mpr ⟨isHere, others⟩
            · rw [isCollected, List.append_assoc]
              rfl
          · obtain ⟨before, isUnread, others, isCollected⟩ := missing isMissing
            refine ⟨c :: before, congrArg _ isUnread, ?_, ?_⟩
            · exact List.forall_mem_cons.mpr ⟨isHere, others⟩
            · rw [isCollected, List.append_assoc]
              rfl

/-- Nothing is left when the delimiter has not been found. -/
theorem untilLoop_spec (isDelim : UInt8 → Bool) (turns : ℕ) (collected : List UInt8)
    (wellFormed : WellFormed r) (enough : r.unread.length < turns) :
    ScannedFrom isDelim collected r.unread (untilLoop isDelim turns collected r) ∧
      ((untilLoop isDelim turns collected r).found = false →
        (untilLoop isDelim turns collected r).reader.unread = []) := by
  induction turns generalizing collected r with
  | zero => exact absurd enough (Nat.not_lt_zero _)
  | succ turns ih =>
      obtain ⟨filled, same, isAmount, none⟩ := checkBufferContent_spec wellFormed
      obtain ⟨amount, r', isFilled⟩ : ∃ amount r', checkBufferContent r = (amount, r') :=
        ⟨_, _, rfl⟩
      rw [isFilled] at filled same isAmount none
      dsimp only at filled same isAmount none
      rw [untilLoop, isFilled]
      dsimp only
      rw [← same]
      by_cases isZero : amount = 0
      · have isNil := none isZero
        rw [if_pos isZero]
        refine ⟨⟨filled, fun found => (by cases found), fun _ => ⟨[], rfl, ?_, ?_⟩⟩, fun _ => ?_⟩
        · exact fun c member => nomatch member
        · exact (List.append_nil _).symm
        · exact same.trans isNil
      · rw [if_neg isZero]
        have isValid := filled.length_valid
        obtain ⟨scan, isRest⟩ := scanBuffer_spec isDelim (r'.currentSize - r'.currentIndex)
          collected filled le_rfl
        obtain ⟨scanned, isScanned⟩ : ∃ scanned, scanBuffer isDelim
          (r'.currentSize - r'.currentIndex) collected r' = scanned := ⟨_, rfl⟩
        rw [isScanned] at scan isRest ⊢
        cases isFound : scanned.found with
        | true =>
            rw [if_pos rfl]
            exact ⟨scan, fun missing => absurd (isFound.symm.trans missing) Bool.true_eq_false.mp⟩
        | false =>
            rw [if_neg Bool.false_ne_true]
            obtain ⟨before, isUnread, others, isCollected⟩ := scan.missing isFound
            have fewer := congrArg List.length (isRest isFound)
            have isLong : r'.currentSize - r'.currentIndex ≤ r.unread.length := by
              rw [← same, Reader.unread, List.length_append, isValid]
              exact Nat.le_add_right _ _
            rw [List.length_drop, same] at fewer
            obtain ⟨⟨later, found, missing⟩, isEnd⟩ := ih scanned.collected scan.wellFormed
              (by omega)
            refine ⟨⟨later, fun isLater => ?_, fun isMissing => ?_⟩, isEnd⟩
            · obtain ⟨between, delim, isLaterUnread, isDelimiter, laterOthers, isLaterCollected⟩ :=
                found isLater
              refine ⟨before ++ between, delim, ?_, isDelimiter, ?_, ?_⟩
              · rw [isUnread, isLaterUnread, List.append_assoc]
              · exact List.forall_mem_append.mpr ⟨others, laterOthers⟩
              · rw [isLaterCollected, isCollected, List.append_assoc]
            · obtain ⟨between, isLaterUnread, laterOthers, isLaterCollected⟩ := missing isMissing
              refine ⟨before ++ between, ?_, ?_, ?_⟩
              · rw [isUnread, isLaterUnread, List.append_assoc]
              · exact List.forall_mem_append.mpr ⟨others, laterOthers⟩
              · rw [isLaterCollected, isCollected, List.append_assoc]

end Reads

section Calls

variable {r : Reader}

theorem asChar_inj {byte other : UInt8} (same : asChar byte = asChar other) : byte = other := by
  have isByte := byte.toNat_lt
  have isOther := other.toNat_lt
  unfold asChar at same
  apply UInt8.toNat.inj
  split_ifs at same <;> omega

theorem eq_of_asChar {byte delim : UInt8} (same : asChar byte = delim.toNat) : byte = delim := by
  have isByte := byte.toNat_lt
  unfold asChar at same
  apply UInt8.toNat.inj
  split_ifs at same <;> omega

theorem flatUntil_append {before : List UInt8} {delim : UInt8} (after : List UInt8)
    (isFirst : delim ∉ before) :
    flatUntil (before ++ delim :: after) delim = some (before, after) := by
  have others : ∀ c ∈ before, decide (c ≠ delim) = true := by
    intro c member
    apply decide_eq_true
    rintro rfl
    exact isFirst member
  have isTaken : (before ++ delim :: after).takeWhile (· ≠ delim) = before := by
    rw [List.takeWhile_append_of_pos others, List.takeWhile_cons_of_neg (by simp),
      List.append_nil]
  have isDropped : (before ++ delim :: after).dropWhile (· ≠ delim) = delim :: after := by
    rw [List.dropWhile_append_of_pos others, List.dropWhile_cons_of_neg (by simp)]
  calc
    flatUntil (before ++ delim :: after) delim =
        some ((before ++ delim :: after).takeWhile (· ≠ delim),
          ((before ++ delim :: after).dropWhile (· ≠ delim)).tail) := if_pos (by simp)
    _ = some (before, (delim :: after).tail) := by rw [isTaken, isDropped]
    _ = some (before, after) := by rw [List.tail_cons]

theorem flatUntil_of_notMem {rest : List UInt8} {delim : UInt8} (notThere : delim ∉ rest) :
    flatUntil rest delim = none := if_neg notThere

/-- A scan finds the first delimiter, and reads all there is when there is none. -/
theorem untilLoop_flat {isDelim : UInt8 → Bool} {delim : UInt8} (wellFormed : WellFormed r)
    (same : ∀ c, isDelim c = true ↔ c = delim) :
    let scanned := untilLoop isDelim (r.unread.length + 1) [] r
    flatUntil r.unread delim =
        (if scanned.found then some (scanned.collected, scanned.reader.unread) else none) ∧
      (scanned.found = false → scanned.reader.unread = []) := by
  obtain ⟨scan, isEnd⟩ := untilLoop_spec isDelim (r.unread.length + 1) [] wellFormed
    (Nat.lt_succ_self _)
  intro scanned
  refine ⟨?_, isEnd⟩
  have absent : ∀ {before : List UInt8}, (∀ c ∈ before, isDelim c = false) → delim ∉ before := by
    intro before others member
    exact Bool.false_ne_true ((others delim member).symm.trans ((same delim).mpr rfl))
  cases isFound : scanned.found with
  | true =>
      obtain ⟨before, found, isUnread, isDelimiter, others, isCollected⟩ := scan.found isFound
      obtain rfl := (same found).mp isDelimiter
      calc
        flatUntil r.unread found =
            flatUntil (before ++ found :: scanned.reader.unread) found := by rw [isUnread]
        _ = some (before, scanned.reader.unread) := flatUntil_append _ (absent others)
        _ = some (scanned.collected, scanned.reader.unread) := by
          rw [show scanned.collected = before from isCollected]
        _ = _ := (if_pos rfl).symm
  | false =>
      obtain ⟨before, isUnread, others, -⟩ := scan.missing isFound
      rw [isEnd isFound, List.append_nil] at isUnread
      rw [isUnread, if_neg Bool.false_ne_true]
      exact flatUntil_of_notMem (absent others)

/-- A delimiter that a `char` can be equal to. -/
def Call.Readable : Call → Prop
  | .bytesUntil delim => delim.toNat < 0x80
  | .nextBytes _ | .nextByte | .asStringUntil _ => True

theorem execute_wellFormed (wellFormed : WellFormed r) (call : Call) :
    WellFormed (execute r call).2 := by
  cases call with
  | nextBytes count => exact (getNextBytes_spec count wellFormed).1
  | nextByte =>
      obtain ⟨filled, -, isAmount, -⟩ := checkBufferContent_spec wellFormed
      unfold execute getNextByte
      dsimp only
      by_cases isZero : (checkBufferContent r).1 = 0
      · rw [if_pos isZero]
        exact filled
      · rw [if_neg isZero]
        rw [filled.length_valid] at isAmount
        exact (filled.advance 1 (by omega)).1
  | bytesUntil delim =>
      exact (untilLoop_spec _ _ [] wellFormed (Nat.lt_succ_self _)).1.wellFormed
  | asStringUntil delim =>
      exact (untilLoop_spec _ _ [] wellFormed (Nat.lt_succ_self _)).1.wellFormed

/-- `get_bytes_until` never finds a delimiter that no `char` is equal to. -/
theorem readable_of_isSome (wellFormed : WellFormed r) {call : Call}
    (succeeded : (execute r call).1.isSome) : call.Readable := by
  cases call with
  | nextBytes _ | nextByte | asStringUntil _ => exact trivial
  | bytesUntil delim =>
      obtain ⟨scan, -⟩ := untilLoop_spec (fun b => asChar b = delim.toNat) (r.unread.length + 1)
        [] wellFormed (Nat.lt_succ_self _)
      unfold execute getBytesUntil at succeeded
      dsimp only at succeeded
      split_ifs at succeeded with isFound
      · obtain ⟨-, found, -, isDelimiter, -⟩ := scan.found isFound
        have isChar : asChar found = delim.toNat := of_decide_eq_true isDelimiter
        have isByte := found.toNat_lt
        unfold asChar at isChar
        show delim.toNat < 0x80
        split_ifs at isChar <;> omega
      · exact absurd succeeded Bool.false_ne_true

/-- A call gives what it gives on the flat sequence, and leaves what it leaves there. -/
theorem execute_flat (wellFormed : WellFormed r) {call : Call} (readable : call.Readable) :
    flatExecute r.unread call = ((execute r call).1, (execute r call).2.unread) := by
  cases call with
  | nextBytes count =>
      obtain ⟨-, fits, short, none⟩ := getNextBytes_spec count wellFormed
      rw [execute, flatExecute]
      dsimp only
      by_cases isThere : count ≤ r.unread.length
      · obtain ⟨isCount, isCopied, isRest⟩ := fits isThere
        rw [if_pos isThere, if_pos isCount, isCopied, isRest]
      · have fewer := short.mpr (Nat.not_le.mp isThere)
        rw [if_neg isThere, if_neg (Nat.ne_of_lt fewer), none (Nat.not_le.mp isThere)]
  | nextByte =>
      obtain ⟨filled, same, isAmount, none⟩ := checkBufferContent_spec wellFormed
      unfold execute getNextByte
      dsimp only
      by_cases isZero : (checkBufferContent r).1 = 0
      · rw [if_pos isZero, same, none isZero]
        rfl
      · rw [if_neg isZero]
        rw [filled.length_valid] at isAmount
        have isCons := filled.unread_cons (by omega)
        rw [← same, isCons]
        rfl
  | bytesUntil delim =>
      have isAscii : asChar delim = delim.toNat := if_pos readable
      obtain ⟨isFlat, isEnd⟩ := @untilLoop_flat r (fun b => asChar b = delim.toNat)
        delim wellFormed (fun c => ⟨fun isDelim => eq_of_asChar (of_decide_eq_true isDelim),
          fun isSame => decide_eq_true (isSame ▸ isAscii)⟩)
      rw [execute, flatExecute, getBytesUntil, isFlat]
      dsimp only
      split_ifs with isFound
      · rfl
      · rw [isEnd (Bool.eq_false_iff.mpr isFound)]
  | asStringUntil delim =>
      obtain ⟨isFlat, isEnd⟩ := @untilLoop_flat r (fun c => asChar c = asChar delim)
        delim wellFormed (fun c => ⟨fun isDelim => asChar_inj (of_decide_eq_true isDelim),
          fun isSame => decide_eq_true (congrArg asChar isSame)⟩)
      rw [execute, flatExecute, getAsStringUntil, isFlat]
      dsimp only
      split_ifs with isFound
      · rfl
      · rw [isEnd (Bool.eq_false_iff.mpr isFound)]

theorem run_wellFormed (wellFormed : WellFormed r) (calls : List Call) :
    WellFormed (run r calls).2 := by
  induction calls generalizing r with
  | nil => exact wellFormed
  | cons call calls ih => exact ih (execute_wellFormed wellFormed call)

theorem run_readable (wellFormed : WellFormed r) {calls : List Call}
    (succeeded : ∀ value ∈ (run r calls).1, value.isSome) : ∀ call ∈ calls, call.Readable := by
  induction calls generalizing r with
  | nil => exact List.forall_mem_nil _
  | cons call calls ih =>
      obtain ⟨first, later⟩ := List.forall_mem_cons.mp succeeded
      refine List.forall_mem_cons.mpr ⟨readable_of_isSome wellFormed first, ?_⟩
      exact ih (execute_wellFormed wellFormed call) later

theorem run_flat (wellFormed : WellFormed r) {calls : List Call}
    (readable : ∀ call ∈ calls, call.Readable) :
    flatRun r.unread calls = ((run r calls).1, (run r calls).2.unread) := by
  induction calls generalizing r with
  | nil => rfl
  | cons call calls ih =>
      obtain ⟨first, later⟩ := List.forall_mem_cons.mp readable
      rw [flatRun, execute_flat wellFormed first]
      dsimp only
      rw [ih (execute_wellFormed wellFormed call) later]
      rfl

/-- Calls that all succeed give what they give on the flat sequence, wherever the buffer ends,
and so do all calls with delimiters that a `char` can be equal to, whether they succeed or not.
Fewer bytes are reported when fewer are left, after any calls. -/
theorem reader_transparent (size : ℕ+) (contents : List UInt8) (calls : List Call) :
    let (values, r) := run (Reader.start size contents) calls
    ((∀ value ∈ values, value.isSome) ∨ (∀ call ∈ calls, call.Readable) →
      flatRun contents calls = (values, r.unread)) ∧
      ∀ count, (getNextBytes count r).count < count ↔ r.unread.length < count := by
  have started := wellFormed_start size contents
  constructor
  · intro succeeded
    have readable : ∀ call ∈ calls, call.Readable := by
      cases succeeded with
      | inl succeeded => exact run_readable started succeeded
      | inr readable => exact readable
    have isFlat := run_flat started readable
    rwa [unread_start] at isFlat
  · intro count
    exact (getNextBytes_spec count (run_wellFormed started calls)).2.2.1

/-- A buffer of two bytes, which every call but the last one runs out of. -/
theorem reader_transparent_twoBytes :
    flatRun [1, 2, 3, 0, 65, 66, 67, 10, 4] [.nextBytes 1, .bytesUntil 0, .asStringUntil 10,
        .nextByte, .asStringUntil 10] =
        ([some [1], some [2, 3], some [65, 66, 67], some [4], some []], []) ∧
      ∀ count, (getNextBytes count ⟨⟨[], true⟩, 0, 0, [4, 10]⟩).count < count ↔ 0 < count := by
  have ran : run (Reader.start 2 [1, 2, 3, 0, 65, 66, 67, 10, 4]) [.nextBytes 1, .bytesUntil 0,
      .asStringUntil 10, .nextByte, .asStringUntil 10] =
      ([some [1], some [2, 3], some [65, 66, 67], some [4], some []],
        ⟨⟨[], true⟩, 0, 0, [4, 10]⟩) := by decide
  have transparent := reader_transparent 2 [1, 2, 3, 0, 65, 66, 67, 10, 4] [.nextBytes 1,
    .bytesUntil 0, .asStringUntil 10, .nextByte, .asStringUntil 10]
  rw [ran] at transparent
  exact ⟨transparent.1 (.inl (by decide)), transparent.2⟩

end Calls

end Disvm.BufferedReader
