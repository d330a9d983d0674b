import Disvm.ByteMemory

/-!
# Output into a bounded buffer

The pieces of a text are put into a buffer one after another, the last byte of which is for a
terminator.  A whole piece is written as it is.  A cut piece is written, with a terminator,
as far as there is room, but the position moves on by its whole length.
-/

namespace Disvm.BoundedOutput

open ByteMemory

inductive Piece where
  | whole (bytes : List UInt8)
  | cut (bytes : List UInt8)
  | skip
  deriving DecidableEq, Repr

def Piece.bytes : Piece → List UInt8
  | .whole bytes => bytes
  | .cut bytes => bytes
  | .skip => []

def textOf (pieces : List Piece) : List UInt8 :=
  pieces.flatMap Piece.bytes

/-- Memory from the buffer on; `extent` is behind the last byte that has been written. -/
structure Output where
  memory : Memory
  curr : ℕ
  extent : ℕ

def store (start : ℕ) (bytes : List UInt8) (memory : Memory) : Memory := fun address =>
  if address < start then memory address else (bytes[address - start]?).getD (memory address)

def firstBytes (memory : Memory) (count : ℕ) : List UInt8 :=
  (List.range count).map memory

/-- As much of the bytes as there is room for with a terminator. -/
def cutText (room : ℕ) (bytes : List UInt8) : List UInt8 :=
  if room = 0 then [] else bytes.take (room - 1) ++ [0]

namespace Output

/-- Bytes are written and the position moves on. -/
def write (out : Output) (bytes : List UInt8) (count : ℕ) : Output where
  memory := store out.curr bytes out.memory
  curr := out.curr + count
  extent := if bytes = [] then out.extent else max out.extent (out.curr + bytes.length)

def put (size : ℕ) (out : Output) : Piece → Output
  | .whole bytes => out.write bytes bytes.length
  | .cut bytes => out.write (cutText (size - 1 - out.curr) bytes) bytes.length
  | .skip => out

end Output

/-- Pieces are put until there is no room, and whether all have been put. -/
def putAll (size : ℕ) : List Piece → Output → Bool × Output
  | [], out => (true, out)
  | piece :: pieces, out =>
      if size - 1 ≤ out.curr then (false, out) else putAll size pieces (out.put size piece)

/-- No whole piece that is put goes over the end of the buffer. -/
def Inside (size start : ℕ) (pieces : List Piece) : Prop :=
  ∀ before bytes after, pieces = before ++ .whole bytes :: after →
    start + (textOf before).length + 1 < size →
      start + (textOf before).length + bytes.length ≤ size

/-- There is room before the last piece. -/
def Reaches (size start : ℕ) (pieces : List Piece) : Prop :=
  pieces = [] ∨ start + (textOf pieces.dropLast).length + 1 < size

instance (size start : ℕ) (pieces : List Piece) : Decidable (Reaches size start pieces) :=
  inferInstanceAs (Decidable (_ ∨ _))

/-- A piece that ends at the count is complete; a terminator may be its last byte. -/
def Piece.Complete (size count : ℕ) : Piece → Prop
  | .whole _ => count < size
  | .cut bytes => count + 1 < size ∨ count + 1 = size ∧ bytes.getLast? = some 0
  | .skip => True

def EndsComplete (size : ℕ) (pieces : List Piece) : Prop :=
  ∀ piece, pieces.getLast? = some piece → piece.Complete size (textOf pieces).length

section Memory

variable {memory : Memory} {start count : ℕ} {bytes : List UInt8}

theorem firstBytes_length (memory : Memory) (count : ℕ) :
    (firstBytes memory count).length = count := by
  rw [firstBytes, List.length_map, List.length_range]

theorem firstBytes_add (memory : Memory) (start count : ℕ) : firstBytes memory (start + count) =
    firstBytes memory start ++ (List.range count).map fun offset => memory (start + offset) := by
  unfold firstBytes
  rw [List.range_add, List.map_append, List.map_map]
  rfl

/-- What has been stored follows what was there before it. -/
theorem firstBytes_store (inside : count ≤ bytes.length) :
    firstBytes (store start bytes memory) (start + count) =
      firstBytes memory start ++ bytes.take count := by
  rw [firstBytes_add]
  congr 1
  · apply List.map_congr_left
    intro address member
    exact if_pos (List.mem_range.mp member)
  · apply List.ext_getElem
    · rw [List.length_map, List.length_range, List.length_take, Nat.min_eq_left inside]
    · intro index first second
      have small : index < count := by rwa [List.length_map, List.length_range] at first
      rw [List.getElem_map, List.getElem_range, List.getElem_take, store, if_neg (by omega),
        Nat.add_sub_cancel_left, List.getElem?_eq_getElem (by omega)]
      rfl

end Memory

theorem textOf_append (first second : List Piece) :
    textOf (first ++ second) = textOf first ++ textOf second :=
  List.flatMap_append

theorem textOf_cons (piece : Piece) (pieces : List Piece) :
    textOf (piece :: pieces) = piece.bytes ++ textOf pieces :=
  List.flatMap_cons

section Put

variable {out : Output} {piece : Piece} {size : ℕ} {text bytes : List UInt8}

theorem put_curr (size : ℕ) (out : Output) (piece : Piece) :
    (out.put size piece).curr = out.curr + piece.bytes.length := by
  cases piece <;> rfl

theorem extent_le_put (size : ℕ) (out : Output) (piece : Piece) :
    out.extent ≤ (out.put size piece).extent := by
  have grows : ∀ bytes count, out.extent ≤ (out.write bytes count).extent := by
    intro bytes count
    unfold Output.write
    dsimp only
    split_ifs
    · exact Nat.le_refl _
    · exact Nat.le_max_left _ _
  cases piece with
  | whole bytes => exact grows _ _
  | cut bytes => exact grows _ _
  | skip => exact Nat.le_refl _

theorem cutText_length (room : ℕ) (bytes : List UInt8) : (cutText room bytes).length ≤ room := by
  unfold cutText
  split_ifs
  · exact Nat.zero_le _
  · rw [List.length_append, List.length_take, List.length_singleton]
    omega

/-- The buffer is kept to unless a whole piece is longer than the room. -/
theorem put_extent (inside : out.extent ≤ size) (room : out.curr + 1 < size) :
    (out.put size piece).extent ≤ size ↔
      ∀ bytes, piece = .whole bytes → out.curr + bytes.length ≤ size := by
  cases piece with
  | whole bytes =>
      change (if bytes = [] then out.extent
        else max out.extent (out.curr + bytes.length)) ≤ size ↔ _
      constructor
      · rintro isInside other isOther
        obtain rfl := Piece.whole.inj isOther
        split_ifs at isInside with empty
        · rw [empty, List.length_nil]
          omega
        · exact (Nat.le_max_right _ _).trans isInside
      · intro fits
        split_ifs
        · exact inside
        · exact Nat.max_le.mpr ⟨inside, fits bytes rfl⟩
  | cut bytes =>
      change (if cutText (size - 1 - out.curr) bytes = [] then out.extent
        else max out.extent (out.curr + (cutText (size - 1 - out.curr) bytes).length)) ≤ size ↔ _
      have short := cutText_length (size - 1 - out.curr) bytes
      constructor
      · rintro - other ⟨⟩
      · intro
        split_ifs
        · exact inside
        · apply Nat.max_le.mpr
          omega
  | skip =>
      constructor
      · rintro - other ⟨⟩
      · intro
        exact inside

/-- The text has been put. -/
structure Holds (text : List UInt8) (out : Output) : Prop where
  curr : out.curr = text.length
  bytes : firstBytes out.memory text.length = text

theorem Holds.write (holds : Holds text out) {count : ℕ} (isPart : count ≤ bytes.length) :
    firstBytes (out.write bytes count).memory (out.curr + count) = text ++ bytes.take count := by
  change firstBytes (store out.curr bytes out.memory) (out.curr + count) = _
  rw [firstBytes_store isPart, holds.curr, holds.bytes]

/-- A piece that there is room for is complete. -/
theorem Holds.put (holds : Holds text out) (room : text.length + piece.bytes.length + 1 < size) :
    Holds (text ++ piece.bytes) (out.put size piece) := by
  have isCurr : (out.put size piece).curr = (text ++ piece.bytes).length := by
    rw [put_curr, List.length_append, holds.curr]
  refine ⟨isCurr, ?_⟩
  rw [← isCurr]
  cases piece with
  | whole bytes =>
      change firstBytes (out.write bytes bytes.length).memory (out.curr + bytes.length) = _
      rw [holds.write (Nat.le_refl _), List.take_length]
      rfl
  | cut bytes =>
      have isText : cutText (size - 1 - out.curr) bytes = bytes ++ [0] := by
        unfold cutText
        have isBytes : Piece.bytes (.cut bytes) = bytes := rfl
        rw [isBytes, ← holds.curr] at room
        rw [if_neg (by omega), List.take_of_length_le (by omega)]
      have isPart : bytes.length ≤ (bytes ++ [0]).length := by
        rw [List.length_append]
        omega
      change firstBytes (out.write (cutText _ bytes) bytes.length).memory
        (out.curr + bytes.length) = _
      rw [isText, holds.write isPart, List.take_left]
      rfl
  | skip =>
      change firstBytes out.memory out.curr = _
      rw [holds.curr, holds.bytes]
      exact (List.append_nil text).symm

theorem take_terminated_iff :
    bytes.take (bytes.length - 1) ++ [0] = bytes ↔ bytes.getLast? = some 0 := by
  rw [List.getLast?_eq_some_iff]
  constructor
  · intro same
    exact ⟨_, same.symm⟩
  · rintro ⟨start, rfl⟩
    rw [List.length_append, List.length_singleton, Nat.add_sub_cancel, List.take_left]

/-- A cut piece loses its last byte when there is room for all of it but the terminator. -/
theorem Holds.put_cut (holds : Holds text out) (room : text.length + 1 < size)
    (full : text.length + bytes.length + 1 = size) :
    firstBytes (out.put size (.cut bytes)).memory (out.put size (.cut bytes)).curr =
      text ++ bytes ↔ bytes.getLast? = some 0 := by
  have nonempty : bytes ≠ [] := by
    rintro rfl
    rw [List.length_nil] at full
    omega
  have isText : cutText (size - 1 - out.curr) bytes = bytes.take (bytes.length - 1) ++ [0] := by
    have isRoom : size - 1 - out.curr = bytes.length := by
      rw [holds.curr]
      omega
    rw [isRoom]
    exact if_neg (mt List.length_eq_zero_iff.mp nonempty)
  have isLength : (bytes.take (bytes.length - 1) ++ [0]).length = bytes.length := by
    have pos := List.length_pos_iff.mpr nonempty
    rw [List.length_append, List.length_take, List.length_singleton]
    omega
  have isStored : firstBytes (out.put size (.cut bytes)).memory
      (out.put size (.cut bytes)).curr = text ++ (bytes.take (bytes.length - 1) ++ [0]) := by
    change firstBytes (out.write (cutText _ bytes) bytes.length).memory
      (out.curr + bytes.length) = _
    rw [isText, holds.write (le_of_eq isLength.symm), List.take_of_length_le (le_of_eq isLength)]
  rw [isStored, List.append_cancel_left_eq, take_terminated_iff]

theorem Holds.put_complete (holds : Holds text out) (room : text.length + 1 < size) :
    (out.put size piece).curr < size ∧
        firstBytes (out.put size piece).memory (out.put size piece).curr = text ++ piece.bytes ↔
      piece.Complete size (text.length + piece.bytes.length) := by
  have isCurr : (out.put size piece).curr = text.length + piece.bytes.length := by
    rw [put_curr, holds.curr]
  cases piece with
  | whole bytes =>
      have isText : firstBytes (out.put size (.whole bytes)).memory
          (out.put size (.whole bytes)).curr = text ++ bytes := by
        change firstBytes (out.write bytes bytes.length).memory (out.curr + bytes.length) = _
        rw [holds.write (Nat.le_refl _), List.take_length]
      rw [isCurr]
      exact ⟨fun both => both.1, fun fits => ⟨fits, isCurr ▸ isText⟩⟩
  | cut bytes =>
      have isBytes : (Piece.cut bytes).bytes = bytes := rfl
      rw [isBytes] at isCurr ⊢
      change _ ↔ text.length + bytes.length + 1 < size ∨
        text.length + bytes.length + 1 = size ∧ bytes.getLast? = some 0
      rcases Nat.lt_trichotomy (text.length + bytes.length + 1) size with fits | full | beyond
      · have isHeld : Holds (text ++ (Piece.cut bytes).bytes) (out.put size (.cut bytes)) :=
          holds.put fits
        refine ⟨fun _ => Or.inl fits, fun _ => ⟨by omega, ?_⟩⟩
        rw [isHeld.curr]
        exact isHeld.bytes
      · rw [holds.put_cut room full]
        constructor
        · rintro ⟨-, isLast⟩
          exact Or.inr ⟨full, isLast⟩
        · rintro (fits | ⟨-, isLast⟩)
          · omega
          · exact ⟨by omega, isLast⟩
      · constructor
        · rintro ⟨fits, -⟩
          omega
        · rintro (fits | ⟨full, -⟩) <;> omega
  | skip =>
      refine ⟨fun _ => trivial, fun _ => ⟨?_, ?_⟩⟩
      · rw [isCurr]
        exact (Nat.lt_succ_self _).trans room
      · change firstBytes out.memory out.curr = text ++ []
        rw [holds.curr, holds.bytes, List.append_nil]

end Put

section PutAll

variable {out : Output} {piece : Piece} {pieces before after : List Piece} {size start : ℕ}
  {text : List UInt8}

theorem putAll_full (full : size - 1 ≤ out.curr) : putAll size (piece :: pieces) out =
    (false, out) :=
  if_pos full

theorem putAll_room (room : out.curr + 1 < size) :
    putAll size (piece :: pieces) out = putAll size pieces (out.put size piece) :=
  if_neg (by omega)

theorem extent_le_putAll (size : ℕ) (pieces : List Piece) (out : Output) :
    out.extent ≤ (putAll size pieces out).2.extent := by
  induction pieces generalizing out with
  | nil => exact Nat.le_refl _
  | cons piece pieces ih =>
      unfold putAll
      split_ifs
      · exact Nat.le_refl _
      · exact (extent_le_put size out piece).trans (ih _)

/-- Pieces that there is room for are complete. -/
theorem Holds.putAll (holds : Holds text out) (inside : out.extent ≤ size)
    (room : text.length + (textOf pieces).length + 1 < size) :
    ∃ later, putAll size pieces out = (true, later) ∧ Holds (text ++ textOf pieces) later ∧
      later.extent ≤ size := by
  induction pieces generalizing text out with
  | nil => exact ⟨out, rfl, by rwa [textOf, List.flatMap_nil, List.append_nil], inside⟩
  | cons piece pieces ih =>
      rw [textOf_cons, List.length_append] at room
      have hasRoom : out.curr + 1 < size := by
        rw [holds.curr]
        omega
      have first : Holds (text ++ piece.bytes) (out.put size piece) := holds.put (by omega)
      have firstInside : (out.put size piece).extent ≤ size := by
        apply (put_extent inside hasRoom).mpr
        rintro bytes rfl
        have isBytes : (Piece.whole bytes).bytes = bytes := rfl
        rw [isBytes] at room
        rw [holds.curr]
        omega
      have later := ih first firstInside (by rw [List.length_append]; omega)
      rwa [putAll_room hasRoom, textOf_cons, ← List.append_assoc]

/-- All pieces are put if there is room before the last one. -/
theorem putAll_done : (putAll size pieces out).1 = true ↔ Reaches size out.curr pieces := by
  induction pieces generalizing out with
  | nil => exact ⟨fun _ => Or.inl rfl, fun _ => rfl⟩
  | cons piece pieces ih =>
      rcases Nat.lt_or_ge (out.curr + 1) size with room | full
      · rw [putAll_room room, ih, put_curr]
        unfold Reaches
        cases pieces with
        | nil =>
            simp only [List.dropLast_singleton, true_or, true_iff]
            exact Or.inr room
        | cons next pieces =>
            rw [List.dropLast_cons_cons, textOf_cons, List.length_append, ← Nat.add_assoc]
            simp only [reduceCtorEq, false_or]
      · rw [putAll_full (by omega)]
        unfold Reaches
        simp only [Bool.false_eq_true, reduceCtorEq, false_or, false_iff]
        omega

theorem putAll_curr (done : (putAll size pieces out).1 = true) :
    (putAll size pieces out).2.curr = out.curr + (textOf pieces).length := by
  induction pieces generalizing out with
  | nil => rfl
  | cons piece pieces ih =>
      rcases Nat.lt_or_ge (out.curr + 1) size with room | full
      · rw [putAll_room room] at done ⊢
        rw [ih done, put_curr, textOf_cons, List.length_append, Nat.add_assoc]
      · rw [putAll_full (by omega)] at done
        cases done

theorem inside_cons : Inside size start (piece :: pieces) ↔
    (start + 1 < size → ∀ bytes, piece = .whole bytes → start + bytes.length ≤ size) ∧
      Inside size (start + piece.bytes.length) pieces := by
  constructor
  · intro inside
    constructor
    · rintro room bytes rfl
      exact inside [] bytes pieces rfl room
    · rintro before bytes after rfl room
      have isInside := inside (piece :: before) bytes after rfl
      rw [textOf_cons, List.length_append, ← Nat.add_assoc] at isInside
      exact isInside room
  · rintro ⟨first, rest⟩ before bytes after isSplit room
    cases before with
    | nil =>
        obtain ⟨rfl, -⟩ := List.cons.inj isSplit
        exact first room bytes rfl
    | cons other before =>
        obtain ⟨rfl, isRest⟩ := List.cons.inj isSplit
        rw [textOf_cons, List.length_append, ← Nat.add_assoc] at room ⊢
        exact rest before bytes after isRest room

theorem putAll_extent (inside : out.extent ≤ size) :
    (putAll size pieces out).2.extent ≤ size ↔ Inside size out.curr pieces := by
  induction pieces generalizing out with
  | nil =>
      refine ⟨fun _ before bytes after isSplit => ?_, fun _ => inside⟩
      cases before <;> cases isSplit
  | cons piece pieces ih =>
      rw [inside_cons]
      rcases Nat.lt_or_ge (out.curr + 1) size with room | full
      · rw [putAll_room room]
        by_cases fits : (out.put size piece).extent ≤ size
        · rw [ih fits, put_curr]
          exact ⟨fun rest => ⟨fun _ => (put_extent inside room).mp fits, rest⟩, fun both => both.2⟩
        · have exceeds := extent_le_putAll size pieces (out.put size piece)
          constructor
          · intro isInside
            omega
          · rintro ⟨first, -⟩
            exact absurd ((put_extent inside room).mpr (first room)) fits
      · rw [putAll_full (by omega)]
        refine ⟨fun _ => ⟨fun room => absurd room (by omega), fun before bytes after _ room => ?_⟩,
          fun _ => inside⟩
        omega

theorem putAll_append {later : Output} (done : putAll size before out = (true, later)) :
    putAll size (before ++ after) out = putAll size after later := by
  induction before generalizing out with
  | nil =>
      obtain rfl := (Prod.mk.inj done).2
      rfl
  | cons piece before ih =>
      rcases Nat.lt_or_ge (out.curr + 1) size with room | full
      · rw [putAll_room room] at done
        rw [List.cons_append, putAll_room room, ih done]
      · rw [putAll_full (by omega)] at done
        cases done

/-- What has been put when all pieces have been. -/
theorem putAll_complete (holds : Holds [] out) (inside : out.extent ≤ size) (hasRoom : 1 < size)
    (reaches : Reaches size 0 pieces) :
    ((putAll size pieces out).2.curr < size ∧
      firstBytes (putAll size pieces out).2.memory (putAll size pieces out).2.curr =
        textOf pieces) ↔ EndsComplete size pieces := by
  rcases List.eq_nil_or_concat pieces with rfl | ⟨before, piece, rfl⟩
  · have isStart : out.curr = 0 := holds.curr
    refine Iff.intro (fun _ piece isLast => by cases isLast) fun _ => ?_
    change out.curr < size ∧ firstBytes out.memory out.curr = []
    rw [isStart]
    exact ⟨by omega, rfl⟩
  · rw [List.concat_eq_append] at reaches ⊢
    have room : (textOf before).length + 1 < size := by
      rcases reaches with empty | room
      · exact absurd empty (List.append_ne_nil_of_right_ne_nil _ (List.cons_ne_nil _ _))
      · rwa [List.dropLast_concat, Nat.zero_add] at room
    have roomBefore : ([] : List UInt8).length + (textOf before).length + 1 < size := by
      rw [List.length_nil]
      omega
    obtain ⟨later, done, laterHolds, -⟩ := holds.putAll inside roomBefore
    rw [List.nil_append] at laterHolds
    have lastRoom : later.curr + 1 < size := by
      rw [laterHolds.curr]
      exact room
    have isText : textOf (before ++ [piece]) = textOf before ++ piece.bytes := by
      rw [textOf_append, textOf_cons]
      exact congrArg _ (List.append_nil _)
    have isPut : putAll size (before ++ [piece]) out = (true, later.put size piece) := by
      rw [putAll_append done, putAll_room lastRoom]
      rfl
    rw [isPut, isText, laterHolds.put_complete room]
    unfold EndsComplete
    rw [isText, List.getLast?_concat, List.length_append]
    constructor
    · rintro complete other isLast
      obtain rfl := Option.some.inj isLast
      exact complete
    · intro complete
      exact complete piece rfl

end PutAll

end Disvm.BoundedOutput
