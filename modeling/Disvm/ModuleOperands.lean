import Disvm.BufferedReader

/-!
# Operands and words of a module

The reader of modules takes operands of one, two or four bytes and words of four bytes from the
buffered reader.  A read that the stream ends inside has failed.
-/

namespace Disvm.ModuleReader

open BufferedReader

abbrev Word := BitVec 32

/-- The bytes that the buffered reader has left. -/
abbrev Stream := List UInt8

/-- What a call of the buffered reader gives, if it succeeds. -/
def getNext (call : Call) (reader : Stream) : Option (List UInt8 × Stream) :=
  match flatExecute reader call with
  | (none, _) => none
  | (some bytes, reader) => some (bytes, reader)

/-- `get_next_bytes`, when it gets all. -/
def getNextBytes (count : ℕ) (reader : Stream) : Option (List UInt8 × Stream) :=
  getNext (.nextBytes count) reader

def byteWord (byte : UInt8) : Word :=
  byte.toBitVec.setWidth 32

/-- `buffer[index]`. -/
def bufferAt (buffer : List UInt8) (index : ℕ) : Word :=
  byteWord (buffer.getD index 0)

/-- The sign of an operand of more than one byte. -/
def preserveSign (result : Word) : Word :=
  if result &&& 0x20#32 ≠ 0 then result ||| ~~~0x3f#32 else result &&& 0x3f#32

/-- `read_next_operand`. -/
def readNextOperand (reader : Stream) : Option (Word × Stream) := do
  let (buffer, reader) ← getNextBytes 1 reader
  let result := bufferAt buffer 0
  if result &&& 0xc0#32 = 0x00#32 then some (result, reader)
  else if result &&& 0xc0#32 = 0x40#32 then some (result ||| ~~~0x7f#32, reader)
  else if result &&& 0xc0#32 = 0x80#32 then
    let (buffer, reader) ← getNextBytes 1 reader
    some (preserveSign result <<< 8 ||| bufferAt buffer 0, reader)
  else
    let (buffer, reader) ← getNextBytes 3 reader
    some (preserveSign result <<< 24 ||| bufferAt buffer 0 <<< 16 ||| bufferAt buffer 1 <<< 8 |||
      bufferAt buffer 2, reader)

/-- `read_next_word`. -/
def readNextWord (reader : Stream) : Option (Word × Stream) := do
  let (buffer, reader) ← getNextBytes 4 reader
  some (bufferAt buffer 0 <<< 24 ||| bufferAt buffer 1 <<< 16 ||| bufferAt buffer 2 <<< 8 |||
    bufferAt buffer 3, reader)

section Reads

variable {reader rest : Stream}

/-- The buffered reader gives the same, whatever its buffer holds. -/
theorem getNext_unread {r : Reader} (wellFormed : WellFormed r) {call : Call}
    (readable : call.Readable) :
    getNext call r.unread =
      (execute r call).1.map fun bytes => (bytes, (execute r call).2.unread) := by
  rw [getNext, execute_flat wellFormed readable]
  cases (execute r call).1 <;> rfl

theorem getNextBytes_eq (count : ℕ) (reader : Stream) :
    getNextBytes count reader =
      if count ≤ reader.length then some (reader.take count, reader.drop count) else none := by
  rw [getNextBytes, getNext, flatExecute]
  split_ifs <;> rfl

theorem getNextBytes_append (bytes rest : List UInt8) :
    getNextBytes bytes.length (bytes ++ rest) = some (bytes, rest) := by
  rw [getNextBytes_eq, if_pos (by simp), List.take_left, List.drop_left]

@[simp]
theorem getNextBytes_one (b₀ : UInt8) (rest : Stream) :
    getNextBytes 1 (b₀ :: rest) = some ([b₀], rest) :=
  getNextBytes_append [b₀] rest

@[simp]
theorem getNextBytes_three (b₀ b₁ b₂ : UInt8) (rest : Stream) :
    getNextBytes 3 (b₀ :: b₁ :: b₂ :: rest) = some ([b₀, b₁, b₂], rest) :=
  getNextBytes_append [b₀, b₁, b₂] rest

@[simp]
theorem getNextBytes_four (b₀ b₁ b₂ b₃ : UInt8) (rest : Stream) :
    getNextBytes 4 (b₀ :: b₁ :: b₂ :: b₃ :: rest) = some ([b₀, b₁, b₂, b₃], rest) :=
  getNextBytes_append [b₀, b₁, b₂, b₃] rest

/-- The bytes that follow the first one are read as the first one says. -/
theorem readNextOperand_cons (first : UInt8) (rest : Stream) :
    readNextOperand (first :: rest) =
      let result := byteWord first
      if result &&& 0xc0#32 = 0x00#32 then some (result, rest)
      else if result &&& 0xc0#32 = 0x40#32 then some (result ||| ~~~0x7f#32, rest)
      else if result &&& 0xc0#32 = 0x80#32 then
        (getNextBytes 1 rest).map fun got =>
          (preserveSign result <<< 8 ||| bufferAt got.1 0, got.2)
      else
        (getNextBytes 3 rest).map fun got =>
          (preserveSign result <<< 24 ||| bufferAt got.1 0 <<< 16 ||| bufferAt got.1 1 <<< 8 |||
            bufferAt got.1 2, got.2) := by
  rw [readNextOperand, getNextBytes_one]
  dsimp only [bind, Option.bind]
  cases getNextBytes 1 rest <;> cases getNextBytes 3 rest <;> rfl

theorem eq_of_getNextBytes {count : ℕ} {bytes : List UInt8}
    (got : getNextBytes count reader = some (bytes, rest)) :
    bytes.length = count ∧ reader = bytes ++ rest := by
  rw [getNextBytes_eq] at got
  split_ifs at got with isThere
  injection got with pair
  injection pair with isTaken isRest
  rw [← isTaken, ← isRest, List.take_append_drop]
  exact ⟨List.length_take_of_le isThere, rfl⟩

theorem getNextBytes_shorter {count : ℕ} {bytes : List UInt8} (positive : 0 < count)
    (got : getNextBytes count reader = some (bytes, rest)) : rest.length < reader.length := by
  obtain ⟨isLength, rfl⟩ := eq_of_getNextBytes got
  rw [List.length_append]
  omega

theorem readNextOperand_shorter {result : Word}
    (read : readNextOperand reader = some (result, rest)) : rest.length < reader.length := by
  obtain ⟨⟨buffer, later⟩, got, read⟩ := Option.bind_eq_some_iff.mp read
  have shorter := getNextBytes_shorter Nat.one_pos got
  dsimp only at read
  split_ifs at read
  · injection read with pair
    injection pair with _ isRest
    rwa [← isRest]
  · injection read with pair
    injection pair with _ isRest
    rwa [← isRest]
  · obtain ⟨⟨buffer, last⟩, gotMore, read⟩ := Option.bind_eq_some_iff.mp read
    injection read with pair
    injection pair with _ isRest
    rw [← isRest]
    exact (getNextBytes_shorter Nat.one_pos gotMore).trans shorter
  · obtain ⟨⟨buffer, last⟩, gotMore, read⟩ := Option.bind_eq_some_iff.mp read
    injection read with pair
    injection pair with _ isRest
    rw [← isRest]
    exact (getNextBytes_shorter (by decide) gotMore).trans shorter

theorem readNextWord_shorter {result : Word}
    (read : readNextWord reader = some (result, rest)) : rest.length < reader.length := by
  obtain ⟨⟨buffer, later⟩, got, read⟩ := Option.bind_eq_some_iff.mp read
  injection read with pair
  injection pair with _ isRest
  rw [← isRest]
  exact getNextBytes_shorter (by decide) got

end Reads

end Disvm.ModuleReader
