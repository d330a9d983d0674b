import Disvm.DataSection
import Mathlib.Tactic.Ring

/-!
# The format of the data section

What the items mean: data goes to the base address plus the offset, one datum after another, and
the base address after an item that selects an element is where the element starts.
-/

namespace Disvm.DataSection

open ModuleReader Strings

/-- The data that can be read, and the stream after them if there are enough. -/
def readData (read : Stream → Option (List Cell × Stream)) :
    (count : ℕ) → Stream → List (List Cell) × Option Stream
  | 0, reader => ([], some reader)
  | count + 1, reader =>
      match read reader with
      | none => ([], none)
      | some (data, reader) =>
          let rest := readData read count reader
          (data :: rest.1, rest.2)

/-- Every datum at its index times the size after the address. -/
def writeData (dataDest : Address) (size : ℕ) (data : List (List Cell)) (memory : Memory) :
    Memory :=
  data.zipIdx.foldl (fun memory datum => memory.write (dataDest.plus (datum.2 * size)) datum.1)
    memory

/-- Whether the data lie in the block. -/
def Fits (memory : Memory) (dataDest : Address) (size : ℕ) (data : List (List Cell)) : Prop :=
  data = [] ∨ memory.Holds dataDest (data.length * size)

instance (memory : Memory) (dataDest : Address) (size : ℕ) (data : List (List Cell)) :
    Decidable (Fits memory dataDest size data) :=
  inferInstanceAs (Decidable (_ ∨ _))

section Format

variable (setting : Setting)

def prescribedData (read : Stream → Option (List Cell × Stream)) (size count : ℕ)
    (dataDest : Address) (config : Config) : State :=
  let data := readData read count config.reader
  if Fits config.memory dataDest size data.1 then
    let memory := writeData dataDest size data.1 config.memory
    match data.2 with
    | none => .thrown memory
    | some reader => .reading { config with reader := reader, memory := memory }
  else .thrown config.memory

/-- A pointer to a new object. -/
def prescribedObject (object : Object) (dataDest : Address) (reader : Stream)
    (config : Config) : State :=
  if config.memory.Holds dataDest pointerSize then
    .reading { config with
      reader := reader
      memory := (config.memory.alloc object).write dataDest
        (pointerCells config.memory.objects.length) }
  else .thrown config.memory

def prescribedString (count : ℕ) (dataDest : Address) (config : Config) : State :=
  match getNextBytes count config.reader with
  | none => .thrown config.memory
  | some (text, reader) =>
      if (VmString.ofUtf8 text).isOk then prescribedObject (.string text) dataDest reader config
      else .thrown config.memory

/-- The element type and the number of elements. -/
def readArray (reader : Stream) : Option (Word × Word × Stream) := do
  let (elementType, reader) ← readNextWord reader
  let (elementCount, reader) ← readNextWord reader
  return (elementType, elementCount, reader)

def prescribedArray (dataDest : Address) (config : Config) : State :=
  match readArray config.reader with
  | none => .thrown config.memory
  | some (elementType, elementCount, reader) =>
      match setting.typeAt elementType with
      | none => .thrown config.memory
      | some type =>
          let size := asSize (elementCount.toInt * type.sizeInBytes.toInt)
          if setting.allocates size then
            prescribedObject
              (.array type.sizeInBytes elementCount (List.replicate size (.byte 0)))
              dataDest reader config
          else .thrown config.memory

/-- The object that an item selects. -/
def selected (dataDest : Address) (memory : Memory) : Option (ℕ × Object) := do
  let object ← memory.pointerAt dataDest
  let selected ← memory.objects[object]?
  return (object, selected)

/-- The index of an element, if there is one and if the stack has room. -/
def readIndex (length : Word) (config : Config) : Option (ℤ × Stream) := do
  let (arrayIndex, reader) ← readNextWord config.reader
  if 0 ≤ arrayIndex.toInt ∧ arrayIndex.toInt < length.toInt ∧
      config.arrayStack.length < arrayAddressStackSize then
    some (arrayIndex.toInt, reader)
  else none

/-- The start of the selected element. -/
def prescribedSetArray (dataDest : Address) (config : Config) : State :=
  match selected dataDest config.memory with
  | some (object, .array elementSize length _) =>
      match readIndex length config with
      | none => .thrown config.memory
      | some (arrayIndex, reader) =>
          .reading { config with
            reader := reader
            base := ⟨.elements object, arrayIndex * elementSize.toInt⟩
            arrayStack := config.base :: config.arrayStack }
  | _ => .thrown config.memory

def prescribedItem (config : Config) : State :=
  match readHeader config.reader with
  | .failed => .thrown config.memory
  | .last reader => .finished config.memory reader
  | .item item reader =>
      let config := { config with reader := reader }
      let dataDest := config.base.plus item.byteOffset
      match item.type with
      | some .valueBit8 => prescribedData readByte 1 item.count dataDest config
      | some .valueBit32 => prescribedData readWord 4 item.count dataDest config
      | some .utfString => prescribedString item.count dataDest config
      | some .valueReal64 | some .valueBit64 =>
          prescribedData readSegment 8 item.count dataDest config
      | some .array => prescribedArray setting dataDest config
      | some .setArray => prescribedSetArray dataDest config
      | some .restoreLoadAddress => restoreLoadAddress config
      | none => .thrown config.memory

/-- Module data needs its descriptor. -/
def prescribedStart (reader : Stream) : State :=
  match start setting reader with
  | .undefined => .thrown noMemory
  | state => state

def prescribed (reader : Stream) (items : ℕ) : State :=
  turns (prescribedItem setting) items (prescribedStart setting reader)

/-- The offset of the data that can be read is in the block. -/
def SoundData (read : Stream → Option (List Cell × Stream)) (size count : ℕ)
    (dataDest : Address) (config : Config) : Prop :=
  Fits config.memory dataDest size (readData read count config.reader).1

def SoundString (count : ℕ) (dataDest : Address) (config : Config) : Prop :=
  ∀ text reader, getNextBytes count config.reader = some (text, reader) →
    (VmString.ofUtf8 text).isOk → config.memory.Holds dataDest pointerSize

/-- The element type has a descriptor. -/
def SoundArray (dataDest : Address) (config : Config) : Prop :=
  ∀ elementType elementCount reader,
    readArray config.reader = some (elementType, elementCount, reader) →
      ∃ type, setting.typeAt elementType = some type ∧
        (setting.allocates (asSize (elementCount.toInt * type.sizeInBytes.toInt)) →
          config.memory.Holds dataDest pointerSize)

/-- An object is selected, and of an array the start. -/
def SoundSetArray (dataDest : Address) (config : Config) : Prop :=
  ∃ object, selected dataDest config.memory = some object ∧
    ∀ elementSize length cells, object.2 = .array elementSize length cells →
      ∀ arrayIndex reader, readIndex length config = some (arrayIndex, reader) →
        arrayIndex * elementSize.toInt = 0

def SoundItem (config : Config) : Prop :=
  match readHeader config.reader with
  | .failed | .last _ => True
  | .item item reader =>
      let config := { config with reader := reader }
      let dataDest := config.base.plus item.byteOffset
      match item.type with
      | some .valueBit8 => SoundData readByte 1 item.count dataDest config
      | some .valueBit32 => SoundData readWord 4 item.count dataDest config
      | some .utfString => SoundString item.count dataDest config
      | some .valueReal64 | some .valueBit64 =>
          SoundData readSegment 8 item.count dataDest config
      | some .array => SoundArray setting dataDest config
      | some .setArray => SoundSetArray dataDest config
      | some .restoreLoadAddress | none => True

/-- Module data has a descriptor. -/
def SoundStart : Prop :=
  setting.dataSize = 0 ∨ (setting.typeAt 0).isSome

end Format

/-- Every write is in its block. -/
def Memory.Inside (memory : Memory) : Prop :=
  ∀ written ∈ memory.writes, memory.Holds written.address written.data.length

/-- The memory of a state, if anything is known of it. -/
def State.memory : State → Option Memory
  | .reading config => some config.memory
  | .finished memory _ | .thrown memory => some memory
  | .undefined => none

/-- After every item the reader is where the format is, all writes are at the addresses of the
format and in their blocks, and no memory has been accessed outside of the blocks. -/
structure AsPrescribed (setting : Setting) (reader : Stream) : Prop where
  same : ∀ items, readDataSection setting reader items = prescribed setting reader items
  defined : ∀ items, readDataSection setting reader items ≠ .undefined
  inside : ∀ items, ∀ memory ∈ (readDataSection setting reader items).memory, memory.Inside

section Turns

variable {turn : Config → State}

theorem turns_succ (turn : Config → State) (count : ℕ) (state : State) :
    turns turn (count + 1) state = turns turn 1 (turns turn count state) := by
  induction count generalizing state with
  | zero => rfl
  | succ count ih =>
      cases state with
      | reading config => exact ih (turn config)
      | finished memory reader => rfl
      | thrown memory => rfl
      | undefined => rfl

/-- Loops give the same states exactly when their turns are the same wherever they come. -/
theorem turns_eq_iff (turn other : Config → State) (start : State) :
    (∀ count, turns turn count start = turns other count start) ↔
      ∀ count config, turns turn count start = .reading config → turn config = other config := by
  constructor
  · intro same count config isReached
    have next := same (count + 1)
    rw [turns_succ turn, turns_succ other, ← same count, isReached] at next
    exact next
  · intro alike count
    induction count with
    | zero => rfl
    | succ count ih =>
        rw [turns_succ turn, turns_succ other, ← ih]
        cases isReached : turns turn count start with
        | reading config => exact alike count config isReached
        | finished memory reader => rfl
        | thrown memory => rfl
        | undefined => rfl

/-- What holds at the start and is kept by the turns. -/
theorem turns_invariant (property : State → Prop)
    (preserved : ∀ config, property (.reading config) → property (turn config)) (count : ℕ)
    {start : State} (established : property start) : property (turns turn count start) := by
  induction count generalizing start with
  | zero => exact established
  | succ count ih =>
      cases start with
      | reading config => exact ih (preserved config established)
      | finished memory reader => exact established
      | thrown memory => exact established
      | undefined => exact established

end Turns

section Writes

variable {memory : Memory} {address other : Address} {data : List Cell} {size : ℕ}

theorem length_overwrite {cells : List Cell} {offset : ℕ}
    (inside : offset + data.length ≤ cells.length) :
    (overwrite cells offset data).length = cells.length := by
  simp only [overwrite, List.length_append, List.length_take, List.length_drop]
  omega

theorem length_cells_write (holds : memory.Holds address data.length) (region : Region) :
    ((memory.write address data).cells region).length = (memory.cells region).length := by
  obtain ⟨isNat, inside⟩ := holds
  cases address with
  | mk target offset =>
      cases target with
      | moduleData =>
          cases region with
          | moduleData =>
              simp only [Memory.cells] at isNat inside
              have fits : offset.toNat + data.length ≤ memory.moduleData.length := by omega
              exact length_overwrite fits
          | elements object => rfl
      | elements target =>
          cases region with
          | moduleData => rfl
          | elements object =>
              simp only [Memory.write, Memory.cells] at inside ⊢
              rw [List.getElem?_modify]
              cases isObject : memory.objects[object]? with
              | none => rfl
              | some found =>
                  by_cases same : target = object
                  · subst same
                    rw [isObject] at inside
                    cases found with
                    | string text => simp [Object.overwrite]
                    | array elementSize length cells =>
                        simp only [Option.map_some, Option.getD_some, Object.cells] at isNat inside
                        simp only [Object.overwrite, Option.map_some, Option.getD_some,
                          Object.cells, Functor.map]
                        have fits : offset.toNat + data.length ≤ cells.length := by omega
                        exact length_overwrite fits
                  · simp [same]

theorem holds_write_iff (holds : memory.Holds address data.length) :
    (memory.write address data).Holds other size ↔ memory.Holds other size := by
  unfold Memory.Holds
  rw [length_cells_write holds]

theorem writes_write : (memory.write address data).writes = memory.writes ++ [⟨address, data⟩] := by
  unfold Memory.write
  cases address.region <;> rfl

theorem inside_write (holds : memory.Holds address data.length) (inside : memory.Inside) :
    (memory.write address data).Inside := by
  intro written member
  rw [writes_write, List.mem_append, List.mem_singleton] at member
  rw [holds_write_iff holds]
  rcases member with earlier | rfl
  · exact inside written earlier
  · exact holds

theorem holds_alloc (object : Object) (holds : memory.Holds address size) :
    (memory.alloc object).Holds address size := by
  obtain ⟨isNat, inside⟩ := holds
  refine ⟨isNat, ?_⟩
  cases address with
  | mk region offset =>
      cases region with
      | moduleData => exact inside
      | elements number =>
          simp only [Memory.cells, Memory.alloc] at inside ⊢
          rcases Nat.lt_or_ge number memory.objects.length with old | new
          · rwa [List.getElem?_append_left old]
          · rw [List.getElem?_eq_none new] at inside
            simp only [Option.map_none, Option.getD_none, List.length_nil] at inside
            omega

theorem inside_alloc (object : Object) (inside : memory.Inside) :
    (memory.alloc object).Inside :=
  fun written member => holds_alloc object (inside written member)

end Writes

section Data

variable {read : Stream → Option (List Cell × Stream)} {size : ℕ}

/-- Data from a number on. -/
def writeFrom (dataDest : Address) (size number : ℕ) (data : List (List Cell))
    (memory : Memory) : Memory :=
  (data.zipIdx number).foldl
    (fun memory datum => memory.write (dataDest.plus (datum.2 * size)) datum.1) memory

theorem plus_plus (address : Address) (first second : ℤ) :
    (address.plus first).plus second = address.plus (first + second) := by
  simp only [Address.plus, add_assoc]

/-- The address after a datum is the address of the next one. -/
theorem writeFrom_succ (dataDest : Address) (number : ℕ) (data : List (List Cell))
    (memory : Memory) :
    writeFrom dataDest size (number + 1) data memory =
      writeFrom (dataDest.plus size) size number data memory := by
  induction data generalizing number memory with
  | nil => rfl
  | cons datum data ih =>
      have address : dataDest.plus ((number + 1 : ℕ) * size) =
          (dataDest.plus size).plus (number * size) := by
        rw [plus_plus]
        congr 1
        push_cast
        ring
      simp only [writeFrom, List.zipIdx_cons, List.foldl_cons, address] at ih ⊢
      exact ih (number + 1) _

theorem plus_zero (address : Address) : address.plus 0 = address := by
  simp only [Address.plus, add_zero]

theorem writeData_cons (dataDest : Address) (datum : List Cell) (data : List (List Cell))
    (memory : Memory) :
    writeData dataDest size (datum :: data) memory =
      writeData (dataDest.plus size) size data (memory.write dataDest datum) := by
  have next : writeFrom dataDest size 1 data (memory.write dataDest datum) =
      writeFrom (dataDest.plus size) size 0 data (memory.write dataDest datum) :=
    writeFrom_succ dataDest 0 data (memory.write dataDest datum)
  simp only [writeFrom] at next
  have here : dataDest.plus (((0 : ℕ) : ℤ) * size) = dataDest := by
    rw [Nat.cast_zero, zero_mul, plus_zero]
  simp only [writeData, List.zipIdx_cons, List.foldl_cons, Nat.zero_add, here]
  exact next

/-- The first datum and the rest are in the block exactly when all are. -/
theorem holds_and_fits_iff (memory : Memory) (dataDest : Address) (data : List (List Cell))
    {datum : List Cell} (isSize : datum.length = size) :
    memory.Holds dataDest datum.length ∧
        Fits (memory.write dataDest datum) (dataDest.plus size) size data ↔
      Fits memory dataDest size (datum :: data) := by
  have total : (datum :: data).length * size = size + data.length * size := by
    rw [List.length_cons, Nat.add_mul, Nat.one_mul, Nat.add_comm]
  simp only [Fits, reduceCtorEq, false_or, total]
  rw [isSize]
  constructor
  · rintro ⟨first, rfl | rest⟩
    · simpa using first
    · rw [← isSize] at first
      rw [holds_write_iff first] at rest
      rw [isSize] at first
      simp only [Memory.Holds, Address.plus] at first rest ⊢
      omega
  · intro all
    have first : memory.Holds dataDest size := by
      simp only [Memory.Holds] at all ⊢
      omega
    refine ⟨first, .inr ?_⟩
    rw [← isSize] at first
    rw [holds_write_iff first]
    simp only [Memory.Holds, Address.plus] at all ⊢
    omega

/-- The loop writes the data of the format if they fit, and goes out of the block otherwise. -/
theorem dataLoop_eq (sizes : ∀ reader datum rest, read reader = some (datum, rest) →
      datum.length = size) (config : Config) (count : ℕ) (dataDest : Address) (reader : Stream)
    (memory : Memory) :
    dataLoop read config count dataDest reader memory =
      if Fits memory dataDest size (readData read count reader).1 then
        match (readData read count reader).2 with
        | none => .thrown (writeData dataDest size (readData read count reader).1 memory)
        | some rest => .reading { config with
            reader := rest
            memory := writeData dataDest size (readData read count reader).1 memory }
      else .undefined := by
  induction count generalizing dataDest reader memory with
  | zero => simp [dataLoop, readData, Fits, writeData]
  | succ count ih =>
      cases isRead : read reader with
      | none => simp [dataLoop, readData, isRead, Fits, writeData]
      | some result =>
          obtain ⟨datum, rest⟩ := result
          have isSize := sizes reader datum rest isRead
          simp only [dataLoop, readData, isRead, writeData_cons]
          rw [isSize, ih]
          have split := holds_and_fits_iff memory dataDest (readData read count rest).1 isSize
          rw [isSize] at split
          by_cases first : memory.Holds dataDest size
          · rw [if_pos first]
            simp only [← split, first, true_and]
          · rw [if_neg first, if_neg]
            exact fun all => first (split.mpr all).1

theorem size_readByte (reader : Stream) (datum : List Cell) (rest : Stream)
    (read : readByte reader = some (datum, rest)) : datum.length = 1 := by
  cases reader with
  | nil => cases read
  | cons byte reader =>
      cases read
      rfl

theorem length_hostBytes (bytes : ℕ) (value : BitVec width) :
    (hostBytes bytes value).length = bytes := by
  simp [hostBytes]

theorem size_readWord (reader : Stream) (datum : List Cell) (rest : Stream)
    (read : readWord reader = some (datum, rest)) : datum.length = 4 := by
  obtain ⟨⟨word, after⟩, -, isDatum⟩ := Option.map_eq_some_iff.mp read
  cases isDatum
  exact length_hostBytes 4 word

theorem size_readSegment (reader : Stream) (datum : List Cell)
    (rest : Stream) (read : readSegment reader = some (datum, rest)) :
    datum.length = 8 := by
  obtain ⟨⟨first, afterFirst⟩, -, read⟩ := Option.bind_eq_some_iff.mp read
  obtain ⟨⟨second, afterSecond⟩, -, isDatum⟩ := Option.bind_eq_some_iff.mp read
  cases isDatum
  exact length_hostBytes 8 _

end Data

section Items

variable {setting : Setting} {config : Config} {dataDest : Address}

theorem data_eq_iff {read : Stream → Option (List Cell × Stream)} {size : ℕ}
    (sizes : ∀ reader datum rest, read reader = some (datum, rest) → datum.length = size)
    (count : ℕ) :
    dataLoop read config count dataDest config.reader config.memory =
        prescribedData read size count dataDest config ↔
      SoundData read size count dataDest config := by
  rw [dataLoop_eq sizes]
  unfold prescribedData SoundData
  by_cases fits : Fits config.memory dataDest size (readData read count config.reader).1
  · rw [if_pos fits, if_pos fits]
    exact iff_of_true rfl fits
  · rw [if_neg fits, if_neg fits]
    exact iff_of_false State.noConfusion fits

theorem object_eq_iff (object : Object) (reader : Stream) :
    storeObject object dataDest reader config = prescribedObject object dataDest reader config ↔
      config.memory.Holds dataDest pointerSize := by
  unfold storeObject prescribedObject
  split_ifs with holds
  · exact iff_of_true rfl holds
  · exact iff_of_false (fun same => by cases same) holds

theorem string_eq_iff (count : ℕ) :
    utfString count dataDest config = prescribedString count dataDest config ↔
      SoundString count dataDest config := by
  unfold utfString prescribedString SoundString
  cases isRead : getNextBytes count config.reader with
  | none => simp
  | some read =>
      obtain ⟨text, reader⟩ := read
      cases isText : VmString.ofUtf8 text with
      | error exception => simp [isText, Except.isOk, Except.toBool]
      | ok string =>
          have isOk : (VmString.ofUtf8 text).isOk = true := by rw [isText]; rfl
          simp only [isText]
          refine (object_eq_iff _ _).trans ⟨fun holds _ _ _ _ => holds, fun sound => ?_⟩
          exact sound text reader rfl isOk

theorem array_eq_iff :
    array setting dataDest config = prescribedArray setting dataDest config ↔
      SoundArray setting dataDest config := by
  unfold array prescribedArray SoundArray readArray
  cases isType : readNextWord config.reader with
  | none => simp
  | some typeRead =>
      obtain ⟨elementType, afterType⟩ := typeRead
      cases isCount : readNextWord afterType with
      | none => simp [isCount]
      | some countRead =>
          obtain ⟨elementCount, reader⟩ := countRead
          cases isDescriptor : setting.typeAt elementType with
          | none => simp [isCount, isDescriptor]
          | some type =>
              by_cases isAllocated : setting.allocates
                (asSize (elementCount.toInt * type.sizeInBytes.toInt))
              · simp [isCount, isDescriptor, isAllocated, object_eq_iff]
              · simp [isCount, isDescriptor, isAllocated]

theorem setArray_eq_iff :
    setArray dataDest config = prescribedSetArray dataDest config ↔
      SoundSetArray dataDest config := by
  unfold setArray prescribedSetArray SoundSetArray selected
  cases isPointer : config.memory.pointerAt dataDest with
  | none => simp
  | some object =>
      cases isObject : config.memory.objects[object]? with
      | none => simp [isObject]
      | some found =>
          cases found with
          | string text => simp [isObject]
          | array elementSize length cells =>
              cases isIndex : readNextWord config.reader with
              | none =>
                  have noIndex : readIndex length config = none := by
                    simp [readIndex, isIndex]
                  simp [isObject, noIndex]
              | some indexRead =>
                  obtain ⟨arrayIndex, reader⟩ := indexRead
                  by_cases valid : 0 ≤ arrayIndex.toInt ∧ arrayIndex.toInt < length.toInt ∧
                      config.arrayStack.length < arrayAddressStackSize
                  · have accepted : ¬ (arrayIndex.toInt < 0 ∨ length.toInt ≤ arrayIndex.toInt ∨
                        arrayAddressStackSize ≤ config.arrayStack.length) := by omega
                    have index : readIndex length config =
                        some (arrayIndex.toInt, reader) := by
                      simp [readIndex, isIndex, valid]
                    simp [isObject, accepted, index, arrayTypeSize, eq_comm]
                  · have rejected : arrayIndex.toInt < 0 ∨ length.toInt ≤ arrayIndex.toInt ∨
                        arrayAddressStackSize ≤ config.arrayStack.length := by omega
                    have noIndex : readIndex length config = none := by
                      unfold readIndex
                      rw [isIndex]
                      exact if_neg valid
                    simp [isObject, rejected, noIndex]

/-- The reader does to an item what the format says exactly if the item is sound. -/
theorem item_eq_iff (config : Config) :
    readDataItem setting config = prescribedItem setting config ↔ SoundItem setting config := by
  unfold readDataItem prescribedItem SoundItem
  cases readHeader config.reader with
  | failed => exact iff_of_true rfl trivial
  | last reader => exact iff_of_true rfl trivial
  | item item reader =>
      cases item with
      | mk type count byteOffset =>
          cases type with
          | none => exact iff_of_true rfl trivial
          | some type =>
              cases type with
              | valueBit8 => exact data_eq_iff size_readByte count
              | valueBit32 => exact data_eq_iff size_readWord count
              | utfString => exact string_eq_iff count
              | valueReal64 => exact data_eq_iff size_readSegment count
              | array => exact array_eq_iff
              | setArray => exact setArray_eq_iff
              | restoreLoadAddress => exact iff_of_true rfl trivial
              | valueBit64 => exact data_eq_iff size_readSegment count

theorem start_eq_iff (reader : Stream) :
    start setting reader = prescribedStart setting reader ↔ SoundStart setting := by
  unfold prescribedStart SoundStart start
  by_cases empty : setting.dataSize = 0
  · simp only [if_pos empty]
    exact iff_of_true trivial (.inl empty)
  · simp only [if_neg empty]
    cases setting.typeAt 0 with
    | none =>
        refine iff_of_false (fun same => by cases same) ?_
        exact not_or.mpr ⟨empty, Bool.false_ne_true⟩
    | some type =>
        refine iff_of_true ?_ (.inr rfl)
        simp only
        split_ifs <;> rfl

end Items

section Written

/-- Something is known of the memory, and all writes are in their blocks. -/
def Settled (state : State) : Prop :=
  ∃ memory, state.memory = some memory ∧ memory.Inside

theorem inside_writeData {dataDest : Address} {size : ℕ} {data : List (List Cell)}
    {memory : Memory} (sizes : ∀ datum ∈ data, datum.length = size)
    (fits : Fits memory dataDest size data) (inside : memory.Inside) :
    (writeData dataDest size data memory).Inside := by
  induction data generalizing dataDest memory with
  | nil => exact inside
  | cons datum data ih =>
      obtain ⟨isSize, others⟩ := List.forall_mem_cons.mp sizes
      obtain ⟨first, rest⟩ := (holds_and_fits_iff memory dataDest data isSize).mpr fits
      rw [writeData_cons]
      exact ih others rest (inside_write first inside)

theorem sizes_readData {read : Stream → Option (List Cell × Stream)} {size : ℕ}
    (sizes : ∀ reader datum rest, read reader = some (datum, rest) → datum.length = size)
    (count : ℕ) (reader : Stream) :
    ∀ datum ∈ (readData read count reader).1, datum.length = size := by
  induction count generalizing reader with
  | zero => simp [readData]
  | succ count ih =>
      cases isRead : read reader with
      | none => simp [readData, isRead]
      | some result =>
          simp only [readData, isRead, List.forall_mem_cons]
          exact ⟨sizes reader result.1 result.2 isRead, ih result.2⟩

variable {setting : Setting} {config : Config} {dataDest : Address}

theorem settled_data {read : Stream → Option (List Cell × Stream)} {size : ℕ}
    (sizes : ∀ reader datum rest, read reader = some (datum, rest) → datum.length = size)
    (count : ℕ) (inside : config.memory.Inside) :
    Settled (prescribedData read size count dataDest config) := by
  unfold prescribedData
  simp only
  split_ifs with fits
  · have written := inside_writeData (sizes_readData sizes count config.reader) fits inside
    cases (readData read count config.reader).2 with
    | none => exact ⟨_, rfl, written⟩
    | some reader => exact ⟨_, rfl, written⟩
  · exact ⟨_, rfl, inside⟩

theorem settled_object (object : Object) (reader : Stream) (inside : config.memory.Inside) :
    Settled (prescribedObject object dataDest reader config) := by
  unfold prescribedObject
  split_ifs with holds
  · refine ⟨_, rfl, inside_write ?_ (inside_alloc object inside)⟩
    rw [pointerCells, List.length_map, List.length_range]
    exact holds_alloc object holds
  · exact ⟨_, rfl, inside⟩

theorem settled_item (inside : config.memory.Inside) :
    Settled (prescribedItem setting config) := by
  have kept : Settled (.thrown config.memory) := ⟨_, rfl, inside⟩
  unfold prescribedItem
  cases readHeader config.reader with
  | failed => exact kept
  | last reader => exact ⟨_, rfl, inside⟩
  | item item reader =>
      cases item with
      | mk type count byteOffset =>
          cases type with
          | none => exact kept
          | some type =>
              cases type with
              | valueBit8 => exact settled_data size_readByte count inside
              | valueBit32 => exact settled_data size_readWord count inside
              | utfString =>
                  simp only [prescribedString]
                  split
                  · exact kept
                  · split_ifs
                    · exact settled_object _ _ inside
                    · exact kept
              | valueReal64 => exact settled_data size_readSegment count inside
              | array =>
                  simp only [prescribedArray]
                  split
                  · exact kept
                  · split
                    · exact kept
                    · split_ifs
                      · exact settled_object _ _ inside
                      · exact kept
              | setArray =>
                  simp only [prescribedSetArray]
                  split
                  · split
                    · exact kept
                    · exact ⟨_, rfl, inside⟩
                  · exact kept
              | restoreLoadAddress =>
                  simp only [restoreLoadAddress]
                  split
                  · exact kept
                  · exact ⟨_, rfl, inside⟩
              | valueBit64 => exact settled_data size_readSegment count inside

theorem settled_start (setting : Setting) (reader : Stream) :
    Settled (prescribedStart setting reader) := by
  have fresh : ∀ cells, (⟨cells, [], []⟩ : Memory).Inside := fun _ _ member => nomatch member
  unfold prescribedStart start
  by_cases empty : setting.dataSize = 0
  · simp only [if_pos empty]
    exact ⟨_, rfl, fresh _⟩
  · simp only [if_neg empty]
    cases setting.typeAt 0 with
    | none => exact ⟨_, rfl, fresh _⟩
    | some type =>
        simp only
        split_ifs <;> exact ⟨_, rfl, fresh _⟩

theorem settled_prescribed (setting : Setting) (reader : Stream) (items : ℕ) :
    Settled (prescribed setting reader items) := by
  apply turns_invariant Settled
  · rintro config ⟨memory, isMemory, inside⟩
    cases isMemory
    exact settled_item inside
  · exact settled_start setting reader

end Written

section Ends

variable {setting : Setting} {config next : Config}

theorem readHeader_shorter {reader rest : Stream} {item : Item}
    (isItem : readHeader reader = .item item rest) : rest.length < reader.length := by
  unfold readHeader at isItem
  split at isItem
  · cases isItem
  next buffer afterCode isCode =>
    have coded := getNextBytes_shorter Nat.one_pos isCode
    dsimp only at isItem
    split at isItem
    · cases isItem
    · split at isItem
      · cases isItem
      next count afterCount isCount =>
        have counted : afterCount.length ≤ afterCode.length := by
          split at isCount
          · exact (readNextOperand_shorter isCount).le
          · cases isCount
            exact le_refl _
        split at isItem
        · cases isItem
        next byteOffset afterOffset isOffset =>
          cases isItem
          exact ((readNextOperand_shorter isOffset).trans_le counted).trans coded

theorem dataLoop_shortens {read : Stream → Option (List Cell × Stream)}
    (shortens : ∀ reader datum rest, read reader = some (datum, rest) →
      rest.length ≤ reader.length) {count : ℕ} {dataDest : Address} {reader : Stream}
    {memory : Memory} (loops : dataLoop read config count dataDest reader memory = .reading next) :
    next.reader.length ≤ reader.length := by
  induction count generalizing dataDest reader memory with
  | zero =>
      cases loops
      exact le_refl _
  | succ count ih =>
      rw [dataLoop] at loops
      split at loops
      · cases loops
      next datum rest isRead =>
        split_ifs at loops
        exact (ih loops).trans (shortens reader datum rest isRead)

theorem readByte_shortens (reader : Stream) (datum : List Cell) (rest : Stream)
    (read : readByte reader = some (datum, rest)) : rest.length ≤ reader.length := by
  cases reader with
  | nil => cases read
  | cons byte reader =>
      cases read
      exact Nat.le_succ _

theorem readWord_shortens (reader : Stream) (datum : List Cell)
    (rest : Stream) (read : readWord reader = some (datum, rest)) :
    rest.length ≤ reader.length := by
  obtain ⟨⟨word, after⟩, isWord, isDatum⟩ := Option.map_eq_some_iff.mp read
  cases isDatum
  exact (readNextWord_shorter isWord).le

theorem readSegment_shortens (reader : Stream) (datum : List Cell)
    (rest : Stream) (read : readSegment reader = some (datum, rest)) :
    rest.length ≤ reader.length := by
  obtain ⟨⟨first, afterFirst⟩, isFirst, read⟩ := Option.bind_eq_some_iff.mp read
  obtain ⟨⟨second, afterSecond⟩, isSecond, isDatum⟩ := Option.bind_eq_some_iff.mp read
  cases isDatum
  exact (readNextWord_shorter isSecond).le.trans (readNextWord_shorter isFirst).le

theorem storeObject_reader {object : Object} {dataDest : Address} {reader : Stream}
    (stored : storeObject object dataDest reader config = .reading next) :
    next.reader = reader := by
  unfold storeObject at stored
  split_ifs at stored
  cases stored
  rfl

/-- An item takes bytes from the stream. -/
theorem readDataItem_shorter (isItem : readDataItem setting config = .reading next) :
    next.reader.length < config.reader.length := by
  unfold readDataItem at isItem
  cases isHeader : readHeader config.reader with
  | failed =>
      rw [isHeader] at isItem
      cases isItem
  | last reader =>
      rw [isHeader] at isItem
      cases isItem
  | item item reader =>
      rw [isHeader] at isItem
      refine lt_of_le_of_lt ?_ (readHeader_shorter isHeader)
      simp only at isItem
      split at isItem
      · exact dataLoop_shortens readByte_shortens isItem
      · exact dataLoop_shortens readWord_shortens isItem
      · unfold utfString at isItem
        split at isItem
        · cases isItem
        next strBuffer afterText isText =>
          obtain ⟨-, isSplit⟩ := eq_of_getNextBytes isText
          split at isItem
          · cases isItem
          · rw [storeObject_reader isItem, show reader = strBuffer ++ afterText from isSplit,
              List.length_append]
            exact Nat.le_add_left _ _
      · exact dataLoop_shortens readSegment_shortens isItem
      · exact dataLoop_shortens readSegment_shortens isItem
      · unfold array at isItem
        simp only [Bool.true_eq_false, and_false, if_false] at isItem
        split at isItem
        · cases isItem
        next elementType afterType isType =>
          split at isItem
          · cases isItem
          next elementCount afterCount isCount =>
            split at isItem
            · cases isItem
            · split_ifs at isItem
              rw [storeObject_reader isItem]
              exact (readNextWord_shorter isCount).le.trans (readNextWord_shorter isType).le
      · unfold setArray at isItem
        split at isItem
        · cases isItem
        · split at isItem
          · cases isItem
          · cases isItem
          · split at isItem
            · cases isItem
            next arrayIndex afterIndex isIndex =>
              split_ifs at isItem
              cases isItem
              exact (readNextWord_shorter isIndex).le
      · unfold restoreLoadAddress at isItem
        split at isItem
        · cases isItem
        · cases isItem
          exact le_refl _
      · cases isItem

/-- Every turn takes a byte. -/
theorem readings_shorten (items : ℕ) {state : State}
    (isReading : turns (readDataItem setting) items state = .reading next) :
    ∃ first, state = .reading first ∧ items + next.reader.length ≤ first.reader.length := by
  induction items generalizing state with
  | zero => exact ⟨next, isReading, by omega⟩
  | succ items ih =>
      cases state with
      | reading first =>
          obtain ⟨second, isSecond, shorter⟩ := ih isReading
          have taken := readDataItem_shorter isSecond
          exact ⟨first, rfl, by omega⟩
      | finished memory reader => cases isReading
      | thrown memory => cases isReading
      | undefined => cases isReading

/-- The loop ends before there are more items than bytes. -/
theorem readDataSection_ends (setting : Setting) (reader : Stream) (config : Config) :
    readDataSection setting reader (reader.length + 1) ≠ .reading config := by
  intro isReading
  obtain ⟨first, isFirst, shorter⟩ := readings_shorten (reader.length + 1) isReading
  have atStart : first.reader = reader := by
    unfold start at isFirst
    by_cases empty : setting.dataSize = 0
    · rw [if_pos empty] at isFirst
      cases isFirst
      rfl
    · rw [if_neg empty] at isFirst
      cases isType : setting.typeAt 0 with
      | none =>
          rw [isType] at isFirst
          cases isFirst
      | some type =>
          rw [isType] at isFirst
          simp only at isFirst
          split_ifs at isFirst
          cases isFirst
          rfl
  rw [atStart] at shorter
  omega

end Ends

/-- Module data with a type of words. -/
def wordsSetting : Setting where
  typeSection := [some ⟨8, [0x80]⟩, some ⟨4, []⟩]
  typeSize := 2
  dataSize := 8
  allocates _ := true

/-- An array of two words at 0, with 7 in its second element. -/
def secondElement : Stream :=
  [0x51, 0, 0, 0, 0, 1, 0, 0, 0, 2, 0x61, 0, 0, 0, 0, 1, 0x21, 0, 0, 0, 0, 7, 0x71, 0, 0]

end Disvm.DataSection
