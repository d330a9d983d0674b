import Disvm.ModuleOperands
import Disvm.VmString

/-!
# The data section

The items of the data section put data into the module data and into arrays.  An item that
selects an element of an array moves the address to which later offsets are added; the reader
computes it with the size of arrays themselves, and checks neither offsets nor element types.
-/

namespace Disvm.DataSection

open ModuleReader Strings

/-- A block that items write to: the module data or the elements of an array. -/
inductive Region where
  | moduleData
  | elements (object : ℕ)
  deriving DecidableEq

structure Address where
  region : Region
  offset : ℤ
  deriving DecidableEq

def Address.plus (address : Address) (bytes : ℤ) : Address :=
  { address with offset := address.offset + bytes }

/-- A byte of a block, or of a pointer to an object that has been read. -/
inductive Cell where
  | byte (value : UInt8)
  | pointer (object part : ℕ)
  deriving DecidableEq

/-- An object that has been read; arrays with the size of their element type. -/
inductive Object where
  | string (text : List UInt8)
  | array (elementSize length : Word) (cells : List Cell)
  deriving DecidableEq

structure Write where
  address : Address
  data : List Cell
  deriving DecidableEq

/-- The blocks, and the writes that have been made to them. -/
structure Memory where
  moduleData : List Cell
  objects : List Object
  writes : List Write
  deriving DecidableEq

def Object.cells : Object → List Cell
  | .string _ => []
  | .array _ _ cells => cells

def overwrite (cells : List Cell) (offset : ℕ) (data : List Cell) : List Cell :=
  cells.take offset ++ data ++ cells.drop (offset + data.length)

def Object.overwrite (object : Object) (offset : ℕ) (data : List Cell) : Object :=
  match object with
  | .string text => .string text
  | .array elementSize length cells =>
      .array elementSize length (DataSection.overwrite cells offset data)

namespace Memory

def cells (memory : Memory) : Region → List Cell
  | .moduleData => memory.moduleData
  | .elements object => ((memory.objects[object]?).map Object.cells).getD []

/-- An extent that lies in its block. -/
def Holds (memory : Memory) (address : Address) (size : ℕ) : Prop :=
  0 ≤ address.offset ∧ address.offset + size ≤ (memory.cells address.region).length

instance (memory : Memory) (address : Address) (size : ℕ) :
    Decidable (memory.Holds address size) :=
  inferInstanceAs (Decidable (_ ∧ _))

def write (memory : Memory) (address : Address) (data : List Cell) : Memory :=
  let writes := memory.writes ++ [⟨address, data⟩]
  match address.region with
  | .moduleData =>
      { memory with
        moduleData := overwrite memory.moduleData address.offset.toNat data
        writes := writes }
  | .elements object =>
      { memory with
        objects := memory.objects.modify object (·.overwrite address.offset.toNat data)
        writes := writes }

/-- A new object; it has the next number. -/
def alloc (memory : Memory) (object : Object) : Memory :=
  { memory with objects := memory.objects ++ [object] }

end Memory

/-- `sizeof(pointer_t)`. -/
def pointerSize : ℕ := 4

def pointerCells (object : ℕ) : List Cell :=
  (List.range pointerSize).map (Cell.pointer object)

/-- The object that the pointer at an address is to.  Nothing is known of other bytes, and none
are read outside of a block. -/
def Memory.pointerAt (memory : Memory) (address : Address) : Option ℕ :=
  if memory.Holds address pointerSize then
    let found := ((memory.cells address.region).drop address.offset.toNat).take pointerSize
    match found with
    | .pointer object _ :: _ => if found = pointerCells object then some object else none
    | _ => none
  else none

/-- `datum_type_t`. -/
inductive DatumType where
  | valueBit8
  | valueBit32
  | utfString
  | valueReal64
  | array
  | setArray
  | restoreLoadAddress
  | valueBit64
  deriving DecidableEq

def DatumType.ofCode (code : ℕ) : Option DatumType :=
  match code with
  | 1 => some .valueBit8
  | 2 => some .valueBit32
  | 3 => some .utfString
  | 4 => some .valueReal64
  | 5 => some .array
  | 6 => some .setArray
  | 7 => some .restoreLoadAddress
  | 8 => some .valueBit64
  | _ => none

structure Item where
  type : Option DatumType
  count : ℕ
  byteOffset : ℤ
  deriving DecidableEq

inductive Header where
  /-- A read has failed. -/
  | failed
  /-- The code is 0. -/
  | last (reader : Stream)
  | item (item : Item) (reader : Stream)
  deriving DecidableEq

/-- The bytes of a value on the host, the least one first. -/
def hostBytes (bytes : ℕ) (value : BitVec width) : List Cell :=
  (List.range bytes).map fun index =>
    .byte (UInt8.ofNat ((value >>> (8 * index)).toNat % 256))

/-- `type_descriptor_t`. -/
structure TypeDescriptor where
  sizeInBytes : Word
  pointerMap : List UInt8
  deriving DecidableEq

/-- `array_address_stack_size`. -/
def arrayAddressStackSize : ℕ := 4

/-- The size in the intrinsic descriptor of arrays. -/
def arrayTypeSize : ℤ := 0

/-- `vm_alloc_t`, as far as its size goes. -/
def allocHeaderSize : ℕ := 16

/-- A size as an argument of `alloc_memory`. -/
def asSize (bytes : ℤ) : ℕ :=
  (bytes % 2 ^ 32).toNat

/-- What the reader has between two items. -/
structure Config where
  reader : Stream
  base : Address
  /-- `array_stack`, the last one first. -/
  arrayStack : List Address
  memory : Memory
  deriving DecidableEq

inductive State where
  | reading (config : Config)
  | finished (memory : Memory) (reader : Stream)
  | thrown (memory : Memory)
  /-- Memory has been accessed outside of the blocks. -/
  | undefined
  deriving DecidableEq

/-- The module as far as it has been read, the allocator and the bytes on the stack. -/
structure Setting where
  /-- `type_section`, with nil where no type has the number. -/
  typeSection : List (Option TypeDescriptor)
  /-- `header.type_size`. -/
  typeSize : Word
  /-- `header.data_size`. -/
  dataSize : Word
  /-- The sizes that `alloc_memory` does not throw for. -/
  allocates : ℕ → Bool

/-- A descriptor of the type section, unless there is none. -/
def Setting.typeAt (setting : Setting) (number : Word) : Option TypeDescriptor :=
  if number.toInt < 0 then none else (setting.typeSection[number.toInt.toNat]?).join

section Reader

variable (setting : Setting)

def readHeader (reader : Stream) : Header :=
  match getNextBytes 1 reader with
  | none => .failed
  | some (buffer, reader) =>
      let code := buffer.getD 0 0
      if code = 0 then .last reader
      else
        let type := DatumType.ofCode ((code &&& 0xf0) >>> 4).toNat
        let count := (code &&& 0x0f).toNat
        match if count = 0 then readNextOperand reader
          else some (BitVec.ofNat 32 count, reader) with
        | none => .failed
        | some (count, reader) =>
            match readNextOperand reader with
            | none => .failed
            | some (byteOffset, reader) => .item ⟨type, count.toNat, byteOffset.toInt⟩ reader

def readByte (reader : Stream) : Option (List Cell × Stream) :=
  (getNext .nextByte reader).map fun (byte, reader) => (byte.map Cell.byte, reader)

def readWord (reader : Stream) : Option (List Cell × Stream) :=
  (readNextWord reader).map fun (word, reader) => (hostBytes 4 word, reader)

/-- A turn of `read_8byte_segments`: the words of a real and of a big are put together alike. -/
def readSegment (reader : Stream) : Option (List Cell × Stream) := do
  let (first, reader) ← readNextWord reader
  let (second, reader) ← readNextWord reader
  let b : BitVec 64 := first.signExtend 64 <<< 32 ||| second.setWidth 64
  return (hostBytes 8 b, reader)

/-- The loops over the data of an item. -/
def dataLoop (read : Stream → Option (List Cell × Stream)) (config : Config) :
    (count : ℕ) → (dataDest : Address) → Stream → Memory → State
  | 0, _, reader, memory => .reading { config with reader := reader, memory := memory }
  | count + 1, dataDest, reader, memory =>
      match read reader with
      | none => .thrown memory
      | some (data, reader) =>
          if memory.Holds dataDest data.length then
            dataLoop read config count (dataDest.plus data.length) reader
              (memory.write dataDest data)
          else .undefined

/-- A pointer to a new object. -/
def storeObject (object : Object) (dataDest : Address) (reader : Stream) (config : Config) :
    State :=
  if config.memory.Holds dataDest pointerSize then
    .reading { config with
      reader := reader
      memory := (config.memory.alloc object).write dataDest
        (pointerCells config.memory.objects.length) }
  else .undefined

def utfString (count : ℕ) (dataDest : Address) (config : Config) : State :=
  match getNextBytes count config.reader with
  | none => .thrown config.memory
  | some (strBuffer, reader) =>
      match VmString.ofUtf8 strBuffer with
      | .error _ => .thrown config.memory
      | .ok _ => storeObject (.string strBuffer) dataDest reader config

def array (dataDest : Address) (config : Config) : State :=
  match readNextWord config.reader with
  | none => .thrown config.memory
  | some (elementType, reader) =>
      let success := true
      if (elementType.toInt < 0 ∨ setting.typeSize.toInt < elementType.toInt) ∧
          success = false then
        .thrown config.memory
      else
        match readNextWord reader with
        | none => .thrown config.memory
        | some (elementCount, reader) =>
            match setting.typeAt elementType with
            | none => .undefined
            | some type =>
                let size := asSize (elementCount.toInt * type.sizeInBytes.toInt)
                if setting.allocates size = false then .thrown config.memory
                else
                  storeObject
                    (.array type.sizeInBytes elementCount (List.replicate size (.byte 0)))
                    dataDest reader config

def setArray (dataDest : Address) (config : Config) : State :=
  match config.memory.pointerAt dataDest with
  | none => .undefined
  | some object =>
      match config.memory.objects[object]? with
      | none => .undefined
      | some (.string _) => .thrown config.memory
      | some (.array _ length _) =>
          match readNextWord config.reader with
          | none => .thrown config.memory
          | some (arrayIndex, reader) =>
              if arrayIndex.toInt < 0 ∨ length.toInt ≤ arrayIndex.toInt ∨
                  arrayAddressStackSize ≤ config.arrayStack.length then
                .thrown config.memory
              else
                .reading { config with
                  reader := reader
                  base := ⟨.elements object, arrayIndex.toInt * arrayTypeSize⟩
                  arrayStack := config.base :: config.arrayStack }

def restoreLoadAddress (config : Config) : State :=
  match config.arrayStack with
  | [] => .thrown config.memory
  | base :: arrayStack => .reading { config with base := base, arrayStack := arrayStack }

/-- One turn of the loop of `read_data_section`. -/
def readDataItem (config : Config) : State :=
  match readHeader config.reader with
  | .failed => .thrown config.memory
  | .last reader => .finished config.memory reader
  | .item item reader =>
      let config := { config with reader := reader }
      let dataDest := config.base.plus item.byteOffset
      match item.type with
      | some .valueBit8 => dataLoop readByte config item.count dataDest reader config.memory
      | some .valueBit32 =>
          dataLoop readWord config item.count dataDest reader config.memory
      | some .utfString => utfString item.count dataDest config
      | some .valueReal64 | some .valueBit64 =>
          dataLoop readSegment config item.count dataDest reader config.memory
      | some .array => array setting dataDest config
      | some .setArray => setArray dataDest config
      | some .restoreLoadAddress => restoreLoadAddress config
      | none => .thrown config.memory

def noMemory : Memory :=
  ⟨[], [], []⟩

/-- `read_data_section` before its loop.  Without data the block is nil. -/
def start (reader : Stream) : State :=
  if setting.dataSize = 0 then .reading ⟨reader, ⟨.moduleData, 0⟩, [], noMemory⟩
  else
    match setting.typeAt 0 with
    | none => .undefined
    | some vmModuleType =>
        if vmModuleType.sizeInBytes ≠ setting.dataSize then .thrown noMemory
        else if setting.dataSize.toInt ≤ 0 then .thrown noMemory
        else if setting.allocates (allocHeaderSize + setting.dataSize.toNat) = false then
          .thrown noMemory
        else
          .reading ⟨reader, ⟨.moduleData, 0⟩, [],
            ⟨List.replicate setting.dataSize.toNat (.byte 0), [], []⟩⟩

end Reader

/-- Some turns of a loop. -/
def turns (turn : Config → State) : ℕ → State → State
  | 0, state => state
  | count + 1, .reading config => turns turn count (turn config)
  | _ + 1, state => state

/-- `read_data_section` after some items. -/
def readDataSection (setting : Setting) (reader : Stream) (items : ℕ) : State :=
  turns (readDataItem setting) items (start setting reader)

end Disvm.DataSection
