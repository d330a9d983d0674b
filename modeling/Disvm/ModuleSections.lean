import Disvm.DataFormat

/-!
# The reader of modules

The sections of a module, read one after the other.
-/

namespace Disvm.ModuleReader

open Strings DataSection

/-- What a reader does with a stream. -/
inductive Outcome (Value : Type) where
  | ok (value : Value) (reader : Stream)
  | thrown
  /-- Memory has been accessed outside of a table. -/
  | undefined

def Parse (Value : Type) := Stream → Outcome Value

def Outcome.next {Value Next : Type} (outcome : Outcome Value) (next : Value → Parse Next) :
    Outcome Next :=
  match outcome with
  | .ok value reader => next value reader
  | .thrown => .thrown
  | .undefined => .undefined

instance : Monad Parse where
  pure value := fun reader => .ok value reader
  bind parse next := fun reader => (parse reader).next next

namespace Parse

variable {Value : Type}

/-- An exception. -/
def fail : Parse Value := fun _ => .thrown

def undefined : Parse Value := fun _ => .undefined

/-- A read that throws when it fails. -/
def ofRead (read : Stream → Option (Value × Stream)) : Parse Value := fun reader =>
  match read reader with
  | none => .thrown
  | some (value, reader) => .ok value reader

/-- The turns of a counting loop. -/
def times (turn : Parse Value) : ℕ → Parse (List Value)
  | 0 => pure []
  | count + 1 => do
      let value ← turn
      let values ← times turn count
      return value :: values

/-- A table that is reserved first; there is none with less than no entry. -/
def counted (count : Word) (turn : Parse Value) : Parse (List Value) :=
  if count.toInt < 0 then fail else times turn count.toInt.toNat

end Parse

/-- `address_mode_middle_t`. -/
inductive AddressModeMiddle where
  | none
  | smallImmediate
  | smallOffsetIndirectFp
  | smallOffsetIndirectMp
  deriving DecidableEq

/-- `address_mode_t`. -/
inductive AddressMode where
  | offsetIndirectMp
  | offsetIndirectFp
  | immediate
  | none
  | offsetDoubleIndirectMp
  | offsetDoubleIndirectFp
  | reserved1
  | reserved2
  deriving DecidableEq

def AddressModeMiddle.ofCode (code : ℕ) : AddressModeMiddle :=
  match code with
  | 0 => .none
  | 1 => .smallImmediate
  | 2 => .smallOffsetIndirectFp
  | _ => .smallOffsetIndirectMp

def AddressMode.ofCode (code : ℕ) : AddressMode :=
  match code with
  | 0 => .offsetIndirectMp
  | 1 => .offsetIndirectFp
  | 2 => .immediate
  | 3 => .none
  | 4 => .offsetDoubleIndirectMp
  | 5 => .offsetDoubleIndirectFp
  | 6 => .reserved1
  | _ => .reserved2

/-- `middle_data_t`. -/
structure MiddleData where
  mode : AddressModeMiddle
  register1 : Word
  deriving DecidableEq

/-- `inst_data_generic_t`. -/
structure InstData where
  mode : AddressMode
  register1 : Word
  register2 : Word
  deriving DecidableEq

/-- `vm_exec_op_t`. -/
structure Instruction where
  opcode : UInt8
  addrCode : UInt8
  source : InstData
  middle : MiddleData
  destination : InstData
  deriving DecidableEq

/-- `header_t`. -/
structure ModuleHeader where
  magicNumber : Word
  signature : List UInt8
  runtimeFlag : Word
  stackExtent : Word
  codeSize : Word
  dataSize : Word
  typeSize : Word
  exportSize : Word
  entryPc : Word
  entryType : Word
  deriving DecidableEq

/-- `type_section`. -/
abbrev TypeSection := List (Option TypeDescriptor)

/-- `export_function_t`. -/
structure ExportFunction where
  pc : Word
  frameType : Word
  sig : Word
  name : VmString

/-- `import_function_t`. -/
structure ImportFunction where
  sig : Word
  name : VmString

/-- `exception_entry_t`. -/
structure ExceptionEntry where
  pc : Word
  name : Option VmString

/-- `handler_entry_t`. -/
structure HandlerEntry where
  exceptionOffset : Word
  beginPc : Word
  endPc : Word
  /-- `type_desc` and the number by which it was found. -/
  typeDesc : Option (Word × Option TypeDescriptor)
  exceptionTable : List ExceptionEntry
  exceptionTypeCount : Word

/-- `vm_module_t`. -/
structure VmModule where
  header : ModuleHeader
  codeSection : List Instruction
  typeSection : TypeSection
  /-- `original_mp` and the objects it refers to. -/
  originalMp : Memory
  moduleName : VmString
  /-- `export_section`, in the order of the entries. -/
  exportSection : List ExportFunction
  /-- `import_section`, the functions of each module. -/
  importSection : List (List ImportFunction)
  handlerSection : List HandlerEntry

def xmagic : Word := 819248
def smagic : Word := 923426

/-- `max_type_pointer_count`. -/
def maxTypePointerCount : ℤ := 128 * 1024

def noEntryPc : Word := -1
def noErrorHandleTypeDesc : Word := -1

/-- `runtime_flags_t`. -/
def hasImportDeprecated : Word := 16
def hasHandler : Word := 32
def hasImport : Word := 64

def hasFlag (flags flag : Word) : Prop :=
  flags &&& flag ≠ 0

instance (flags flag : Word) : Decidable (hasFlag flags flag) :=
  inferInstanceAs (Decidable (_ ≠ _))

section Sections

def readOperand : Parse Word :=
  .ofRead readNextOperand

/-- A read whose failure gives 0 at the end of the stream. -/
def readOperandUnchecked : Parse Word := fun reader =>
  match readNextOperand reader with
  | none => .ok 0 []
  | some (value, reader) => .ok value reader

def readWordOrThrow : Parse Word :=
  .ofRead readNextWord

/-- `get_next_bytes` that throws for less. -/
def readBytes (count : ℕ) : Parse (List UInt8) :=
  .ofRead (getNextBytes count)

/-- `get_bytes_until` a NUL. -/
def getBytesUntil (reader : Stream) : Option (List UInt8 × Stream) :=
  getNext (.bytesUntil 0) reader

/-- A string up to its NUL. -/
def readName : Parse VmString := do
  let stringBuffer ← Parse.ofRead getBytesUntil
  match VmString.ofUtf8 stringBuffer with
  | .error _ => .fail
  | .ok name => return name

/-- The byte after a table. -/
def readFinalByte : Parse Unit := do
  let value ← readBytes 1
  if value = [0] then return () else .fail

/-- The signature of a signed module. -/
def readSignature (magicNumber : Word) : Parse (List UInt8) := do
  if magicNumber = smagic then
    let length ← readOperand
    if length.toInt < 0 then .fail else readBytes length.toInt.toNat
  else if magicNumber = xmagic then return []
  else .fail

def readModuleHeader : Parse ModuleHeader := do
  let magicNumber ← readOperand
  let signature ← readSignature magicNumber
  let runtimeFlag ← readOperand
  let stackExtent ← readOperand
  let codeSize ← readOperand
  let dataSize ← readOperand
  let typeSize ← readOperand
  let exportSize ← readOperand
  let entryPc ← readOperand
  let entryType ← readOperand
  return {
    magicNumber, signature, runtimeFlag, stackExtent, codeSize, dataSize, typeSize, exportSize,
    entryPc, entryType }

/-- `convert_to_address_mode`. -/
def convertToAddressMode (instrAddrMode : UInt8) : AddressModeMiddle × AddressMode × AddressMode :=
  (.ofCode ((instrAddrMode &&& 0xc0) >>> 6).toNat, .ofCode ((instrAddrMode &&& 0x38) >>> 3).toNat,
    .ofCode (instrAddrMode &&& 0x07).toNat)

def readMiddleData (mode : AddressModeMiddle) : Parse MiddleData := do
  if mode = .none then return ⟨mode, 0⟩
  else
    let register1 ← readOperand
    return ⟨mode, register1⟩

def readInstData (mode : AddressMode) : Parse InstData := do
  if mode = .none then return ⟨mode, 0, 0⟩
  else
    let register1 ← readOperand
    if mode = .offsetDoubleIndirectFp ∨ mode = .offsetDoubleIndirectMp then
      let register2 ← readOperand
      return ⟨mode, register1, register2⟩
    else return ⟨mode, register1, 0⟩

def readInstruction : Parse Instruction := do
  let opAndAddrmode ← readBytes 2
  let opcode := opAndAddrmode.getD 0 0
  let addrCode := opAndAddrmode.getD 1 0
  let modes := convertToAddressMode addrCode
  let middle ← readMiddleData modes.1
  let source ← readInstData modes.2.1
  let destination ← readInstData modes.2.2
  return ⟨opcode, addrCode, source, middle, destination⟩

/-- `read_code_section`.  The program counter is compared as `size_t`. -/
def readCodeSection (header : ModuleHeader) : Parse (List Instruction) := do
  let codeSection ← Parse.counted header.codeSize readInstruction
  if header.entryPc ≠ noEntryPc ∧ codeSection.length ≤ header.entryPc.toNat then .fail
  else return codeSection

def readTypeDescriptor : Parse (Word × TypeDescriptor) := do
  let descNumber ← readOperand
  let size ← readOperand
  let mapInBytes ← readOperand
  if maxTypePointerCount < mapInBytes.toInt then .fail
  else if mapInBytes.toInt < 0 then .fail
  else
    let pointerMap ← readBytes mapInBytes.toInt.toNat
    return (descNumber, ⟨size, pointerMap⟩)

/-- The loop of `read_type_section`; the descriptor number is not checked. -/
def typeLoop : ℕ → TypeSection → Parse TypeSection
  | 0, typeSection => pure typeSection
  | count + 1, typeSection => do
      let (descNumber, type) ← readTypeDescriptor
      if descNumber.toInt < 0 ∨ typeSection.length ≤ descNumber.toInt.toNat then .undefined
      else typeLoop count (typeSection.set descNumber.toInt.toNat (some type))

def readTypeSection (header : ModuleHeader) : Parse TypeSection :=
  if header.typeSize.toInt < 0 then .fail
  else
    let typeCount := header.typeSize.toInt.toNat
    typeLoop typeCount (List.replicate typeCount none)

/-- The data section, until its loop ends. -/
def readData (setting : Setting) : Parse Memory := fun reader =>
  match readDataSection setting reader (reader.length + 1) with
  | .finished memory reader => .ok memory reader
  | .undefined => .undefined
  | _ => .thrown

def readExport : Parse ExportFunction := do
  let pc ← readOperand
  let frameType ← readOperand
  let sig ← readWordOrThrow
  let name ← readName
  return ⟨pc, frameType, sig, name⟩

def readLinkSection (header : ModuleHeader) : Parse (List ExportFunction) :=
  .counted header.exportSize readExport

def readImport : Parse ImportFunction := do
  let sig ← readWordOrThrow
  let name ← readName
  return ⟨sig, name⟩

def readImportModule : Parse (List ImportFunction) := do
  let funcImportCount ← readOperand
  Parse.counted funcImportCount readImport

def readImportSection : Parse (List (List ImportFunction)) := do
  let moduleImportCount ← readOperand
  let importSection ← Parse.counted moduleImportCount readImportModule
  readFinalByte
  return importSection

def readException : Parse ExceptionEntry := do
  let name ← readName
  let pc ← readOperand
  return ⟨pc, some name⟩

/-- The descriptor of a handler; its number is only asserted to be right. -/
def handlerType (typeSection : TypeSection) (typeDescNumber : Word) :
    Parse (Option (Word × Option TypeDescriptor)) :=
  if typeDescNumber = noErrorHandleTypeDesc then pure none
  else if typeDescNumber.toInt < 0 then .undefined
  else
    match typeSection[typeDescNumber.toInt.toNat]? with
    | none => .undefined
    | some type => pure (some (typeDescNumber, type))

def readHandler (typeSection : TypeSection) : Parse HandlerEntry := do
  let exceptionOffset ← readOperand
  let beginPc ← readOperand
  let endPc ← readOperand
  let typeDescNumber ← readOperand
  let typeDesc ← handlerType typeSection typeDescNumber
  let handlerCases ← readOperandUnchecked
  let exceptions ← Parse.times readException (handlerCases &&& 0xffff#32).toNat
  let wildcardPc ← readOperand
  return {
    exceptionOffset, beginPc, endPc, typeDesc
    exceptionTable := exceptions ++ [⟨wildcardPc, none⟩]
    exceptionTypeCount := handlerCases.sshiftRight 16 }

def readHandlerSection (typeSection : TypeSection) : Parse (List HandlerEntry) := do
  let handlerCount ← readOperandUnchecked
  let handlerSection ← Parse.counted handlerCount (readHandler typeSection)
  readFinalByte
  return handlerSection

/-- `read_module`. -/
def readModule (allocates : ℕ → Bool) : Parse VmModule := do
  let header ← readModuleHeader
  if hasFlag header.runtimeFlag hasImportDeprecated then .fail
  else
    let codeSection ← readCodeSection header
    let typeSection ← readTypeSection header
    let originalMp ← readData {
      typeSection, typeSize := header.typeSize, dataSize := header.dataSize, allocates }
    let moduleName ← readName
    let exportSection ← readLinkSection header
    let importSection ←
      (if hasFlag header.runtimeFlag hasImport then readImportSection else pure [])
    let handlerSection ←
      (if hasFlag header.runtimeFlag hasHandler then readHandlerSection typeSection
      else pure [])
    return {
      header, codeSection, typeSection, originalMp, moduleName, exportSection, importSection
      handlerSection }

end Sections

end Disvm.ModuleReader
