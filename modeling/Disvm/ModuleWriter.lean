import Disvm.ModuleConstants
import Disvm.StringDecoding
import Disvm.ModuleSections

/-!
# The writers of the sections

What the compiler puts into a module, section by section.  Numbers of entries are `int`s; a
section is not written after an overflow in a constant.
-/

namespace Disvm.ModuleWriter

open ModuleReader Strings Utf8

/-- The name of a symbol; its bytes are in an array, whose length is an `int`. -/
structure SymbolName where
  runes : List ℕ
  scalars : ∀ rune ∈ runes, IsScalar rune
  noNul : ∀ rune ∈ runes, rune ≠ 0
  short : (encodeText runes).length < 2 ^ 31

/-- A function, with the name of its ADT if it has one. -/
structure LinkName where
  adt : Option (List ℕ)
  name : List ℕ

/-- The name as a whole. -/
def LinkName.runes (link : LinkName) : List ℕ :=
  match link.adt with
  | none => link.name
  | some adt => adt ++ '.'.toNat :: link.name

/-- A function whose name is that of a symbol. -/
structure FunctionName where
  link : LinkName
  scalars : ∀ rune ∈ link.runes, IsScalar rune
  noNul : ∀ rune ∈ link.runes, rune ≠ 0
  short : (encodeText link.runes).length < 2 ^ 31

def SymbolName.bytes (name : SymbolName) : List UInt8 :=
  encodeText name.runes

/-- The name of the ADT, a dot and the name. -/
def FunctionName.bytes (name : FunctionName) : List UInt8 :=
  match name.link.adt with
  | none => encodeText name.link.name
  | some adt => encodeText adt ++ 46 :: encodeText name.link.name

/-- `.mp`. -/
def moduleDataName : List UInt8 :=
  [46, 109, 112]

/-- The addressing modes but the one of errors. -/
inductive Mode where
  | imm
  | mp
  | mpind
  | fp
  | fpind
  | pc
  | desc
  | off
  | noff
  | none
  | ldt
  deriving DecidableEq

/-- An operand; `ifaceOffset` is that of the declaration. -/
structure Addr where
  mode : Mode
  reg : Word
  offset : Word
  ifaceOffset : Word

/-- The middle operand is not indirect. -/
structure MiddleAddr where
  addr : Addr
  direct : addr.mode ≠ .mpind ∧ addr.mode ≠ .fpind

structure Inst where
  op : UInt8
  s : Addr
  m : MiddleAddr
  d : Addr

/-- An instruction of the list; `INOOP`s are not written. -/
abbrev InstList := List (Option Inst)

def dismode : Mode → UInt8
  | .imm | .pc | .desc | .off | .noff | .ldt => 0x02
  | .mp => 0x00
  | .mpind => 0x04
  | .fp => 0x01
  | .fpind => 0x05
  | .none => 0x03

def disregmode : Mode → UInt8
  | .imm | .pc | .desc | .off | .noff | .ldt => 0x40
  | .mp => 0xc0
  | .fp => 0x80
  | .mpind | .fpind | .none => 0x00

/-- The constant of `disaddr` after the register of an indirect operand. -/
def Addr.val (a : Addr) : Word :=
  match a.mode with
  | .imm | .pc | .desc => a.offset
  | .off => a.ifaceOffset
  | .noff => -(a.ifaceOffset + 1)
  | .fp | .mp | .ldt => a.reg
  | .fpind | .mpind => a.offset
  | .none => 0

def disaddr (a : Addr) : Option (List UInt8) :=
  match a.mode with
  | .none => some []
  | .fpind | .mpind => do
      let reg ← discon a.reg
      let val ← discon a.val
      return reg ++ val
  | _ => discon a.val

def disinst1 (inst : Inst) : Option (List UInt8) := do
  let m ← disaddr inst.m.addr
  let s ← disaddr inst.s
  let d ← disaddr inst.d
  let o := dismode inst.s.mode <<< 3 ||| dismode inst.d.mode ||| disregmode inst.m.addr.mode
  return inst.op :: o :: (m ++ s ++ d)

/-- The entries of a table, one after the other. -/
def concat {Entry : Type} (write : Entry → Option (List UInt8)) :
    List Entry → Option (List UInt8)
  | [] => some []
  | entry :: entries => do
      let first ← write entry
      let rest ← concat write entries
      return first ++ rest

/-- The instructions that have a number. -/
def InstList.written (insts : InstList) : List Inst :=
  insts.filterMap id

def disinst (insts : InstList) : Option (List UInt8) :=
  concat disinst1 insts.written

/-- The number of entries of a table. -/
def discount (count : ℕ) : Option (List UInt8) :=
  if count < 2 ^ 31 then discon (BitVec.ofNat 32 count) else none

structure Desc where
  size : Word
  map : List UInt8

/-- One turn of `disdesc`; descriptors are numbered in their order. -/
def disdesc1 (desc : ℕ × Desc) : Option (List UInt8) := do
  let id ← discount desc.1
  let size ← discon desc.2.size
  let nmap ← discount desc.2.map.length
  return id ++ size ++ nmap ++ desc.2.map

def numbered (descs : List Desc) : List (ℕ × Desc) :=
  descs.zipIdx.map Prod.swap

def disdesc (descs : List Desc) : Option (List UInt8) :=
  concat disdesc1 (numbered descs)

/-- The entries of `dismod`: module data and functions. -/
inductive Link where
  | global (sign : Word)
  | fn (pc descId sign : Word) (name : FunctionName)

def dislink : Link → Option (List UInt8)
  | .global sign => do
      let pc ← discon (-1)
      let descId ← discon (-1)
      return pc ++ descId ++ disword sign ++ moduleDataName ++ [0]
  | .fn pc descId sign name => do
      let pc ← discon pc
      let descId ← discon descId
      return pc ++ descId ++ disword sign ++ name.bytes ++ [0]

/-- `NAMELEN`. -/
def namelen : ℕ := 28

/-- The name of the module as `dismod` cuts it. -/
def cutName (name : SymbolName) : List UInt8 :=
  name.bytes.take (namelen - 1)

def dismod (name : SymbolName) (links : List Link) : Option (List UInt8) := do
  let entries ← concat dislink links
  return cutName name ++ 0 :: entries

/-- A function that is imported. -/
structure Import where
  sign : Word
  name : FunctionName

def disimport (function : Import) : Option (List UInt8) :=
  some (disword function.sign ++ function.name.bytes ++ [0])

def disiface (functions : List Import) : Option (List UInt8) := do
  let count ← discount functions.length
  let entries ← concat disimport functions
  return count ++ entries

def disldt (modules : List (List Import)) : Option (List UInt8) := do
  let count ← discount modules.length
  let entries ← concat disiface modules
  let last ← discon 0
  return count ++ entries ++ last

/-- A label of an exception handler. -/
structure ExceptLabel where
  name : SymbolName
  pc : Word

/-- An `Except` whose range is reached; `ne` of its labels are of exceptions. -/
structure ExceptDecl where
  offset : Word
  pc1 : Word
  pc2 : Word
  desc : Option ℕ
  labs : List ExceptLabel
  ne : ℕ
  iwild : Option Word
  within : ne ≤ labs.length

def dislabel (lab : ExceptLabel) : Option (List UInt8) := do
  let pc ← discon lab.pc
  return lab.name.bytes ++ 0 :: pc

/-- `c.nlab|(e.ne<<16)`. -/
def ExceptDecl.cases (except : ExceptDecl) : Word :=
  BitVec.ofNat 32 except.labs.length ||| BitVec.ofNat 32 except.ne <<< 16

/-- An optional number, -1 where there is none. -/
def disoptional (number : Option Word) : Option (List UInt8) :=
  discon (number.getD (-1))

def disexcept (except : ExceptDecl) : Option (List UInt8) := do
  let offset ← discon except.offset
  let pc1 ← discon except.pc1
  let pc2 ← discon except.pc2
  let desc ← disoptional (except.desc.map (BitVec.ofNat 32))
  let cases ← discon except.cases
  let labs ← concat dislabel except.labs
  let iwild ← disoptional except.iwild
  return offset ++ pc1 ++ pc2 ++ desc ++ cases ++ labs ++ iwild

def disexc (excepts : List ExceptDecl) : Option (List UInt8) := do
  let count ← discount excepts.length
  let entries ← concat disexcept excepts
  let last ← discon 0
  return count ++ entries ++ last

def magic : Word := 819248

/-- The flags of the tables that are written. -/
def hasLdt : Word := 64
def hasExcept : Word := 32

/-- What `gencode` writes, but for the data section. -/
structure Source where
  hints : Word
  maxstack : Word
  insts : InstList
  /-- The size of the module data. -/
  offset : Word
  descs : List Desc
  name : SymbolName
  links : List Link
  entry : Option (Word × Word)
  modules : List (List Import)
  excepts : List ExceptDecl
  ldtFlag : hasFlag hints hasLdt ∨ modules = []
  exceptFlag : hasFlag hints hasExcept ∨ excepts = []
  /-- The descriptors of handlers are in the list. -/
  descInside : ∀ except ∈ excepts, ∀ id ∈ except.desc, id < descs.length

def disentry (entry : Option (Word × Word)) : Option (List UInt8) := do
  let pc ← disoptional (entry.map Prod.fst)
  let descId ← disoptional (entry.map Prod.snd)
  return pc ++ descId

def disheader (m : Source) : Option (List UInt8) := do
  let magic ← discon magic
  let hints ← discon m.hints
  let maxstack ← discon m.maxstack
  let ninst ← discount m.insts.written.length
  let offset ← discon m.offset
  let ndesc ← discount m.descs.length
  let nlink ← discount m.links.length
  let entry ← disentry m.entry
  return magic ++ hints ++ maxstack ++ ninst ++ offset ++ ndesc ++ nlink ++ entry

/-- The bytes of the sections. -/
structure Sections where
  header : List UInt8
  insts : List UInt8
  descs : List UInt8
  mod : List UInt8
  ldts : List UInt8
  excs : List UInt8
  deriving DecidableEq

/-- The sections; tables without their flag are not written. -/
def disSections (m : Source) : Option Sections := do
  let header ← disheader m
  let insts ← disinst m.insts
  let descs ← disdesc m.descs
  let mod ← dismod m.name m.links
  let ldts ← (if hasFlag m.hints hasLdt then disldt m.modules else some [])
  let excs ← (if hasFlag m.hints hasExcept then disexc m.excepts else some [])
  return ⟨header, insts, descs, mod, ldts, excs⟩

end Disvm.ModuleWriter
