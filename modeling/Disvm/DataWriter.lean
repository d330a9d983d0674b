import Disvm.ModuleWriter
import Disvm.TypeLayout

/-!
# The writer of the data section

The compiler writes the initial values of globals as items of the data section.  Values of one
kind that follow each other are kept back, so that they become one item.
-/

namespace Disvm.DataWriter

open ModuleReader ModuleWriter TypeLayout

inductive DataKind where
  | defb
  | defw
  | defs
  | deff
  | defa
  | dind
  | dapop
  | defl
  deriving DecidableEq

def DataKind.code : DataKind → ℕ
  | .defb => 1
  | .defw => 2
  | .defs => 3
  | .deff => 4
  | .defa => 5
  | .dind => 6
  | .dapop => 7
  | .defl => 8

def dmax : ℕ := 16

/-- The beginning of an item. -/
def disdata (kind : DataKind) (n : ℕ) : Option (List UInt8) :=
  if n < dmax ∧ n ≠ 0 then some [UInt8.ofNat (kind.code * dmax + n)]
  else (discount n).map (UInt8.ofNat (kind.code * dmax) :: ·)

def disoffset (offset : ℤ) : Option (List UInt8) :=
  discon (BitVec.ofInt 32 offset)

/-- The bytes that have been written, and the values that have been kept back. -/
structure Output where
  written : List UInt8
  cache : List UInt8
  ndatum : ℕ
  startoff : ℤ
  lastoff : ℤ
  lastkind : Option DataKind

/-- Bytes that are written at once; nothing is written after an overflow. -/
def Output.put (s : Output) (bytes : Option (List UInt8)) : Option Output :=
  bytes.map fun bytes => { s with written := s.written ++ bytes }

/-- The values that have been kept back become an item. -/
def Output.putCache (s : Output) : Option Output :=
  match s.lastkind with
  | some lastkind =>
      if s.cache.length ≠ 0 then do
        let s ← s.put (disdata lastkind s.ndatum)
        let s ← s.put (disoffset s.startoff)
        s.put (some s.cache)
      else some s
  | none => some s

def disflush (kind : Option DataKind) (off : ℤ) (size : ℕ) (s : Output) : Option Output :=
  if kind ≠ s.lastkind ∨ off ≠ s.lastoff then do
    let s ← s.putCache
    some { s with
      startoff := off
      lastkind := kind
      cache := []
      ndatum := 0
      lastoff := off + size }
  else some { s with lastoff := off + size }

/-- A value is kept back. -/
def discache (kind : DataKind) (off : ℤ) (bytes : List UInt8) (s : Output) : Option Output := do
  let s ← disflush (some kind) off bytes.length s
  some { s with
    cache := s.cache ++ bytes
    ndatum := s.ndatum + 1 }

def disbyte (off : ℤ) (v : UInt8) : Output → Option Output :=
  discache .defb off [v]

def disint (off : ℤ) (v : Word) : Output → Option Output :=
  discache .defw off (disword v)

/-- The words of a big, the high one first. -/
def bigBytes (v : BitVec 64) : List UInt8 :=
  disword ((v.sshiftRight 32).setWidth 32) ++ disword (v.setWidth 32)

def disbig (off : ℤ) (v : BitVec 64) : Output → Option Output :=
  discache .defl off (bigBytes v)

/-- `export_real` gives the bytes of a real as those of a big. -/
def disreal (off : ℤ) (v : BitVec 64) : Output → Option Output :=
  discache .deff off (bigBytes v)

def disstring (offset : ℤ) (name : List UInt8) (s : Output) : Option Output := do
  let s ← disflush none (-1) 0 s
  let s ← s.put (disdata .defs name.length)
  let s ← s.put (disoffset offset)
  s.put (some name)

/-- The item of a new array. -/
def disarray (offset : ℤ) (desc left : Word) (s : Output) : Option Output := do
  let s ← disflush none (-1) 0 s
  let s ← s.put (disdata .defa 1)
  let s ← s.put (disoffset offset)
  let s ← s.put (some (disword desc))
  s.put (some (disword left))

/-- The item that selects the first element of the array. -/
def disindex (offset : ℤ) (s : Output) : Option Output := do
  let s ← s.put (disdata .dind 1)
  let s ← s.put (disoffset offset)
  s.put (some (disword 0))

/-- The item behind the elements of the array. -/
def dispop (s : Output) : Option Output := do
  let s ← disflush none (-1) 0 s
  let s ← s.put (disdata .dapop 1)
  s.put (discon 0)

/-- A label of a table of words or bigs. -/
structure Label where
  start : BitVec 64
  stop : BitVec 64
  pc : Word

/-- A label of a table of strings; `stop` is there if it is not the node of `start`. -/
structure StringLabel where
  start : List UInt8
  stop : Option (List UInt8)
  pc : Word

mutual

/-- An initial value, by the kind of its type.  Tuples have the declarations of their type, arrays
the type of their elements with the number of its descriptor. -/
inductive Node where
  | tbyte (val : BitVec 64)
  | tint (val : BitVec 64)
  | tbig (val : BitVec 64)
  | tstring (name : List UInt8)
  | treal (rval : BitVec 64)
  | ttuple (ids : Ids) (left : Nodes)
  | tany
  | tcase (labs : List Label) (iwild : Option Word)
  | tcasel (labs : List Label) (iwild : Option Word)
  | tcasec (labs : List StringLabel) (iwild : Option Word)
  | tgoto (labs : List Word) (iwild : Option Word)
  | tarray (tof : Ty) (desc : Word) (left : BitVec 64)
  | tainit (tof : Ty) (desc : Word) (left : BitVec 64) (labs : Labels) (wild : Wild)

inductive Nodes where
  | nil
  | cons (left : Node) (right : Nodes)

/-- The labels of an array initializer. -/
inductive Labels where
  | nil
  | cons (start stop : BitVec 64) (elem : Node) (labs : Labels)

inductive Wild where
  | nil
  | elem (elem : Node)

end

/-- `int` of a constant. -/
def asInt (val : BitVec 64) : Word :=
  val.setWidth 32

/-- The target of a wildcard, or -1. -/
def disiwild (offset : ℤ) (iwild : Option Word) : Output → Option Output :=
  disint offset (iwild.getD (-1))

/-- The loop over the labels of a `Tcase`, with the offset behind them. -/
def disTcase : List Label → (offset : ℤ) → Output → Option (ℤ × Output)
  | [], offset, s => some (offset, s)
  | lab :: labs, offset, s => do
      let s ← disint offset (asInt lab.start) s
      let s ← disint (offset + iby2wd) (asInt lab.stop + 1) s
      let s ← disint (offset + iby2wd + iby2wd) lab.pc s
      disTcase labs (offset + iby2wd + iby2wd + iby2wd) s

def disTcasel : List Label → (offset : ℤ) → Output → Option (ℤ × Output)
  | [], offset, s => some (offset, s)
  | lab :: labs, offset, s => do
      let s ← disbig offset lab.start s
      let s ← disbig (offset + iby2lg) (lab.stop + 1) s
      let s ← disint (offset + iby2lg + iby2lg) lab.pc s
      disTcasel labs (offset + iby2lg + iby2lg + 2 * iby2wd) s

def disTcasec : List StringLabel → (offset : ℤ) → Output → Option (ℤ × Output)
  | [], offset, s => some (offset, s)
  | lab :: labs, offset, s => do
      let s ← disstring offset lab.start s
      let s ← match lab.stop with
        | some stop => disstring (offset + iby2wd) stop s
        | none => some s
      let s ← disint (offset + iby2wd + iby2wd) lab.pc s
      disTcasec labs (offset + iby2wd + iby2wd + iby2wd) s

def disTgoto : List Word → (offset : ℤ) → Output → Option (ℤ × Output)
  | [], offset, s => some (offset, s)
  | pc :: labs, offset, s => do
      let s ← disint offset pc s
      disTgoto labs (offset + iby2wd) s

/-- `for(; last < e; last++) disdatum(esz * last, elem)`, so many times. -/
def disElems (elem : ℤ → Output → Option Output) (esz : ℕ) :
    (count : ℕ) → (last : ℤ) → Output → Option Output
  | 0, _, s => some s
  | count + 1, last, s => do
      let s ← elem (esz * last) s
      disElems elem esz count (last + 1) s

/-- The same with the element of the wildcard, if there is one. -/
def disWild (wild : Option (ℤ → Output → Option Output)) (esz count : ℕ) (last : ℤ)
    (s : Output) : Option Output :=
  match wild with
  | some elem => disElems elem esz count last s
  | none => some s

section Disdatum

variable (z : Bool)

mutual

def disdatum : Node → (offset : ℤ) → Output → Option Output
  | .tbyte val, offset, s => disbyte offset ⟨val.setWidth 8⟩ s
  | .tint val, offset, s => disint offset (asInt val) s
  | .tbig val, offset, s => disbig offset val s
  | .tstring name, offset, s => disstring offset name s
  | .treal rval, offset, s => disreal offset rval s
  | .ttuple ids left, offset, s => disfields left (sizeids z ids 0 1).offsets offset s
  | .tany, _, s => some s
  | .tcase labs iwild, offset, s => do
      let s ← disint offset (BitVec.ofNat 32 labs.length) s
      let (offset, s) ← disTcase labs (offset + iby2wd) s
      disiwild offset iwild s
  | .tcasel labs iwild, offset, s => do
      let s ← disint offset (BitVec.ofNat 32 labs.length) s
      let (offset, s) ← disTcasel labs (offset + 2 * iby2wd) s
      disiwild offset iwild s
  | .tcasec labs iwild, offset, s => do
      let s ← disint offset (BitVec.ofNat 32 labs.length) s
      let (offset, s) ← disTcasec labs (offset + iby2wd) s
      disiwild offset iwild s
  | .tgoto labs iwild, offset, s => do
      let size := (sizetype z (.tgoto labs.length iwild.isSome)).size
      let s ← disint offset (BitVec.ofNat 32 (size / iby2wd - 1)) s
      let (offset, s) ← disTgoto labs (offset + iby2wd) s
      match iwild with
      | some pc => disint offset pc s
      | none => some s
  | .tarray _ desc left, offset, s => disarray offset desc (asInt left) s
  | .tainit tof desc left labs wild, offset, s => do
      let s ← disarray offset desc (asInt left) s
      let s ← disindex offset s
      let esz := (sizetype z tof).size
      let wild := diswild wild
      let (last, s) ← dislabels esz wild labs 0 s
      let s ← disWild wild esz ((asInt left).toInt - last).toNat last s
      dispop s

/-- The loop over the elements of a tuple, with the offsets of the declarations. -/
def disfields : Nodes → (offsets : List ℕ) → (offset : ℤ) → Output → Option Output
  | .cons left right, id :: offsets, offset, s => do
      let s ← disdatum left (offset + id) s
      disfields right offsets offset s
  | _, _, _, s => some s

def diswild : Wild → Option (ℤ → Output → Option Output)
  | .nil => none
  | .elem elem => some fun offset s => disdatum elem offset s

/-- The loop over the labels of an array, with the index behind them. -/
def dislabels (esz : ℕ) (wild : Option (ℤ → Output → Option Output)) :
    Labels → (last : ℤ) → Output → Option (ℤ × Output)
  | .nil, last, s => some (last, s)
  | .cons start stop elem labs, last, s => do
      let e := (asInt start).toInt
      let s ← disWild wild esz (e - last).toNat last s
      let stop := (asInt stop).toInt
      let s ← disElems (fun offset s => disdatum elem offset s) esz (stop + 1 - e).toNat e s
      dislabels esz wild labs (max e (stop + 1)) s

end

/-- A global: its store, its offset and its initial value. -/
structure Global where
  store : Store
  offset : ℕ
  init : Option Node

def disglobals : List Global → Output → Option Output
  | [], s => some s
  | d :: ids, s => do
      let s ← match d.init with
        | some init => if d.store = .dglobal then disdatum z init d.offset s else some s
        | none => some s
      disglobals ids s

/-- The state that `disvar` begins with; `startoff` and `lastoff` are left from before. -/
def Output.start (startoff lastoff : ℤ) : Output :=
  ⟨[], [], 0, startoff, lastoff, none⟩

def disvar (startoff lastoff : ℤ) (ids : List Global) : Option (List UInt8) := do
  let s ← disglobals z ids (Output.start startoff lastoff)
  let s ← disflush none (-1) 0 s
  some (s.written ++ [0])

end Disdatum

/-- `DADEPTH`. -/
def dadepth : ℕ := 4

mutual

/-- `initable` on constants, which checks how deep arrays are nested. -/
def initable : Node → (allocdep : ℕ) → Bool
  | .ttuple _ left, allocdep => initables left allocdep
  | .tarray _ _ _, allocdep => allocdep < dadepth
  | .tainit _ _ _ labs wild, allocdep =>
      allocdep < dadepth && initlabels labs (allocdep + 1) && initwild wild (allocdep + 1)
  | _, _ => true

def initables : Nodes → (allocdep : ℕ) → Bool
  | .nil, _ => true
  | .cons left right, allocdep => initable left allocdep && initables right allocdep

def initlabels : Labels → (allocdep : ℕ) → Bool
  | .nil, _ => true
  | .cons _ _ elem labs, allocdep => initable elem allocdep && initlabels labs allocdep

def initwild : Wild → (allocdep : ℕ) → Bool
  | .nil, _ => true
  | .elem elem, allocdep => initable elem allocdep

end

end Disvm.DataWriter
