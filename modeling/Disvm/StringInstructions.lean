import Disvm.RefRelease
import Disvm.VmString

/-!
# String instructions

Slots hold strings.  An instruction changes a string in place when the slot that
it writes holds the only reference to it, and makes a new string otherwise.
-/

namespace Disvm.Strings

open RefCounting

/-- Strings refer to nothing. -/
def counted : Counted VmString where
  refCount := VmString.refCount
  refs _ := []
  setCount count string := { string with refCount := count }
  refCount_setCount _ _ := rfl
  refs_setCount _ _ := rfl
  setCount_setCount _ _ _ := rfl
  setCount_refCount _ := rfl

abbrev StringHeap := Heap VmString

structure StringState (slotCount : ℕ) where
  heap : StringHeap
  slots : Fin slotCount → Option ℕ

/-- How an instruction ends. -/
inductive Outcome where
  | done
  | threw (exception : VmException)
  | rune (value : ℕ)
  | text (bytes : List UInt8)
  deriving DecidableEq, Repr

namespace StringState

variable {slotCount : ℕ}

/-- `at_val<vm_string_t>`. -/
def load (state : StringState slotCount) (slot : Fin slotCount) : Option VmString :=
  (state.slots slot).bind state.heap.cells

def setSlot (state : StringState slotCount) (slot : Fin slotCount) (value : Option ℕ) :
    StringState slotCount :=
  { state with slots := Function.update state.slots slot value }

/-- A new string, which is at the limit of the heap. -/
def allocate (state : StringState slotCount) (string : VmString) : StringState slotCount :=
  { state with heap := state.heap.allocate string }

def addRef (state : StringState slotCount) (id : ℕ) : StringState slotCount :=
  { state with heap := RefCounting.addRef counted state.heap id }

/-- `dec_ref_count_and_free`. -/
def decRefCountAndFree (state : StringState slotCount) (pointer : Option ℕ) :
    StringState slotCount :=
  { state with heap := (release counted state.heap pointer.toList).1 }

/-- The string of a slot changes in place. -/
def overwrite (state : StringState slotCount) (slot : Fin slotCount) (string : VmString) :
    StringState slotCount :=
  match state.slots slot with
  | none => state
  | some id => { state with heap := state.heap.modify id fun _ => string }

def movp (state : StringState slotCount) (dest src : Fin slotCount) : StringState slotCount :=
  let previous := state.slots dest
  let moved := state.slots src
  let held := moved.elim state state.addRef
  (held.setSlot dest moved).decRefCountAndFree previous

/-- The part of `insc` that works on a new string, which is lost when
`set_rune` throws. -/
def inscNew (state : StringState slotCount) (dest : Fin slotCount) (string : VmString)
    (rune : ℕ) (index : ℤ) : StringState slotCount × Outcome :=
  let (written, thrown) := string.setRune index rune true
  let allocated := state.allocate written
  match thrown with
  | some exception => (allocated, .threw exception)
  | none =>
      ((allocated.setSlot dest (some state.heap.limit)).decRefCountAndFree (state.slots dest),
        .done)

def insc (state : StringState slotCount) (dest : Fin slotCount) (rune : ℕ) (index : ℤ) :
    StringState slotCount × Outcome :=
  match state.load dest with
  | none => state.inscNew dest VmString.empty rune index
  | some string =>
      if 1 < string.refCount then
        match string.slice 0 string.length with
        | .error exception => (state, .threw exception)
        | .ok copy => state.inscNew dest copy rune index
      else
        let (written, thrown) := string.setRune index rune true
        (state.overwrite dest written, thrown.elim .done .threw)

end StringState

/-- What `concat_string` makes: a new string, or the first one in place. -/
inductive Concat where
  | new (string : VmString)
  | inPlace (string : VmString)

/-- `concat_string`. -/
def concatString (s1 s2 : Option VmString) (tryAppendToS1 : Bool) : Except VmException Concat :=
  match s1 with
  | none =>
      match s2 with
      | none => .ok (.new VmString.empty)
      | some s2 => (s2.slice 0 s2.length).map .new
  | some s1 =>
      let tryAppendToS1 := if 1 < s1.refCount then false else tryAppendToS1
      match s2 with
      | none =>
          if tryAppendToS1 then .ok (.inPlace s1)
          else (s1.slice 0 s1.length).map .new
      | some s2 =>
          if !tryAppendToS1 then .ok (.new (s1.concat s2))
          else
            match s1.append s2 true with
            | (appended, none) => .ok (.inPlace appended)
            | (_, some exception) => .error exception

namespace StringState

variable {slotCount : ℕ}

def addc (state : StringState slotCount) (src mid dest : Fin slotCount) :
    StringState slotCount × Outcome :=
  match concatString (state.load mid) (state.load src) (mid = dest) with
  | .error exception => (state, .threw exception)
  | .ok (.inPlace string) => (state.overwrite mid string, .done)
  | .ok (.new string) =>
      (((state.allocate string).decRefCountAndFree (state.slots dest)).setSlot dest
        (some state.heap.limit), .done)

def slicec (state : StringState slotCount) (dest : Fin slotCount) (start stop : ℤ) :
    StringState slotCount × Outcome :=
  match state.load dest with
  | some string =>
      match string.slice start stop with
      | .error exception => (state, .threw exception)
      | .ok sliced =>
          (((state.allocate sliced).setSlot dest (some state.heap.limit)).decRefCountAndFree
            (state.slots dest), .done)
  | none =>
      if start = 0 ∧ stop = 0 then (state.setSlot dest none, .done)
      else (state, .threw (.dereferenceNil "Slice a nil string"))

def indc (state : StringState slotCount) (src : Fin slotCount) (index : ℤ) : Outcome :=
  match state.load src with
  | none => .threw (.dereferenceNil "Index string")
  | some string =>
      match string.getRune index with
      | .error exception => .threw exception
      | .ok rune => .rune rune

/-- `str` is called on the string of a slot; nil has the empty text. -/
def text (state : StringState slotCount) (slot : Fin slotCount) :
    StringState slotCount × Outcome :=
  match state.load slot with
  | none => (state, .text [])
  | some string =>
      let (kept, encoded) := string.str
      (state.overwrite slot kept, .text (kept.encodedText encoded))

/-- The string instructions, and calls of `str`. -/
inductive Action (slotCount : ℕ) where
  | movp (dest src : Fin slotCount)
  | insc (dest : Fin slotCount) (rune : ℕ) (index : ℤ)
  | addc (src mid dest : Fin slotCount)
  | slicec (dest : Fin slotCount) (start stop : ℤ)
  | indc (src : Fin slotCount) (index : ℤ)
  | text (slot : Fin slotCount)
  deriving DecidableEq, Repr

def perform (state : StringState slotCount) :
    Action slotCount → StringState slotCount × Outcome
  | .movp dest src => (state.movp dest src, .done)
  | .insc dest rune index => state.insc dest rune index
  | .addc src mid dest => state.addc src mid dest
  | .slicec dest start stop => state.slicec dest start stop
  | .indc src index => (state, state.indc src index)
  | .text slot => state.text slot

/-- The outcomes of instructions in order; a program goes on after an exception. -/
def run (state : StringState slotCount) :
    List (Action slotCount) → StringState slotCount × List Outcome
  | [] => (state, [])
  | action :: actions =>
      let (later, outcome) := state.perform action
      let (last, outcomes) := later.run actions
      (last, outcome :: outcomes)

/-- An array of byte, whose length is a word. -/
structure VmByteArray where
  length : ℤ
  bytes : List UInt8
  deriving DecidableEq, Repr

/-- `cvtca` into an array: the bytes of `str` up to its first NUL, nothing defined
when there is none inside its buffer. -/
def cvtca (state : StringState slotCount) (src : Fin slotCount) :
    Option (StringState slotCount × VmByteArray) :=
  match state.load src with
  | none => some (state, ⟨0, []⟩)
  | some string =>
      if 0 < string.length then
        let (kept, encoded) := string.str
        if kept.NulInside encoded then
          let bytes := (kept.encodedText encoded).takeWhile (· ≠ 0)
          some (state.overwrite src kept, ⟨Int.bmod bytes.length (2 ^ 32), bytes⟩)
        else none
      else some (state, ⟨0, []⟩)

/-- `cvtac`.  The old string is released first; the slot keeps its pointer when
the first byte of the array or the string throws. -/
def cvtac (state : StringState slotCount) (dest : Fin slotCount) (array : Option VmByteArray) :
    StringState slotCount × Outcome :=
  let released := state.decRefCountAndFree (state.slots dest)
  match array with
  | none => (released.setSlot dest none, .done)
  | some array =>
      if array.length ≤ 0 then
        (released, .threw (.indexOutOfRangeMemory 0 (array.length - 1) 0))
      else
        match VmString.ofUtf8 (array.bytes.take array.length.toNat) with
        | .error exception => (released, .threw exception)
        | .ok string =>
            ((released.allocate string).setSlot dest (some released.heap.limit), .done)

end StringState

end Disvm.Strings
