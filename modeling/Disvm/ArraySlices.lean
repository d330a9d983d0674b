import Disvm.RefRelease
import Disvm.TransitionRuns
import Mathlib.Algebra.BigOperators.Group.Finset.Piecewise

/-!
# Arrays and their slices

Slots hold arrays.  A slice points into the storage of the array that it was
made from and holds a counted reference to it, which `slicea` takes from the
slot that it overwrites; a slice of a slice is made to refer to the array that
owns the storage.
-/

namespace Disvm.ArraySlices

open RefCounting

/-- `vm_array_t`: its element pointer is an offset, in elements, into the storage
that `newa` allocated for some array. -/
structure VmArray where
  refCount : ℕ
  length : ℕ
  original : Option ℕ
  storage : ℕ
  offset : ℕ
  deriving DecidableEq, Repr

def counted : Counted VmArray where
  refCount := VmArray.refCount
  refs array := array.original.toList
  setCount count array := { array with refCount := count }
  refCount_setCount _ _ := rfl
  refs_setCount _ _ := rfl
  setCount_setCount _ _ _ := rfl
  setCount_refCount _ := rfl

abbrev ArrayHeap := Heap VmArray

/-- The slots and the heap, with the arrays that the collector tracks.  `owners`
are the arrays that own storage, `touchedFreed` the freed ones accessed. -/
structure ArrayState (slotCount : ℕ) where
  heap : ArrayHeap
  slots : Fin slotCount → Option ℕ
  tracked : List ℕ
  owners : List ℕ
  touchedFreed : List ℕ

/-- The difference of two words. -/
def wordSub (minuend subtrahend : ℤ) : ℤ :=
  (minuend - subtrahend).bmod (2 ^ 32)

def IsWord (value : ℤ) : Prop :=
  -2 ^ 31 ≤ value ∧ value < 2 ^ 31

instance (value : ℤ) : Decidable (IsWord value) :=
  inferInstanceAs (Decidable (_ ∧ _))

namespace ArrayState

variable {slotCount : ℕ}

def init : ArrayState slotCount where
  heap := Heap.empty
  slots _ := none
  tracked := []
  owners := []
  touchedFreed := []

def setSlot (state : ArrayState slotCount) (slot : Fin slotCount) (value : Option ℕ) :
    ArrayState slotCount :=
  { state with slots := Function.update state.slots slot value }

/-- An access through a pointer. -/
def touch (state : ArrayState slotCount) (id : ℕ) : ArrayState slotCount :=
  if (state.heap.cells id).isSome then state
  else { state with touchedFreed := id :: state.touchedFreed }

def addRef (state : ArrayState slotCount) (id : ℕ) : ArrayState slotCount :=
  { state.touch id with heap := RefCounting.addRef counted state.heap id }

/-- `dec_ref_count_and_free`. -/
def decRefCountAndFree (state : ArrayState slotCount) (pointer : Option ℕ) :
    ArrayState slotCount :=
  let (heap, touched) := release counted state.heap pointer.toList
  { state with heap := heap, touchedFreed := touched ++ state.touchedFreed }

def trackAllocation (state : ArrayState slotCount) (id : ℕ) : ArrayState slotCount :=
  { state.addRef id with tracked := id :: state.tracked }

/-- `new_array`.  The old array is released first; the slot keeps its pointer
when there is no memory for the elements. -/
def newArray (state : ArrayState slotCount) (slot : Fin slotCount) (length : Option ℕ)
    (trackObject : Bool) : ArrayState slotCount :=
  let released := state.decRefCountAndFree (state.slots slot)
  match length with
  | none => released
  | some length =>
      let id := released.heap.limit
      let allocated := { released with
        heap := released.heap.allocate
          { refCount := 1, length := length, original := none, storage := id, offset := 0 }
        owners := id :: released.owners }
      let tracked := if trackObject then allocated.trackAllocation id else allocated
      tracked.setSlot slot (some id)

/-- The slice is in the heap when its constructor has run. -/
def putSlice (state : ArrayState slotCount) (array : VmArray) (original : ℕ)
    (beginIndex length : ℤ) : ArrayState slotCount :=
  { state with
    heap := state.heap.allocate
      { refCount := 1
        length := length.toNat
        original := some original
        storage := array.storage
        offset := array.offset + beginIndex.toNat } }

/-- The slice constructor. -/
def makeSlice (state : ArrayState slotCount) (arr : ℕ) (array : VmArray)
    (beginIndex length : ℤ) : ArrayState slotCount :=
  match array.original with
  | none => state.putSlice array arr beginIndex length
  | some actualOriginal =>
      ((state.decRefCountAndFree (some arr)).addRef actualOriginal).putSlice array
        actualOriginal beginIndex length

/-- `slicea`; the array type has no pointers, so the slice is not tracked. -/
def slicea (state : ArrayState slotCount) (slot : Fin slotCount) (beginIndex endIndex : ℤ) :
    ArrayState slotCount :=
  let length := wordSub endIndex beginIndex
  match state.slots slot with
  | none => state
  | some arr =>
      match state.heap.cells arr with
      | none => state.touch arr
      | some array =>
          if beginIndex < 0 ∨ array.length < endIndex ∨ length < 0 then
            state
          else
            let sliced := state.makeSlice arr array beginIndex length
            (sliced.touch arr).setSlot slot (some state.heap.limit)

def movp (state : ArrayState slotCount) (dest src : Fin slotCount) : ArrayState slotCount :=
  let previous := state.slots dest
  let moved := state.slots src
  let held := moved.elim state state.addRef
  (held.setSlot dest moved).decRefCountAndFree previous

def releaseSlot (state : ArrayState slotCount) (slot : Fin slotCount) : ArrayState slotCount :=
  (state.decRefCountAndFree (state.slots slot)).setSlot slot none

inductive Action (slotCount : ℕ) where
  | newa (slot : Fin slotCount) (length : Option ℕ) (trackObject : Bool)
  | slicea (slot : Fin slotCount) (beginIndex endIndex : ℤ)
  | movp (dest src : Fin slotCount)
  | releaseSlot (slot : Fin slotCount)
  deriving DecidableEq, Repr

def step (state : ArrayState slotCount) : Action slotCount → Option (ArrayState slotCount)
  | .newa slot length trackObject =>
      if ∀ size ∈ length, IsWord size then some (state.newArray slot length trackObject)
      else none
  | .slicea slot beginIndex endIndex =>
      if IsWord beginIndex ∧ IsWord endIndex then some (state.slicea slot beginIndex endIndex)
      else none
  | .movp dest src => some (state.movp dest src)
  | .releaseSlot slot => some (state.releaseSlot slot)

/-- The slots that hold an array. -/
def holders (state : ArrayState slotCount) (id : ℕ) : ℕ :=
  ∑ slot, (state.slots slot).toList.count id

def IsSliceOf (id : ℕ) : Option VmArray → Prop
  | none => False
  | some array => array.original.isSome = true ∧ array.storage = id

instance (id : ℕ) (cell : Option VmArray) : Decidable (IsSliceOf id cell) :=
  match cell with
  | none => inferInstanceAs (Decidable False)
  | some _ => inferInstanceAs (Decidable (_ ∧ _))

/-- The live slices whose storage lies in an array. -/
def slicesOf (state : ArrayState slotCount) (id : ℕ) : ℕ :=
  ((Finset.range state.heap.limit).filter fun slice =>
    IsSliceOf id (state.heap.cells slice)).card

/-- Counts of arrays that own storage are exact, slices refer to the owner of
their storage and lie in it, what a slot holds has its storage, and no owner of
storage has been accessed after it was freed. -/
structure Owned (state : ArrayState slotCount) : Prop where
  counts : ∀ id array, state.heap.cells id = some array → array.original = none →
    array.refCount = state.holders id + state.slicesOf id + state.tracked.count id
  direct : ∀ id array original, state.heap.cells id = some array →
    array.original = some original →
      ∃ owner, state.heap.cells original = some owner ∧ owner.original = none ∧
        array.storage = original ∧ array.offset + array.length ≤ owner.length
  reached : ∀ slot id, state.slots slot = some id → ∃ array,
    state.heap.cells id = some array ∧ (state.heap.cells array.storage).isSome = true
  untouched : ∀ id ∈ state.touchedFreed, id ∉ state.owners

/-- The checks of `slicea` pass. -/
def Sliceable (array : VmArray) (beginIndex endIndex : ℤ) : Prop :=
  ¬ (beginIndex < 0 ∨ array.length < endIndex ∨ wordSub endIndex beginIndex < 0)

/-- The array instructions that keep ownership: `newa` gets its memory; when
`slicea` makes a slice, its length does not overflow, and the slice that it
overwrites or the array that this one lies in has another holder. -/
def Permitted (state : ArrayState slotCount) : Action slotCount → Prop
  | .newa _ length _ => length.isSome = true
  | .slicea slot beginIndex endIndex =>
      ∀ arr array, state.slots slot = some arr → state.heap.cells arr = some array →
        Sliceable array beginIndex endIndex →
          -2 ^ 31 ≤ endIndex - beginIndex ∧
          ∀ original owner, array.original = some original →
            state.heap.cells original = some owner →
              array.refCount = 1 → owner.refCount ≠ 1
  | .movp _ _ => True
  | .releaseSlot _ => True

end ArrayState

end Disvm.ArraySlices
