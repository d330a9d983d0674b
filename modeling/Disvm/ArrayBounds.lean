import Disvm.ArraySlices
import Mathlib.Tactic.Linarith

/-!
# The arithmetic of array sizes

Lengths, indices and element sizes are words, and their products, sums and differences wrap
around.  An access is a part of an allocation that an instruction reads or writes.
-/

namespace Disvm.ArrayBounds

open ArraySlices (IsWord wordSub)

/-- The sum of two words. -/
def wordAdd (first second : ℤ) : ℤ :=
  (first + second).bmod (2 ^ 32)

/-- The product of two words. -/
def wordMul (first second : ℤ) : ℤ :=
  (first * second).bmod (2 ^ 32)

/-- A word as a `size_t`. -/
def asSize (value : ℤ) : ℤ :=
  if value < 0 then value + 2 ^ 64 else value

theorem bmod_of_isWord {value : ℤ} (isWord : IsWord value) : value.bmod (2 ^ 32) = value := by
  unfold IsWord at isWord
  apply Int.bmod_eq_of_le_mul_two
  · push_cast
    omega
  · push_cast
    omega

/-- A number below all words comes out above zero. -/
theorem bmod_of_below {value : ℤ} (below : value < -2 ^ 31) (near : -2 ^ 32 ≤ value) :
    value.bmod (2 ^ 32) = value + 2 ^ 32 := by
  have shifted : (value + 2 ^ 32).bmod (2 ^ 32) = value.bmod (2 ^ 32) :=
    Int.add_bmod_right value (2 ^ 32)
  rw [← shifted]
  exact bmod_of_isWord ⟨by omega, by omega⟩

theorem isWord_bmod (value : ℤ) : IsWord (value.bmod (2 ^ 32)) := by
  have lower := @Int.le_bmod value (2 ^ 32) (by decide)
  have upper := @Int.bmod_lt value (2 ^ 32) (by decide)
  constructor
  · exact le_trans (by decide) lower
  · exact lt_of_lt_of_le upper (by decide)

theorem wordAdd_eq {first second : ℤ} (isWord : IsWord (first + second)) :
    wordAdd first second = first + second :=
  bmod_of_isWord isWord

theorem wordMul_eq {first second : ℤ} (isWord : IsWord (first * second)) :
    wordMul first second = first * second :=
  bmod_of_isWord isWord

theorem wordSub_eq {first second : ℤ} (isWord : IsWord (first - second)) :
    wordSub first second = first - second :=
  bmod_of_isWord isWord

/-- What the arithmetic of arrays uses of `type_descriptor_t`. -/
structure ElementType where
  sizeInBytes : ℤ
  pointerMap : List UInt8
  finalizer : Option ℕ
  isWord : IsWord sizeInBytes
  deriving DecidableEq

/-- `vm_array_t`: `_arr` points into an allocation, at an offset in bytes. -/
structure VmArray where
  allocation : ℕ
  offset : ℤ
  elementType : ElementType
  length : ℤ
  deriving DecidableEq

/-- The sizes of the allocations in bytes, and the arrays. -/
structure ArrayState where
  allocations : List ℤ
  arrays : List VmArray
  deriving DecidableEq

/-- A part of an allocation that is read or written. -/
structure Access where
  allocation : ℕ
  start : ℤ
  size : ℤ
  deriving DecidableEq

inductive Outcome where
  | thrown
  | done (after : ArrayState) (touched : List Access)
  deriving DecidableEq

namespace VmArray

/-- The bytes of an array. -/
def extent (array : VmArray) : Access where
  allocation := array.allocation
  start := array.offset
  size := array.length * array.elementType.sizeInBytes

/-- `vm_array_t::at`. -/
def at? (array : VmArray) (index : ℤ) : Option Access :=
  if index < 0 ∨ array.length ≤ index then none
  else some
    { allocation := array.allocation
      start := array.offset + wordMul index array.elementType.sizeInBytes
      size := array.elementType.sizeInBytes }

/-- The constructor of a slice. -/
def slice (original : VmArray) (beginIndex length : ℤ) : VmArray where
  allocation := original.allocation
  offset := original.offset + wordMul beginIndex original.elementType.sizeInBytes
  elementType := original.elementType
  length := length

/-- `copy_from`: what the loop over the references and the move touch, if nothing is
thrown. -/
def copyFrom (this source : VmArray) (thisBeginIndex : ℤ) : Option (List Access) :=
  if thisBeginIndex < 0 ∨ this.length < wordAdd thisBeginIndex source.length then none
  else if source.elementType ≠ this.elementType then none
  else
    let destArr := this.offset + wordMul thisBeginIndex this.elementType.sizeInBytes
    let counted : List Access :=
      if this.elementType.pointerMap ≠ [] ∧ 0 < source.length then
        [source.extent, ⟨this.allocation, destArr, source.length * this.elementType.sizeInBytes⟩]
      else []
    let amount := asSize (wordMul source.length this.elementType.sizeInBytes)
    some (counted ++
      [⟨source.allocation, source.offset, amount⟩, ⟨this.allocation, destArr, amount⟩])

end VmArray

namespace ArrayState

def init : ArrayState where
  allocations := []
  arrays := []

/-- `new_array`.  The product is the amount of memory that is asked for; an amount that is
negative as a word is never granted. -/
def newArray (state : ArrayState) (type : ElementType) (arraySize : ℤ) (granted : Bool) :
    Outcome :=
  let amount := wordMul arraySize type.sizeInBytes
  if granted = false ∨ amount < 0 then .thrown
  else
    let array : VmArray :=
      { allocation := state.allocations.length, offset := 0, elementType := type,
        length := arraySize }
    .done ⟨state.allocations ++ [amount], state.arrays ++ [array]⟩ []

/-- `_index_in`. -/
def indexIn (state : ArrayState) (arr : Option VmArray) (index : ℤ) : Outcome :=
  match arr with
  | none => .thrown
  | some arr =>
      if index < 0 ∨ arr.length ≤ index then .thrown
      else
        match arr.at? index with
        | none => .thrown
        | some element => .done state [element]

/-- `slicea`.  The bytes of the slice count as touched. -/
def slicea (state : ArrayState) (arr : Option VmArray) (beginIndex endIndex : ℤ) : Outcome :=
  let length := wordSub endIndex beginIndex
  match arr with
  | none => if length = 0 then .done state [] else .thrown
  | some arr =>
      if beginIndex < 0 ∨ arr.length < endIndex ∨ length < 0 then .thrown
      else
        let newArray := arr.slice beginIndex length
        .done { state with arrays := state.arrays ++ [newArray] } [newArray.extent]

/-- `slicela`. -/
def slicela (state : ArrayState) (srcArr destArr : Option VmArray) (beginIndex : ℤ) : Outcome :=
  match srcArr with
  | none => .done state []
  | some srcArr =>
      match destArr with
      | none => .thrown
      | some destArr =>
          match destArr.copyFrom srcArr beginIndex with
          | none => .thrown
          | some touched => .done state touched

/-- The array instructions; arrays are named by when they were made, or nil. -/
inductive Action where
  | newa (type : ElementType) (arraySize : ℤ) (granted : Bool)
  | ind (arr : Option ℕ) (index : ℤ)
  | slicea (arr : Option ℕ) (beginIndex endIndex : ℤ)
  | slicela (srcArr destArr : Option ℕ) (beginIndex : ℤ)
  deriving DecidableEq

/-- The array that an operand holds. -/
def arrayOf (state : ArrayState) (arr : Option ℕ) : Option VmArray :=
  arr.bind fun id => state.arrays[id]?

def perform (state : ArrayState) : Action → Outcome
  | .newa type arraySize granted => state.newArray type arraySize granted
  | .ind arr index => state.indexIn (state.arrayOf arr) index
  | .slicea arr beginIndex endIndex => state.slicea (state.arrayOf arr) beginIndex endIndex
  | .slicela srcArr destArr beginIndex =>
      state.slicela (state.arrayOf srcArr) (state.arrayOf destArr) beginIndex

def Action.operands : Action → List ℤ
  | .newa _ arraySize _ => [arraySize]
  | .ind _ index => [index]
  | .slicea _ beginIndex endIndex => [beginIndex, endIndex]
  | .slicela _ _ beginIndex => [beginIndex]

/-- The numbers of an instruction are words. -/
def Action.Typed (action : Action) : Prop :=
  ∀ operand ∈ action.operands, IsWord operand

instance (action : Action) : Decidable action.Typed :=
  inferInstanceAs (Decidable (∀ operand ∈ action.operands, IsWord operand))

/-- The state after an instruction; one that throws changes nothing here. -/
def step (state : ArrayState) (action : Action) : Option ArrayState :=
  if action.Typed then
    match state.perform action with
    | .thrown => some state
    | .done after _ => some after
  else none

/-- The access is empty or inside its allocation. -/
def Inside (state : ArrayState) (access : Access) : Prop :=
  access.size ≤ 0 ∨ ∃ bytes, state.allocations[access.allocation]? = some bytes ∧
    0 ≤ access.start ∧ access.start + access.size ≤ bytes

/-- No wrapped number is accepted: what is allocated has the size of the elements, a slice
has the length between its ends, and what is copied ends in the destination. -/
def Unwrapped (state after : ArrayState) : Action → Prop
  | .newa type arraySize _ =>
      after.allocations = state.allocations ++ [arraySize * type.sizeInBytes]
  | .slicea arr beginIndex endIndex =>
      ∀ original ∈ state.arrayOf arr, ∃ slice, after.arrays = state.arrays ++ [slice] ∧
        slice.length = endIndex - beginIndex
  | .slicela srcArr destArr beginIndex =>
      ∀ source ∈ state.arrayOf srcArr, ∀ dest ∈ state.arrayOf destArr,
        beginIndex + source.length ≤ dest.length
  | .ind _ _ => True

/-- An instruction throws, or computes no wrapped size and touches bytes inside allocations
only. -/
def Exact (state : ArrayState) (action : Action) : Prop :=
  ∀ after touched, state.perform action = .done after touched →
    state.Unwrapped after action ∧ ∀ access ∈ touched, after.Inside access

/-- The numbers of an instruction do not wrap around, or it is refused all the same. -/
def Permitted (state : ArrayState) : Action → Prop
  | .newa type arraySize granted =>
      IsWord (arraySize * type.sizeInBytes) ∨ granted = false ∨
        wordMul arraySize type.sizeInBytes < 0
  | .ind _ _ => True
  | .slicea arr beginIndex endIndex =>
      ∀ original ∈ state.arrayOf arr,
        beginIndex < 0 ∨ original.length < endIndex ∨ IsWord (endIndex - beginIndex)
  | .slicela srcArr destArr beginIndex =>
      ∀ source ∈ state.arrayOf srcArr, ∀ dest ∈ state.arrayOf destArr,
        beginIndex < 0 ∨ source.elementType ≠ dest.elementType ∨
          dest.length < wordAdd beginIndex source.length ∨
          (IsWord (beginIndex + source.length) ∧
            (0 ≤ source.length ∨ source.elementType.sizeInBytes = 0 ∨
              (beginIndex = 0 ∧ source.length = dest.length)))

def Reached : ArrayState → Prop :=
  Transition.Reachable (· = init) (Transition.StepsBy Permitted step)

end ArrayState

/-- An array lies in an allocation of so many bytes.  With an element size that is negative
an array has no elements, and none but the whole allocation. -/
structure Placed (bytes : ℤ) (array : VmArray) : Prop where
  bytesWord : bytes < 2 ^ 31
  length : IsWord array.length
  offset : 0 ≤ array.offset
  size : 0 ≤ array.length * array.elementType.sizeInBytes
  inside : array.offset + array.length * array.elementType.sizeInBytes ≤ bytes
  whole : array.elementType.sizeInBytes < 0 →
    array.offset = 0 ∧ bytes = array.length * array.elementType.sizeInBytes

/-- Every array lies in its allocation. -/
def Sound (state : ArrayState) : Prop :=
  ∀ array ∈ state.arrays, ∃ bytes, state.allocations[array.allocation]? = some bytes ∧
    Placed bytes array

section Places

variable {bytes : ℤ} {array : VmArray}

theorem Placed.size_lt (placed : Placed bytes array) :
    array.length * array.elementType.sizeInBytes < 2 ^ 31 := by
  have := placed.bytesWord
  have := placed.offset
  have := placed.inside
  omega

/-- An index below the length is not scaled beyond the array. -/
theorem Placed.scaled (placed : Placed bytes array) {index : ℤ} (low : 0 ≤ index)
    (high : index ≤ array.length) (size : 0 ≤ array.elementType.sizeInBytes) :
    0 ≤ index * array.elementType.sizeInBytes ∧
      index * array.elementType.sizeInBytes ≤ array.length * array.elementType.sizeInBytes ∧
      wordMul index array.elementType.sizeInBytes = index * array.elementType.sizeInBytes := by
  have nonneg := mul_nonneg low size
  have le := mul_le_mul_of_nonneg_right high size
  have small := placed.size_lt
  refine ⟨nonneg, le, wordMul_eq ⟨by omega, by omega⟩⟩

/-- Where elements have a negative size there is none. -/
theorem Placed.length_nonpos (placed : Placed bytes array)
    (size : array.elementType.sizeInBytes < 0) : array.length ≤ 0 := by
  by_contra positive
  have := mul_neg_of_pos_of_neg (not_le.mp positive) size
  exact absurd placed.size (not_le.mpr this)

/-- Where there are elements their size is not negative. -/
theorem Placed.size_nonneg (placed : Placed bytes array) (positive : 0 < array.length) :
    0 ≤ array.elementType.sizeInBytes := by
  by_contra negative
  have := placed.length_nonpos (not_le.mp negative)
  omega

/-- A slice that was not refused lies in the allocation. -/
theorem Placed.slice (placed : Placed bytes array) {beginIndex endIndex : ℤ}
    (low : 0 ≤ beginIndex) (between : beginIndex ≤ endIndex) (high : endIndex ≤ array.length) :
    Placed bytes (array.slice beginIndex (endIndex - beginIndex)) := by
  have word := placed.length
  unfold IsWord at word
  have isWord : IsWord (endIndex - beginIndex) := ⟨by omega, by omega⟩
  rcases le_or_gt 0 array.elementType.sizeInBytes with size | size
  · obtain ⟨beginNonneg, _, beginExact⟩ := placed.scaled low (le_trans between high) size
    obtain ⟨_, endInside, _⟩ := placed.scaled (le_trans low between) high size
    have inside := placed.inside
    constructor
    · exact placed.bytesWord
    · exact isWord
    · have := placed.offset
      rw [VmArray.slice, beginExact]
      dsimp only
      omega
    · exact mul_nonneg (by dsimp only [VmArray.slice]; omega) size
    · rw [VmArray.slice, beginExact, sub_mul]
      dsimp only
      omega
    · intro negative
      exact absurd size (not_le.mpr negative)
  · have nonpos := placed.length_nonpos size
    obtain rfl : beginIndex = 0 := by omega
    obtain rfl : endIndex = 0 := by omega
    have isEmpty : array.length = 0 := by omega
    have isSame : array.slice 0 (0 - 0) = array := by
      rw [VmArray.slice, wordMul_eq (by rw [zero_mul]; decide), zero_mul, add_zero, sub_zero,
        ← isEmpty]
    rw [isSame]
    exact placed

end Places

section Steps

variable {state after : ArrayState} {touched : List Access}

theorem Sound.arrayOf (sound : Sound state) {arr : Option ℕ} {array : VmArray}
    (found : array ∈ state.arrayOf arr) : ∃ bytes,
      state.allocations[array.allocation]? = some bytes ∧ Placed bytes array := by
  obtain ⟨id, _, isArray⟩ := Option.bind_eq_some_iff.mp found
  exact sound array (List.mem_of_getElem? isArray)

theorem inside_extent {bytes : ℤ} {array : VmArray}
    (isAllocation : state.allocations[array.allocation]? = some bytes)
    (placed : Placed bytes array) : state.Inside array.extent :=
  Or.inr ⟨bytes, isAllocation, placed.offset, placed.inside⟩

/-- A product is granted that does not wrap around, or it is not the product. -/
theorem exact_newa_iff (type : ElementType) (arraySize : ℤ) (granted : Bool) :
    state.Exact (.newa type arraySize granted) ↔
      state.Permitted (.newa type arraySize granted) := by
  unfold ArrayState.Exact ArrayState.Permitted ArrayState.Unwrapped ArrayState.perform
    ArrayState.newArray
  by_cases refused : granted = false ∨ wordMul arraySize type.sizeInBytes < 0
  · simp only [if_pos refused]
    exact iff_of_true nofun (Or.inr refused)
  · simp only [if_neg refused]
    constructor
    · intro exactly
      have isExact := (exactly _ _ rfl).1
      have same := List.append_cancel_left isExact
      have isProduct : wordMul arraySize type.sizeInBytes = arraySize * type.sizeInBytes :=
        List.singleton_injective same
      left
      rw [← isProduct]
      exact isWord_bmod _
    · intro permitted
      have isWord := permitted.resolve_right refused
      rintro _ _ ⟨⟩
      constructor
      · rw [wordMul_eq isWord]
      · nofun

theorem exact_ind (sound : Sound state) (arr : Option ℕ) (index : ℤ) :
    state.Exact (.ind arr index) := by
  intro after touched done
  refine ⟨trivial, ?_⟩
  rw [ArrayState.perform] at done
  unfold ArrayState.indexIn at done
  cases found : state.arrayOf arr with
  | none =>
      rw [found] at done
      cases done
  | some array =>
      obtain ⟨bytes, isAllocation, placed⟩ := sound.arrayOf found
      rw [found] at done
      dsimp only at done
      by_cases outside : index < 0 ∨ array.length ≤ index
      · rw [if_pos outside] at done
        cases done
      · rw [if_neg outside, VmArray.at?, if_neg outside] at done
        cases done
        intro access member
        obtain rfl := List.mem_singleton.mp member
        have low : 0 ≤ index := by omega
        have high : index < array.length := by omega
        have size := placed.size_nonneg (lt_of_le_of_lt low high)
        obtain ⟨nonneg, _, isExact⟩ := placed.scaled low (le_of_lt high) size
        obtain ⟨_, below, _⟩ := placed.scaled (show 0 ≤ index + 1 by omega) high size
        rw [add_mul, one_mul] at below
        have offset := placed.offset
        have inside := placed.inside
        right
        refine ⟨bytes, isAllocation, ?_, ?_⟩
        · dsimp only
          omega
        · dsimp only
          omega

theorem exact_slicea_iff (sound : Sound state) (arr : Option ℕ) {beginIndex endIndex : ℤ}
    (isBegin : IsWord beginIndex) (isEnd : IsWord endIndex) :
    state.Exact (.slicea arr beginIndex endIndex) ↔
      state.Permitted (.slicea arr beginIndex endIndex) := by
  unfold ArrayState.Exact ArrayState.Permitted
  rw [ArrayState.perform]
  unfold ArrayState.slicea
  cases found : state.arrayOf arr with
  | none =>
      dsimp only
      apply iff_of_true
      · intro after touched done
        by_cases isEmpty : wordSub endIndex beginIndex = 0
        · rw [if_pos isEmpty] at done
          cases done
          refine ⟨fun original isOriginal => ?_, nofun⟩
          rw [found] at isOriginal
          cases isOriginal
        · rw [if_neg isEmpty] at done
          cases done
      · intro original isOriginal
        rw [found] at isOriginal
        cases isOriginal
  | some array =>
      obtain ⟨bytes, isAllocation, placed⟩ := sound.arrayOf found
      dsimp only
      by_cases refused : beginIndex < 0 ∨ array.length < endIndex ∨ wordSub endIndex beginIndex < 0
      · rw [if_pos refused]
        apply iff_of_true nofun
        intro original isOriginal
        obtain rfl := Option.mem_unique found isOriginal
        rcases refused with low | high | negative
        · exact Or.inl low
        · exact Or.inr (Or.inl high)
        · rcases lt_or_ge beginIndex 0 with low | nonneg
          · exact Or.inl low
          · right
            right
            by_contra notWord
            unfold IsWord at isBegin isEnd notWord
            have below : endIndex - beginIndex < -2 ^ 31 := by omega
            rw [wordSub, bmod_of_below below (by omega)] at negative
            omega
      · rw [if_neg refused]
        constructor
        · intro exactly
          obtain ⟨slice, isArrays, isLength⟩ := (exactly _ _ rfl).1 array found
          have isSlice := List.singleton_injective (List.append_cancel_left isArrays)
          intro original isOriginal
          right
          right
          rw [← isLength, ← isSlice]
          exact isWord_bmod _
        · intro permitted
          obtain ⟨notLow, notHigh, _⟩ := not_or.mp refused |>.imp_right not_or.mp
          have isWord := ((permitted array found).resolve_left notLow).resolve_left notHigh
          rw [wordSub_eq isWord] at refused ⊢
          rintro _ _ ⟨⟩
          refine ⟨fun original isOriginal => ?_, fun access member => ?_⟩
          · exact ⟨_, rfl, rfl⟩
          · obtain rfl := List.mem_singleton.mp member
            exact inside_extent isAllocation (placed.slice (by omega) (by omega) (by omega))

/-- Elements from an index on that end in the array are bytes of its allocation. -/
theorem Placed.inside_from {bytes count index : ℤ} {array : VmArray}
    (isAllocation : state.allocations[array.allocation]? = some bytes)
    (placed : Placed bytes array) (size : 0 ≤ array.elementType.sizeInBytes) (low : 0 ≤ index)
    (nonneg : 0 ≤ count) (high : index + count ≤ array.length) :
    state.Inside ⟨array.allocation,
      array.offset + wordMul index array.elementType.sizeInBytes,
      count * array.elementType.sizeInBytes⟩ := by
  obtain ⟨indexNonneg, _, isExact⟩ := placed.scaled low (by omega) size
  obtain ⟨_, below, _⟩ := placed.scaled (add_nonneg low nonneg) high size
  rw [add_mul] at below
  have offset := placed.offset
  have inside := placed.inside
  refine Or.inr ⟨bytes, isAllocation, ?_, ?_⟩
  · dsimp only
    omega
  · dsimp only
    omega

theorem asSize_of_nonneg {value : ℤ} (nonneg : 0 ≤ value) : asSize value = value :=
  if_neg (not_lt.mpr nonneg)

/-- What `copy_from` touches when it does not throw. -/
theorem copyFrom_touched {source dest : VmArray} {beginIndex : ℤ} {bytes : ℤ}
    (placed : Placed bytes source)
    (copied : dest.copyFrom source beginIndex = some touched) :
    ¬ (beginIndex < 0 ∨ dest.length < wordAdd beginIndex source.length) ∧
      source.elementType = dest.elementType ∧
      source.extent ∈ touched ∧
      ⟨dest.allocation, dest.offset + wordMul beginIndex dest.elementType.sizeInBytes,
        source.length * dest.elementType.sizeInBytes⟩ ∈ touched ∧
      ∀ access ∈ touched, access = source.extent ∨
        access = ⟨dest.allocation,
          dest.offset + wordMul beginIndex dest.elementType.sizeInBytes,
          source.length * dest.elementType.sizeInBytes⟩ := by
  unfold VmArray.copyFrom at copied
  by_cases refused : beginIndex < 0 ∨ dest.length < wordAdd beginIndex source.length
  · rw [if_pos refused] at copied
    cases copied
  · rw [if_neg refused] at copied
    by_cases different : source.elementType ≠ dest.elementType
    · rw [if_pos different] at copied
      cases copied
    · have same := not_not.mp different
      have amount : asSize (wordMul source.length dest.elementType.sizeInBytes) =
          source.length * dest.elementType.sizeInBytes := by
        rw [← same]
        have size := placed.size
        rw [wordMul_eq ⟨by omega, placed.size_lt⟩, asSize_of_nonneg size]
      rw [if_neg different, amount] at copied
      obtain rfl := Option.some.inj copied
      refine ⟨refused, same, ?_, ?_, ?_⟩
      · rw [VmArray.extent, same]
        simp
      · simp
      · intro access member
        rw [VmArray.extent, same]
        split_ifs at member with counted
        · simp only [VmArray.extent, same, List.cons_append, List.nil_append, List.mem_cons,
            List.not_mem_nil, or_false] at member
          tauto
        · simp only [List.nil_append, List.mem_cons, List.not_mem_nil, or_false] at member
          exact member

/-- With elements of a negative size only a whole array is copied inside its destination. -/
theorem whole_of_inside {source dest : VmArray} {sourceBytes destBytes beginIndex : ℤ}
    (isAllocation : state.allocations[dest.allocation]? = some destBytes)
    (sourcePlaced : Placed sourceBytes source) (destPlaced : Placed destBytes dest)
    (same : source.elementType = dest.elementType) (low : 0 ≤ beginIndex)
    (ends : beginIndex + source.length ≤ dest.length) (negative : source.length < 0)
    (size : dest.elementType.sizeInBytes < 0)
    (inside : state.Inside ⟨dest.allocation,
      dest.offset + wordMul beginIndex dest.elementType.sizeInBytes,
      source.length * dest.elementType.sizeInBytes⟩) :
    beginIndex = 0 ∧ source.length = dest.length := by
  have destNonpos := destPlaced.length_nonpos size
  have sourceSize := sourcePlaced.size_lt
  rw [same] at sourceSize
  have scaled : beginIndex * dest.elementType.sizeInBytes ≥
      -(source.length * dest.elementType.sizeInBytes) := by
    have := mul_le_mul_of_nonpos_right (show beginIndex ≤ -source.length by omega) (le_of_lt size)
    linarith
  have nonpos := mul_nonpos_of_nonneg_of_nonpos low (le_of_lt size)
  have positive := mul_pos_of_neg_of_neg negative size
  rcases inside with isEmpty | ⟨bytes, isBytes, starts, stops⟩
  · exact absurd isEmpty (not_le.mpr positive)
  · obtain rfl := Option.some.inj (isAllocation.symm.trans isBytes)
    obtain ⟨offset, isWhole⟩ := destPlaced.whole size
    dsimp only at starts stops
    rw [wordMul_eq ⟨by omega, by omega⟩, offset, zero_add] at starts stops
    have isZero : beginIndex * dest.elementType.sizeInBytes = 0 := by omega
    have isBegin : beginIndex = 0 := (mul_eq_zero.mp isZero).resolve_right (ne_of_lt size)
    rw [isZero, zero_add, isWhole] at stops
    have atLeast : dest.length ≤ source.length := (mul_le_mul_right_of_neg size).mp stops
    exact ⟨isBegin, by omega⟩

theorem exact_slicela_iff (sound : Sound state) (srcArr destArr : Option ℕ) {beginIndex : ℤ}
    (isBegin : IsWord beginIndex) :
    state.Exact (.slicela srcArr destArr beginIndex) ↔
      state.Permitted (.slicela srcArr destArr beginIndex) := by
  unfold ArrayState.Exact ArrayState.Permitted ArrayState.Unwrapped
  rw [ArrayState.perform]
  unfold ArrayState.slicela
  cases isSource : state.arrayOf srcArr with
  | none =>
      apply iff_of_true
      · rintro _ _ ⟨⟩
        refine ⟨fun source found => ?_, nofun⟩
        rw [isSource] at found
        cases found
      · intro source found
        rw [isSource] at found
        cases found
  | some source =>
      cases isDest : state.arrayOf destArr with
      | none =>
          apply iff_of_true nofun
          intro _ _ dest found
          rw [isDest] at found
          cases found
      | some dest =>
          obtain ⟨sourceBytes, sourceAllocation, sourcePlaced⟩ := sound.arrayOf isSource
          obtain ⟨destBytes, destAllocation, destPlaced⟩ := sound.arrayOf isDest
          dsimp only
          cases copied : dest.copyFrom source beginIndex with
          | none =>
              apply iff_of_true nofun
              intro other isOther otherDest isOtherDest
              obtain rfl := Option.mem_unique isSource isOther
              obtain rfl := Option.mem_unique isDest isOtherDest
              unfold VmArray.copyFrom at copied
              split_ifs at copied with refused different
              · exact refused.imp_right fun high => Or.inr (Or.inl high)
              · exact Or.inr (Or.inl different)
          | some touched =>
              obtain ⟨notRefused, same, sourceTouched, destTouched, only⟩ :=
                copyFrom_touched sourcePlaced copied
              obtain ⟨low, ends⟩ := not_or.mp notRefused
              have sourceLength := sourcePlaced.length
              have destLength := destPlaced.length
              unfold IsWord at isBegin sourceLength destLength
              constructor
              · intro exactly
                obtain ⟨unwrapped, inside⟩ := exactly _ _ rfl
                intro other isOther otherDest isOtherDest
                obtain rfl := Option.mem_unique isSource isOther
                obtain rfl := Option.mem_unique isDest isOtherDest
                have isSum := unwrapped source isSource dest isDest
                refine Or.inr (Or.inr (Or.inr ⟨⟨by omega, by omega⟩, ?_⟩))
                rcases le_or_gt 0 source.length with nonneg | negative
                · exact Or.inl nonneg
                · have notPositive : source.elementType.sizeInBytes ≤ 0 := by
                    by_contra positive
                    have := mul_neg_of_neg_of_pos negative (not_le.mp positive)
                    exact absurd sourcePlaced.size (not_le.mpr this)
                  rcases notPositive.lt_or_eq with size | isZero
                  · right
                    right
                    rw [same] at size
                    exact whole_of_inside destAllocation sourcePlaced destPlaced same (by omega)
                      isSum negative size (inside _ destTouched)
                  · exact Or.inr (Or.inl isZero)
              · intro permitted
                obtain ⟨isSum, fits⟩ := (((permitted source isSource dest isDest).resolve_left
                  low).resolve_left (not_not.mpr same)).resolve_left ends
                rw [wordAdd_eq isSum] at ends
                rintro _ _ ⟨⟩
                constructor
                · intro other isOther otherDest isOtherDest
                  obtain rfl := Option.mem_unique isSource isOther
                  obtain rfl := Option.mem_unique isDest isOtherDest
                  omega
                · intro access member
                  rcases only access member with rfl | rfl
                  · exact inside_extent sourceAllocation sourcePlaced
                  · rcases fits with nonneg | isZero | ⟨rfl, isWhole⟩
                    · rcases nonneg.lt_or_eq with positive | isEmpty
                      · have size := sourcePlaced.size_nonneg positive
                        rw [same] at size
                        exact Placed.inside_from destAllocation destPlaced size (by omega) nonneg
                          (by omega)
                      · left
                        dsimp only
                        rw [← isEmpty, zero_mul]
                    · left
                      dsimp only
                      rw [← same, isZero, mul_zero]
                    · rw [wordMul_eq (by rw [zero_mul]; decide), zero_mul, add_zero, isWhole]
                      exact inside_extent destAllocation destPlaced

theorem sound_newa (sound : Sound state) (type : ElementType) {arraySize : ℤ}
    (isWord : IsWord arraySize) (granted : Bool)
    (permitted : state.Permitted (.newa type arraySize granted))
    (done : state.perform (.newa type arraySize granted) = .done after touched) :
    Sound after := by
  have exactly := ((exact_newa_iff type arraySize granted).mpr permitted _ _ done).1
  rw [ArrayState.perform, ArrayState.newArray] at done
  split_ifs at done with refused
  cases done
  have isProduct : wordMul arraySize type.sizeInBytes = arraySize * type.sizeInBytes :=
    List.singleton_injective (List.append_cancel_left exactly)
  have product := isWord_bmod (arraySize * type.sizeInBytes)
  rw [show (arraySize * type.sizeInBytes).bmod (2 ^ 32) = _ from isProduct] at product
  intro array member
  dsimp only at member ⊢
  rcases List.mem_append.mp member with earlier | isNew
  · obtain ⟨bytes, isAllocation, placed⟩ := sound array earlier
    exact ⟨bytes, List.getElem?_append_left (List.getElem?_eq_some_iff.mp isAllocation).1 ▸
      isAllocation, placed⟩
  · obtain rfl := List.mem_singleton.mp isNew
    refine ⟨wordMul arraySize type.sizeInBytes, List.getElem?_concat_length, ?_⟩
    rw [isProduct] at refused ⊢
    constructor
    · exact product.2
    · exact isWord
    · exact le_rfl
    · exact not_lt.mp fun negative => refused (Or.inr negative)
    · exact le_of_eq (zero_add _)
    · exact fun _ => ⟨rfl, rfl⟩

theorem sound_slicea (sound : Sound state) (arr : Option ℕ) {beginIndex endIndex : ℤ}
    (permitted : state.Permitted (.slicea arr beginIndex endIndex))
    (done : state.perform (.slicea arr beginIndex endIndex) = .done after touched) :
    Sound after := by
  rw [ArrayState.perform] at done
  unfold ArrayState.slicea at done
  cases found : state.arrayOf arr with
  | none =>
      rw [found] at done
      dsimp only at done
      split_ifs at done
      cases done
      exact sound
  | some array =>
      obtain ⟨bytes, isAllocation, placed⟩ := sound.arrayOf found
      rw [found] at done
      dsimp only at done
      split_ifs at done with refused
      cases done
      obtain ⟨notLow, rest⟩ := not_or.mp refused
      obtain ⟨notHigh, notNegative⟩ := not_or.mp rest
      have isWord := ((permitted array found).resolve_left notLow).resolve_left notHigh
      rw [wordSub_eq isWord] at notNegative ⊢
      intro other member
      rcases List.mem_append.mp member with earlier | isNew
      · exact sound other earlier
      · obtain rfl := List.mem_singleton.mp isNew
        exact ⟨bytes, isAllocation, placed.slice (by omega) (by omega) (by omega)⟩

/-- Elements are read and copied in the arrays that there are. -/
theorem done_same {action : ArrayState.Action}
    (accesses : (∃ arr index, action = .ind arr index) ∨
      ∃ srcArr destArr beginIndex, action = .slicela srcArr destArr beginIndex)
    (done : state.perform action = .done after touched) : after = state := by
  rcases accesses with ⟨arr, index, rfl⟩ | ⟨srcArr, destArr, beginIndex, rfl⟩
  · rw [ArrayState.perform] at done
    unfold ArrayState.indexIn at done
    cases found : state.arrayOf arr with
    | none =>
        rw [found] at done
        cases done
    | some array =>
        rw [found] at done
        dsimp only at done
        split_ifs at done with outside
        rw [VmArray.at?, if_neg outside] at done
        cases done
        rfl
  · rw [ArrayState.perform] at done
    unfold ArrayState.slicela at done
    cases isSource : state.arrayOf srcArr with
    | none =>
        rw [isSource] at done
        cases done
        rfl
    | some source =>
        cases isDest : state.arrayOf destArr with
        | none =>
            rw [isSource, isDest] at done
            cases done
        | some dest =>
            rw [isSource, isDest] at done
            dsimp only at done
            cases copied : dest.copyFrom source beginIndex with
            | none =>
                rw [copied] at done
                cases done
            | some touched =>
                rw [copied] at done
                cases done
                rfl

theorem sound_step (sound : Sound state) {action : ArrayState.Action} (typed : action.Typed)
    (permitted : state.Permitted action) (done : state.perform action = .done after touched) :
    Sound after := by
  cases action with
  | newa type arraySize granted =>
      exact sound_newa sound type (typed _ List.mem_cons_self) granted permitted done
  | ind arr index =>
      rw [done_same (Or.inl ⟨arr, index, rfl⟩) done]
      exact sound
  | slicea arr beginIndex endIndex =>
      exact sound_slicea sound arr permitted done
  | slicela srcArr destArr beginIndex =>
      rw [done_same (Or.inr ⟨srcArr, destArr, beginIndex, rfl⟩) done]
      exact sound

end Steps

/-- Every array of a run lies in its allocation. -/
theorem sound_of_reached {state : ArrayState} (reached : state.Reached) : Sound state := by
  refine Transition.Reachable.invariant Sound ?_ ?_ reached
  · rintro _ rfl array member
    cases member
  · rintro before after _ sound ⟨action, permitted, isStep⟩
    unfold ArrayState.step at isStep
    split_ifs at isStep with typed
    cases performed : before.perform action with
    | thrown =>
        rw [performed] at isStep
        cases isStep
        exact sound
    | done next touched =>
        rw [performed] at isStep
        cases isStep
        exact sound_step sound typed permitted performed

/-- In a run whose instructions are permitted, the next one computes no wrapped size and
stays inside allocations exactly when it is permitted. -/
theorem exact_iff_permitted {state : ArrayState} (reached : state.Reached)
    {action : ArrayState.Action} (typed : action.Typed) :
    state.Exact action ↔ state.Permitted action := by
  have sound := sound_of_reached reached
  cases action with
  | newa type arraySize granted => exact exact_newa_iff type arraySize granted
  | ind arr index => exact iff_of_true (exact_ind sound arr index) trivial
  | slicea arr beginIndex endIndex =>
      exact exact_slicea_iff sound arr (typed _ List.mem_cons_self)
        (typed _ (List.mem_cons_of_mem _ List.mem_cons_self))
  | slicela srcArr destArr beginIndex =>
      exact exact_slicela_iff sound srcArr destArr (typed _ List.mem_cons_self)

def wordElements : ElementType where
  sizeInBytes := 4
  pointerMap := []
  finalizer := none
  isWord := by decide

/-- The state with one array of so many words, in an allocation of so many bytes. -/
def oneArray (length bytes : ℤ) : ArrayState where
  allocations := [bytes]
  arrays := [{ allocation := 0, offset := 0, elementType := wordElements, length := length }]

theorem reached_oneArray : (oneArray 2 8).Reached := by
  have started : ArrayState.init.Reached := Transition.Reachable.start rfl
  exact started.next ⟨.newa wordElements 2 true, Or.inl (by decide), by decide +kernel⟩

/-- The second of two words is inside the array. -/
theorem exact_second_word : (oneArray 2 8).Exact (.slicea (some 0) 1 2) := by
  apply (exact_iff_permitted reached_oneArray (by decide)).mpr
  rintro original ⟨⟩
  exact Or.inr (Or.inr (by decide))

/-- An array of 2^30 + 1 words gets 4 bytes; a slice of an array of two words may have
2^31 - 1 elements, and a copy may begin far behind its destination. -/
theorem wrapped_sizes_accepted :
    ¬ ArrayState.init.Exact (.newa wordElements (2 ^ 30 + 1) true) ∧
      ¬ (oneArray (2 ^ 30 + 1) 4).Exact (.ind (some 0) 5) ∧
      ¬ (oneArray 2 8).Exact (.slicea (some 0) 1 (-2 ^ 31)) ∧
      ¬ (oneArray 2 8).Exact (.slicela (some 0) (some 0) (2 ^ 31 - 1)) := by
  refine ⟨fun exactly => ?_, fun exactly => ?_, fun exactly => ?_, fun exactly => ?_⟩
  · have performed : ArrayState.init.perform (.newa wordElements (2 ^ 30 + 1) true) =
        .done (oneArray (2 ^ 30 + 1) 4) [] := by decide +kernel
    have allocated : [(4 : ℤ)] = [(2 ^ 30 + 1) * 4] := (exactly _ _ performed).1
    exact absurd allocated (by decide)
  · have performed : (oneArray (2 ^ 30 + 1) 4).perform (.ind (some 0) 5) =
        .done (oneArray (2 ^ 30 + 1) 4) [⟨0, 20, 4⟩] := by decide +kernel
    rcases (exactly _ _ performed).2 _ List.mem_cons_self with isEmpty | ⟨bytes, isBytes, _, stops⟩
    · exact absurd isEmpty (by decide)
    · obtain rfl := Option.some.inj isBytes
      exact absurd stops (by decide)
  · have performed : ∃ after touched,
        (oneArray 2 8).perform (.slicea (some 0) 1 (-2 ^ 31)) = .done after touched ∧
          after.arrays.map VmArray.length = [2, 2 ^ 31 - 1] := by
      exact ⟨_, _, rfl, by decide +kernel⟩
    obtain ⟨after, touched, isDone, lengths⟩ := performed
    obtain ⟨slice, isArrays, isLength⟩ := (exactly _ _ isDone).1 _ rfl
    rw [isArrays, List.map_append, List.map_singleton, isLength] at lengths
    revert lengths
    decide
  · have performed : ∃ touched,
        (oneArray 2 8).perform (.slicela (some 0) (some 0) (2 ^ 31 - 1)) =
          .done (oneArray 2 8) touched := ⟨_, by rfl⟩
    obtain ⟨touched, isDone⟩ := performed
    exact absurd ((exactly _ _ isDone).1 _ rfl _ rfl) (by decide)

end Disvm.ArrayBounds
