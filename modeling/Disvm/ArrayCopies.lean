import Disvm.MultiwordMoves

/-!
# Copies of arrays

`copy_from` goes through the elements, adds references for one at the source and releases the
one at the destination, and moves all of them at the end.  Where the two ranges overlap, a
release can take the last reference to an element that is still to be copied.
-/

namespace Disvm.ObjectMemory

open RefCounting

/-- `vm_array_t`.  The elements of a slice are in the memory of the original. -/
structure VmArray where
  elementType : TypeDescriptor
  length : BitVec 32
  arr : Region
  deriving DecidableEq, Repr

namespace VmArray

def count (array : VmArray) : ℕ :=
  array.length.toInt.toNat

def element (array : VmArray) (index : ℕ) : Region :=
  array.arr.shift (index * array.elementType.wordCount)

end VmArray

def MemoryState.array (state : MemoryState) (id : ℕ) : Option VmArray :=
  match (state.heap.cells id).map VmAlloc.kind with
  | some (.array elementType length none) => some ⟨elementType, length, ⟨.object id, 0⟩⟩
  | some (.array elementType length (some (original, start))) =>
      some ⟨elementType, length, ⟨.object original, start⟩⟩
  | _ => none

section Definitions

variable (type : TypeDescriptor) (source : ℕ) (destArr sourceArr : Region)

/-- One turn of the loop; the length of the source is read again each time. -/
def copyElement (state : MemoryState) (i : ℕ) : MemoryState :=
  ((state.touch source).incRefCountInMemory type
    (sourceArr.shift (i * type.wordCount))).decRefCountInMemory type
      (destArr.shift (i * type.wordCount))

/-- `copy_from`, or nothing if it throws. -/
def copyFrom (state : MemoryState) (this source : ℕ) (thisBeginIndex : BitVec 32) :
    Option MemoryState :=
  match state.array this, state.array source with
  | some dest, some src =>
      if thisBeginIndex.toInt < 0 ∨ dest.length.toInt < (thisBeginIndex + src.length).toInt then
        none
      else if src.elementType ≠ dest.elementType then none
      else
        let destArr := dest.element thisBeginIndex.toInt.toNat
        let moved :=
          if dest.elementType.mapInBytes = 0 then state
          else (List.range src.count).foldl
            (copyElement dest.elementType source destArr src.arr) state
        some (((moved.touch this).touch source).memmove destArr src.arr
          (src.count * dest.elementType.wordCount))
  | _, _ => none

def slicela (state : MemoryState) (src dest : Region) (beginIndex : BitVec 32) :
    Option MemoryState :=
  match state.pointerAt src with
  | none => some (state.touchOwner src.owner)
  | some srcArr =>
      match state.pointerAt dest with
      | none => none
      | some destArr =>
          copyFrom ((((state.touchOwner src.owner).touch srcArr).touchOwner dest.owner).touch
            destArr) destArr srcArr beginIndex

/-- The offsets of the pointers in the first elements. -/
def copiedOffsets (count : ℕ) : List ℕ :=
  (List.range count).flatMap fun i => type.pointerOffsets.map (i * type.wordCount + ·)

/-- What the loop does. -/
def copySteps (count : ℕ) : List CountStep :=
  (List.range count).flatMap fun i => .access source ::
    ((type.pointerOffsets.map (i * type.wordCount + ·)).map .increment ++
      (type.pointerOffsets.map (i * type.wordCount + ·)).map .decrement)

/-- The arrays are accessed once more after the loop. -/
def copyFromSteps (this source count : ℕ) : List CountStep :=
  copySteps type source count ++ [.access this] ++ [.access source]

/-- There are references that keep the object when so many elements have been gone through:
those of their copies, and those that there are without the destination of these. -/
def CopyKeeps (state : MemoryState) (count id : ℕ) : Prop :=
  Kept counted (cleared destArr state (copiedOffsets type count)).heap
    (fun target => (cleared destArr state (copiedOffsets type count)).outside target +
      (targets (state.read sourceArr (count * type.wordCount))).count target) id

/-- What an element refers to is kept until it is copied, and the arrays are kept. -/
def CopyPermitted (state : MemoryState) (this source count : ℕ) : Prop :=
  (∀ i < count, ∀ id ∈ targets (state.read (sourceArr.shift (i * type.wordCount))
      type.wordCount), CopyKeeps type destArr sourceArr state i id) ∧
    CopyKeeps type destArr sourceArr state count this ∧
    CopyKeeps type destArr sourceArr state count source

end Definitions

/-- The elements of the array are in memory. -/
structure Elements (state : MemoryState) (array : VmArray) : Prop where
  lives : state.Lives array.arr.owner
  length : 0 ≤ array.length.toInt
  inside : array.arr.start + array.count * array.elementType.wordCount ≤
    (state.words array.arr.owner).length
  fits : ∀ i < array.count,
    array.elementType.Fits (state.read (array.element i) array.elementType.wordCount)

section Offsets

variable {type : TypeDescriptor} {count offset : ℕ} {source : ℕ}

theorem shift_shift (region : Region) (first second : ℕ) :
    (region.shift first).shift second = region.shift (first + second) := by
  unfold Region.shift
  rw [Nat.add_assoc]

theorem copiedOffsets_succ : copiedOffsets type (count + 1) =
    copiedOffsets type count ++ type.pointerOffsets.map (count * type.wordCount + ·) := by
  unfold copiedOffsets
  rw [List.range_succ, List.flatMap_append, List.flatMap_singleton]

theorem copiedOffsets_inside (member : offset ∈ copiedOffsets type count) :
    offset < count * type.wordCount := by
  induction count with
  | zero => cases member
  | succ count ih =>
      rw [copiedOffsets_succ] at member
      rw [Nat.succ_mul]
      rcases List.mem_append.mp member with earlier | last
      · exact Nat.lt_add_right _ (ih earlier)
      · obtain ⟨inner, isInner, rfl⟩ := List.mem_map.mp last
        exact Nat.add_lt_add_left (TypeDescriptor.pointerOffsets_inside isInner) _

theorem copiedOffsets_nodup : (copiedOffsets type count).Nodup := by
  induction count with
  | zero => exact List.nodup_nil
  | succ count ih =>
      rw [copiedOffsets_succ]
      apply ih.append
      · exact TypeDescriptor.pointerOffsets_nodup.map (add_right_injective _)
      · intro offset earlier last
        have inside := copiedOffsets_inside earlier
        obtain ⟨inner, _, rfl⟩ := List.mem_map.mp last
        omega

theorem mem_copiedOffsets {i inner : ℕ} (isElement : i < count)
    (isInner : inner ∈ type.pointerOffsets) :
    i * type.wordCount + inner ∈ copiedOffsets type count := by
  apply List.mem_flatMap.mpr
  exact ⟨i, List.mem_range.mpr isElement, List.mem_map.mpr ⟨inner, isInner, rfl⟩⟩

theorem copySteps_succ : copySteps type source (count + 1) = copySteps type source count ++
    [.access source] ++
      (type.pointerOffsets.map (count * type.wordCount + ·)).map .increment ++
      (type.pointerOffsets.map (count * type.wordCount + ·)).map .decrement := by
  unfold copySteps
  rw [List.range_succ, List.flatMap_append, List.flatMap_singleton]
  simp only [List.append_assoc, List.cons_append, List.nil_append]

theorem copySteps_incremented :
    (copySteps type source count).filterMap CountStep.incremented =
      copiedOffsets type count := by
  induction count with
  | zero => rfl
  | succ count ih =>
      rw [copySteps_succ, copiedOffsets_succ]
      have noAccess : [CountStep.access source].filterMap CountStep.incremented = [] := rfl
      simp only [List.filterMap_append, ih, incremented_increments, incremented_decrements,
        noAccess, List.append_nil]

theorem copySteps_released :
    (copySteps type source count).filterMap CountStep.released = copiedOffsets type count := by
  induction count with
  | zero => rfl
  | succ count ih =>
      rw [copySteps_succ, copiedOffsets_succ]
      have noAccess : [CountStep.access source].filterMap CountStep.released = [] := rfl
      simp only [List.filterMap_append, ih, released_increments, released_decrements,
        noAccess, List.append_nil]

end Offsets

section Loop

variable {state : MemoryState} {type : TypeDescriptor} {dest src : Region} {source base : ℕ}

theorem incRefCountInMemory_shift : state.incRefCountInMemory type (src.shift base) =
    countPass dest src state ((type.pointerOffsets.map (base + ·)).map .increment) := by
  unfold MemoryState.incRefCountInMemory countPass
  rw [List.foldl_map, List.foldl_map]
  simp only [shift_shift]
  split_ifs with empty
  · rw [TypeDescriptor.pointerOffsets_empty empty]
    rfl
  · rfl

theorem decRefCountInMemory_shift : state.decRefCountInMemory type (dest.shift base) =
    countPass dest src state ((type.pointerOffsets.map (base + ·)).map .decrement) := by
  unfold MemoryState.decRefCountInMemory countPass
  rw [List.foldl_map, List.foldl_map]
  simp only [shift_shift]
  split_ifs with empty
  · rw [TypeDescriptor.pointerOffsets_empty empty]
    rfl
  · rfl

theorem copyElement_eq (i : ℕ) : copyElement type source dest src state i =
    countPass dest src state ([.access source] ++
      (type.pointerOffsets.map (i * type.wordCount + ·)).map .increment ++
      (type.pointerOffsets.map (i * type.wordCount + ·)).map .decrement) := by
  unfold copyElement
  rw [countPass_append, countPass_append, ← incRefCountInMemory_shift,
    ← decRefCountInMemory_shift]
  rfl

theorem foldl_copyElement (count : ℕ) :
    (List.range count).foldl (copyElement type source dest src) state =
      countPass dest src state (copySteps type source count) := by
  induction count with
  | zero => rfl
  | succ count ih =>
      rw [List.range_succ, List.foldl_append, ih, copySteps_succ, List.append_assoc,
        List.append_assoc, countPass_append, ← List.append_assoc, ← copyElement_eq]
      rfl

/-- Without pointers the loop would only access the source. -/
theorem countPass_copySteps_empty (empty : type.pointerOffsets = [])
    (live : (state.heap.cells source).isSome = true) (count : ℕ) :
    countPass dest src state (copySteps type source count) = state := by
  induction count with
  | zero => rfl
  | succ count ih =>
      rw [copySteps_succ, empty, List.append_assoc, List.append_assoc, countPass_append, ih]
      exact touch_of_isSome live

end Loop

section Permitted

variable {state : MemoryState} {type : TypeDescriptor} {dest src : Region} {source : ℕ}

/-- What the elements that are still to be copied refer to is there in each turn, and the
source and its memory are there in the end. -/
theorem copySteps_permitted_iff (type : TypeDescriptor) (dest : Region) (exact : Exact state)
    (lives : state.Lives dest.owner)
    (sourceLives : state.Lives src.owner) (sourceLive : (state.heap.cells source).isSome = true)
    (count : ℕ) :
    (PassPermitted dest src state (copySteps type source count) ∧
        KeptAfter dest src state (copySteps type source count) source ∧
        OwnerKept dest src state (copySteps type source count) src.owner) ↔
      (∀ i < count, ∀ offset ∈ type.pointerOffsets.map (i * type.wordCount + ·), ∀ pointer,
          state.pointerAt (src.shift offset) = some pointer →
            KeptAfter dest src state (copySteps type source i) pointer) ∧
        KeptAfter dest src state (copySteps type source count) source ∧
        OwnerKept dest src state (copySteps type source count) src.owner ∧
        OwnerKept dest src state (copySteps type source count) dest.owner := by
  induction count with
  | zero =>
      have noSteps : copySteps type source 0 = [] := rfl
      rw [noSteps]
      constructor
      · intro _
        exact ⟨fun i below => absurd below (Nat.not_lt_zero i), keptAfter_start exact sourceLive,
          ownerKept_start exact sourceLives, ownerKept_start exact lives⟩
      · intro _
        exact ⟨passPermitted_nil, keptAfter_start exact sourceLive,
          ownerKept_start exact sourceLives⟩
  | succ count ih =>
      rw [copySteps_succ, passPermitted_decrements exact lives]
      constructor
      · rintro ⟨⟨added, destKept⟩, sourceKept, ownerKept⟩
        obtain ⟨accessed, ownerBefore, pointersKept⟩ := passPermitted_increments.mp
          ⟨added, ownerKept.imp fun id => KeptAfter.before_decrements⟩
        obtain ⟨earlier, sourceBefore⟩ := passPermitted_concat.mp accessed
        simp only [keptAfter_access] at pointersKept
        obtain ⟨elements, -⟩ := ih.mp ⟨earlier, sourceBefore,
          ownerBefore.imp fun id => keptAfter_access.mp⟩
        refine ⟨fun i below => ?_, sourceKept, ownerKept, destKept⟩
        rcases Nat.lt_succ_iff_lt_or_eq.mp below with isEarlier | rfl
        · exact elements i isEarlier
        · exact pointersKept
      · rintro ⟨elements, sourceKept, ownerKept, destKept⟩
        have pointersKept : ∀ offset ∈ type.pointerOffsets.map (count * type.wordCount + ·),
            ∀ pointer, state.pointerAt (src.shift offset) = some pointer →
              KeptAfter dest src state (copySteps type source count ++ [.access source])
                pointer :=
          fun offset member pointer found =>
            keptAfter_access.mpr
              (elements count (Nat.lt_succ_self count) offset member pointer found)
        -- What is left after this turn was there before it.
        have before : ∀ id, KeptAfter dest src state (copySteps type source count ++
            [.access source] ++
            (type.pointerOffsets.map (count * type.wordCount + ·)).map .increment ++
            (type.pointerOffsets.map (count * type.wordCount + ·)).map .decrement) id →
              KeptAfter dest src state (copySteps type source count) id :=
          fun id keeps => keptAfter_access.mp
            ((keptAfter_increments pointersKept).mp keeps.before_decrements)
        obtain ⟨earlier, sourceBefore, ownerBefore⟩ := ih.mpr
          ⟨fun i below => elements i (Nat.lt_succ_of_lt below), before source sourceKept,
            ownerKept.imp before, destKept.imp before⟩
        have accessed := passPermitted_concat.mpr ⟨earlier, (show StepPermitted dest src state
          (copySteps type source count) (.access source) from sourceBefore)⟩
        have added := passPermitted_increments.mpr ⟨accessed,
          ownerBefore.imp fun id => keptAfter_access.mpr, pointersKept⟩
        exact ⟨⟨added.1, destKept⟩, sourceKept, ownerKept⟩

end Permitted

section InMemory

variable {state : MemoryState} {array : VmArray} {id : ℕ}

theorem element_zero : array.element 0 = array.arr := by
  unfold VmArray.element Region.shift
  rw [Nat.zero_mul, Nat.add_zero]

theorem Elements.operand (elements : Elements state array) {i : ℕ} (isElement : i < array.count) :
    Operand array.elementType state (array.element i) where
  lives := elements.lives
  inside := by
    have inside := elements.inside
    have bound := Nat.mul_le_mul_right array.elementType.wordCount isElement
    rw [Nat.succ_mul] at bound
    unfold VmArray.element Region.shift
    dsimp only
    omega
  fits := elements.fits i isElement

/-- Pointers in consecutive elements are at the offsets of the loop. -/
theorem Elements.pointer_mem (elements : Elements state array) (first : ℕ) {count offset : ℕ}
    (within : first + count ≤ array.count) (inside : offset < count * array.elementType.wordCount)
    (isPointer : state.pointerAt ((array.element first).shift offset) ≠ none) :
    offset ∈ copiedOffsets array.elementType count := by
  have positive : 0 < array.elementType.wordCount := by
    by_contra isZero
    rw [Nat.eq_zero_of_not_pos isZero, Nat.mul_zero] at inside
    cases inside
  have isElement : offset / array.elementType.wordCount < count :=
    Nat.div_lt_of_lt_mul (by rwa [Nat.mul_comm])
  have split := Nat.div_add_mod' offset array.elementType.wordCount
  have isRegion : (array.element first).shift offset =
      (array.element (first + offset / array.elementType.wordCount)).shift
        (offset % array.elementType.wordCount) := by
    unfold VmArray.element
    rw [shift_shift, shift_shift, Nat.add_mul, Nat.add_assoc, split]
  rw [isRegion] at isPointer
  have isInner := (elements.operand (Nat.lt_of_lt_of_le
    (Nat.add_lt_add_left isElement first) within)).fits.pointer_mem
      (Nat.mod_lt _ positive) isPointer
  rw [← split]
  exact mem_copiedOffsets isElement isInner

theorem array_isSome (isArray : state.array id = some array) :
    (state.heap.cells id).isSome = true := by
  unfold MemoryState.array at isArray
  cases found : state.heap.cells id with
  | none =>
      rw [found] at isArray
      cases isArray
  | some alloc => rfl

/-- The memory of an array is its own, or that of an array that it refers to. -/
theorem array_owner (isArray : state.array id = some array) :
    array.arr.owner = .object id ∨ ∃ original alloc, array.arr.owner = .object original ∧
      state.heap.cells id = some alloc ∧ original ∈ alloc.kind.references := by
  unfold MemoryState.array at isArray
  cases found : state.heap.cells id with
  | none =>
      rw [found] at isArray
      cases isArray
  | some alloc =>
      rw [found, Option.map_some] at isArray
      cases isKind : alloc.kind with
      | record =>
          rw [isKind] at isArray
          cases isArray
      | list elementType tail =>
          rw [isKind] at isArray
          cases isArray
      | moduleRef mpBase =>
          rw [isKind] at isArray
          cases isArray
      | array elementType length original =>
          rw [isKind] at isArray
          rcases original with - | ⟨original, start⟩
          · obtain rfl := Option.some.inj isArray
            exact Or.inl rfl
          · obtain rfl := Option.some.inj isArray
            refine Or.inr ⟨original, alloc, rfl, rfl, ?_⟩
            rw [isKind]
            exact List.mem_singleton_self original

/-- An array that is kept keeps its memory. -/
theorem ownerKept_of_array {dest src : Region} {steps : List CountStep}
    (isArray : state.array id = some array) (keeps : KeptAfter dest src state steps id) :
    OwnerKept dest src state steps array.arr.owner := by
  rcases array_owner isArray with isOwn | ⟨original, alloc, isOwner, found, refers⟩
  · rw [isOwn]
    exact keeps
  · rw [isOwner]
    unfold OwnerKept
    unfold KeptAfter cleared at keeps ⊢
    cases changed : dest.owner with
    | frame =>
        rw [changed] at keeps
        exact keeps.refers found (List.mem_append_right _ refers)
    | object other =>
        rw [changed] at keeps
        by_cases same : id = other
        · subst same
          exact keeps.refers (Heap.modify_self found _) (List.mem_append_right _ refers)
        · exact keeps.refers ((Heap.modify_other same _).trans found)
            (List.mem_append_right _ refers)

end InMemory

section Copy

variable {state : MemoryState} {this source : ℕ} {destArray srcArray : VmArray}
  {beginIndex : BitVec 32}

/-- The admissible copies: the source fits between the index and the end. -/
structure Admissible (state : MemoryState) (this source : ℕ) (destArray srcArray : VmArray)
    (beginIndex : BitVec 32) : Prop where
  isDest : state.array this = some destArray
  isSource : state.array source = some srcArray
  destElements : Elements state destArray
  sourceElements : Elements state srcArray
  types : srcArray.elementType = destArray.elementType
  low : 0 ≤ beginIndex.toInt
  high : beginIndex.toInt + srcArray.length.toInt ≤ destArray.length.toInt

namespace Admissible

variable (admissible : Admissible state this source destArray srcArray beginIndex)

include admissible

theorem within : beginIndex.toInt.toNat + srcArray.count ≤ destArray.count := by
  have low := admissible.low
  have high := admissible.high
  have length := admissible.sourceElements.length
  unfold VmArray.count
  omega

theorem copyFrom_eq : copyFrom state this source beginIndex = some
    ((countPass (destArray.element beginIndex.toInt.toNat) srcArray.arr state
      (copyFromSteps srcArray.elementType this source srcArray.count)).memmove
        (destArray.element beginIndex.toInt.toNat) srcArray.arr
        (srcArray.count * srcArray.elementType.wordCount)) := by
  have low := admissible.low
  have high := admissible.high
  have length := admissible.sourceElements.length
  have notWrapped : (beginIndex + srcArray.length).toInt =
      beginIndex.toInt + srcArray.length.toInt := by
    rw [BitVec.toInt_add]
    have bound := BitVec.toInt_lt (x := destArray.length)
    apply Int.bmod_eq_of_le <;> omega
  have inRange : ¬ (beginIndex.toInt < 0 ∨
      destArray.length.toInt < (beginIndex + srcArray.length).toInt) := by
    rw [notWrapped]
    omega
  unfold copyFrom
  simp only [admissible.isDest, admissible.isSource]
  rw [if_neg inRange, if_neg (not_not_intro admissible.types), ← admissible.types,
    copyFromSteps, countPass_append, countPass_append]
  have isPass : (if srcArray.elementType.mapInBytes = 0 then state
      else (List.range srcArray.count).foldl (copyElement srcArray.elementType source
        (destArray.element beginIndex.toInt.toNat) srcArray.arr) state) =
      countPass (destArray.element beginIndex.toInt.toNat) srcArray.arr state
        (copySteps srcArray.elementType source srcArray.count) := by
    split_ifs with empty
    · have noPointers : srcArray.elementType.pointerOffsets = [] := by
        unfold TypeDescriptor.pointerOffsets
        rw [empty]
        rfl
      rw [countPass_copySteps_empty noPointers (array_isSome admissible.isSource)]
    · exact foldl_copyElement _
  rw [isPass]
  rfl

theorem gained_eq {count : ℕ} (below : count ≤ srcArray.count) (id : ℕ) :
    gained srcArray.arr state (copySteps srcArray.elementType source count) id =
      (targets (state.read srcArray.arr (count * srcArray.elementType.wordCount))).count id := by
  unfold gained MemoryState.read
  rw [targets_read, copySteps_incremented]
  refine count_filterMap_offsets copiedOffsets_nodup (fun _ => copiedOffsets_inside)
    (fun offset inside isPointer => ?_) id
  apply admissible.sourceElements.pointer_mem 0 (by omega) inside
  rw [element_zero]
  exact isPointer

theorem keptAfter_iff {count : ℕ} (below : count ≤ srcArray.count) (id : ℕ) :
    KeptAfter (destArray.element beginIndex.toInt.toNat) srcArray.arr state
        (copySteps srcArray.elementType source count) id ↔
      CopyKeeps srcArray.elementType (destArray.element beginIndex.toInt.toNat) srcArray.arr
        state count id := by
  unfold KeptAfter CopyKeeps
  rw [copySteps_released]
  simp only [admissible.gained_eq below]

theorem covers : Covers (destArray.element beginIndex.toInt.toNat) srcArray.arr state
    (srcArray.count * srcArray.elementType.wordCount)
    (copyFromSteps srcArray.elementType this source srcArray.count) := by
  have incremented : (copyFromSteps srcArray.elementType this source
      srcArray.count).filterMap CountStep.incremented =
        copiedOffsets srcArray.elementType srcArray.count := by
    rw [copyFromSteps, List.filterMap_append, List.filterMap_append, copySteps_incremented]
    exact (List.append_nil _).trans (List.append_nil _)
  have released : (copyFromSteps srcArray.elementType this source
      srcArray.count).filterMap CountStep.released =
        copiedOffsets srcArray.elementType srcArray.count := by
    rw [copyFromSteps, List.filterMap_append, List.filterMap_append, copySteps_released]
    exact (List.append_nil _).trans (List.append_nil _)
  constructor
  · exact admissible.sourceElements.lives
  · exact admissible.destElements.lives
  · exact admissible.sourceElements.inside
  · have inside := admissible.destElements.inside
    have bound := Nat.mul_le_mul_right destArray.elementType.wordCount admissible.within
    rw [Nat.add_mul] at bound
    rw [admissible.types]
    unfold VmArray.element Region.shift
    dsimp only
    omega
  · rw [incremented]
    exact copiedOffsets_nodup
  · rw [released]
    exact copiedOffsets_nodup
  · rw [incremented]
    exact fun _ => copiedOffsets_inside
  · rw [released]
    exact fun _ => copiedOffsets_inside
  · intro offset inside isPointer
    rw [incremented]
    apply admissible.sourceElements.pointer_mem 0 (by omega) inside
    rw [element_zero]
    exact isPointer
  · intro offset inside isPointer
    rw [released, admissible.types]
    rw [admissible.types] at inside
    exact admissible.destElements.pointer_mem _ admissible.within inside isPointer

theorem permitted_iff (exact : Exact state) :
    (PassPermitted (destArray.element beginIndex.toInt.toNat) srcArray.arr state
        (copyFromSteps srcArray.elementType this source srcArray.count) ∧
      OwnerKept (destArray.element beginIndex.toInt.toNat) srcArray.arr state
        (copyFromSteps srcArray.elementType this source srcArray.count) srcArray.arr.owner) ↔
      CopyPermitted srcArray.elementType (destArray.element beginIndex.toInt.toNat) srcArray.arr
        state this source srcArray.count := by
  have kept := fun id => admissible.keptAfter_iff (Nat.le_refl srcArray.count) id
  have loop := copySteps_permitted_iff srcArray.elementType
    (destArray.element beginIndex.toInt.toNat) exact admissible.destElements.lives
    admissible.sourceElements.lives (array_isSome admissible.isSource) srcArray.count
  have elements : (∀ i < srcArray.count, ∀ offset ∈ srcArray.elementType.pointerOffsets.map
        (i * srcArray.elementType.wordCount + ·), ∀ pointer,
          state.pointerAt (srcArray.arr.shift offset) = some pointer →
            KeptAfter (destArray.element beginIndex.toInt.toNat) srcArray.arr state
              (copySteps srcArray.elementType source i) pointer) ↔
      ∀ i < srcArray.count, ∀ id ∈ targets (state.read (srcArray.arr.shift
        (i * srcArray.elementType.wordCount)) srcArray.elementType.wordCount),
          CopyKeeps srcArray.elementType (destArray.element beginIndex.toInt.toNat) srcArray.arr
            state i id := by
    refine forall₂_congr fun i below => ?_
    rw [List.forall_mem_map]
    have pointers := (admissible.sourceElements.operand below).pointers_iff
      (CopyKeeps srcArray.elementType (destArray.element beginIndex.toInt.toNat)
        srcArray.arr state i)
    have isElement : srcArray.element i =
        srcArray.arr.shift (i * srcArray.elementType.wordCount) := rfl
    rw [isElement] at pointers
    simp only [shift_shift] at pointers
    rw [← pointers]
    simp only [admissible.keptAfter_iff (Nat.le_of_lt below)]
  unfold CopyPermitted copyFromSteps
  rw [← elements, ← kept, ← kept]
  constructor
  · rintro ⟨permitted, ownerKept⟩
    obtain ⟨accessed, sourceKept⟩ := passPermitted_concat.mp permitted
    obtain ⟨steps, thisKept⟩ := passPermitted_concat.mp accessed
    have isSourceKept := keptAfter_access.mp sourceKept
    obtain ⟨isElements, -⟩ := loop.mp ⟨steps, isSourceKept,
      ownerKept.imp fun id keeps => keptAfter_access.mp (keptAfter_access.mp keeps)⟩
    exact ⟨isElements, thisKept, isSourceKept⟩
  · rintro ⟨isElements, thisKept, sourceKept⟩
    obtain ⟨steps, -, ownerKept⟩ := loop.mpr ⟨isElements, sourceKept,
      ownerKept_of_array admissible.isSource sourceKept,
      ownerKept_of_array admissible.isDest thisKept⟩
    refine ⟨passPermitted_concat.mpr ⟨passPermitted_concat.mpr ⟨steps, thisKept⟩, ?_⟩, ?_⟩
    · exact keptAfter_access.mpr sourceKept
    · exact ownerKept.imp fun id keeps => keptAfter_access.mpr (keptAfter_access.mpr keeps)

end Admissible

/-- The copy leaves exact counts and the elements of the source at the destination if and only
if it does not release what it still needs. -/
theorem slicela_exact_iff {src dest : Region} (exact : Exact state)
    (isSource : state.pointerAt src = some source) (isDest : state.pointerAt dest = some this)
    (admissible : Admissible state this source destArray srcArray beginIndex) :
    ∃ after, slicela state src dest beginIndex = some after ∧
      ((Exact after ∧ after.read (destArray.element beginIndex.toInt.toNat)
            (srcArray.count * srcArray.elementType.wordCount) =
          state.read srcArray.arr (srcArray.count * srcArray.elementType.wordCount)) ↔
        CopyPermitted srcArray.elementType (destArray.element beginIndex.toInt.toNat)
          srcArray.arr state this source srcArray.count) := by
  have run : slicela state src dest beginIndex = copyFrom state this source beginIndex := by
    unfold slicela
    simp only [isSource, isDest, touchOwner_of_lives (lives_of_pointerAt isSource),
      touch_of_isSome (array_isSome admissible.isSource),
      touchOwner_of_lives (lives_of_pointerAt isDest),
      touch_of_isSome (array_isSome admissible.isDest)]
  refine ⟨_, run.trans admissible.copyFrom_eq, ?_⟩
  rw [move_exact_iff exact admissible.covers]
  exact admissible.permitted_iff exact

end Copy

section Sliced

def object : VmAlloc :=
  ⟨1, [], .record⟩

def threeObjects : Heap VmAlloc :=
  ((Heap.empty.allocate object).allocate object).allocate object

def threePointers : VmAlloc :=
  ⟨1, [.pointer (some 0), .pointer (some 1), .pointer (some 2)], .array pointerType 3 none⟩

/-- An array of three objects, and a slice of two of them. -/
def sliced (start : ℕ) : MemoryState where
  heap := (RefCounting.addRef counted (threeObjects.allocate threePointers) 3).allocate
    ⟨1, [], .array pointerType 2 (some (3, start))⟩
  frames := [.pointer (some 3), .pointer (some 4)]
  tracked := []
  touchedFreed := []

theorem threePointers_sound :
    Sound counted.toLayout (threeObjects.allocate threePointers) (single 3) := by
  have three : Sound counted.toLayout threeObjects fun target => [2, 1, 0].count target :=
    ((Sound.allocateFirst rfl rfl).allocateNext rfl rfl).allocateNext rfl rfl
  refine three.allocateWith rfl fun target => ?_
  have isRefs : counted.refs threePointers = [0, 1, 2] := rfl
  have isLimit : threeObjects.limit = 3 := rfl
  rw [isRefs, isLimit]
  simp only [count_cons_single, List.count_nil]
  omega

theorem sliced_exact (start : ℕ) : Exact (sliced start) := by
  have isArray : (threeObjects.allocate threePointers).cells 3 = some threePointers := rfl
  have shared : Sound counted.toLayout
      (RefCounting.addRef counted (threeObjects.allocate threePointers) 3)
      fun target => single 3 target + single 3 target :=
    addRef_sound threePointers_sound isArray fun target => rfl
  refine ⟨⟨?_, ?_⟩, rfl⟩
  · refine shared.allocateWith rfl fun target => ?_
    have isOutside : (sliced start).outside target = [3, 4].count target + 0 := rfl
    have isRefs : counted.refs ⟨1, [], .array pointerType 2 (some (3, start))⟩ = [3] := rfl
    have isLimit : (RefCounting.addRef counted
      (threeObjects.allocate threePointers) 3).limit = 4 := rfl
    rw [isOutside, isRefs, isLimit]
    simp only [count_cons_single, List.count_nil]
    omega
  · apply Positive.allocate _ Nat.one_pos
    apply Positive.addRef
    apply Positive.allocate _ Nat.one_pos
    exact ((positive_empty.allocate Nat.one_pos).allocate Nat.one_pos).allocate Nat.one_pos

/-- The slice of the last two is moved down. -/
theorem movedDown_permitted :
    CopyPermitted pointerType ⟨.object 3, 0⟩ ⟨.object 3, 1⟩ (sliced 1) 3 4 2 := by
  have arrayKept : ∀ count ≤ 2,
      CopyKeeps pointerType ⟨.object 3, 0⟩ ⟨.object 3, 1⟩ (sliced 1) count 3 := by
    intro count most
    apply kept_of_outside
    have isCount : count = 0 ∨ count = 1 ∨ count = 2 := by omega
    rcases isCount with rfl | rfl | rfl <;> decide
  refine ⟨fun i inside id member => ?_, arrayKept 2 le_rfl, kept_of_outside (by decide)⟩
  -- The array holds the object until it is replaced itself.
  have isTurn : i = 0 ∨ i = 1 := by omega
  rcases isTurn with rfl | rfl
  · obtain rfl := List.mem_singleton.mp member
    exact (arrayKept 0 (by omega)).refers rfl (by decide)
  · obtain rfl := List.mem_singleton.mp member
    exact (arrayKept 1 (by omega)).refers rfl (by decide)

theorem movedDown_slicela : ∃ after,
    slicela (sliced 1) ⟨.frame, 1⟩ ⟨.frame, 0⟩ 0 = some after ∧ Exact after ∧
      after.read ⟨.object 3, 0⟩ 2 = (sliced 1).read ⟨.object 3, 1⟩ 2 := by
  have admissible : Admissible (sliced 1) 3 4 ⟨pointerType, 3, ⟨.object 3, 0⟩⟩
      ⟨pointerType, 2, ⟨.object 3, 1⟩⟩ 0 :=
    { isDest := rfl
      isSource := rfl
      destElements := ⟨rfl, by decide, by decide, by decide⟩
      sourceElements := ⟨rfl, by decide, by decide, by decide⟩
      types := rfl
      low := by decide
      high := by decide }
  have isSource : (sliced 1).pointerAt ⟨.frame, 1⟩ = some 4 := rfl
  have isDest : (sliced 1).pointerAt ⟨.frame, 0⟩ = some 3 := rfl
  obtain ⟨after, ran, exactly⟩ :=
    slicela_exact_iff (sliced_exact 1) isSource isDest admissible
  exact ⟨after, ran, exactly.mpr movedDown_permitted⟩

/-- The slice of the first two is moved up. -/
theorem movedUp_admissible : Admissible (sliced 0) 3 4 ⟨pointerType, 3, ⟨.object 3, 0⟩⟩
    ⟨pointerType, 2, ⟨.object 3, 0⟩⟩ 1 where
  isDest := rfl
  isSource := rfl
  destElements := ⟨rfl, by decide, by decide, by decide⟩
  sourceElements := ⟨rfl, by decide, by decide, by decide⟩
  types := rfl
  low := by decide
  high := by decide

/-- The second object is freed when the first is copied, and then copied. -/
theorem movedUp_freed : Exact (sliced 0) ∧
    Admissible (sliced 0) 3 4 ⟨pointerType, 3, ⟨.object 3, 0⟩⟩ ⟨pointerType, 2, ⟨.object 3, 0⟩⟩ 1 ∧
    ∃ after, slicela (sliced 0) ⟨.frame, 1⟩ ⟨.frame, 0⟩ 1 = some after ∧ ¬ Exact after := by
  refine ⟨sliced_exact 0, movedUp_admissible, _, rfl, fun exact => ?_⟩
  have touched := exact.untouched
  revert touched
  decide

end Sliced

end Disvm.ObjectMemory
