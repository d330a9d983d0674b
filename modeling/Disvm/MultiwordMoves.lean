import Disvm.CountedMoves

/-!
# Moves of several words

`movmp` and `headmp` add references for the source, release the destination and then move
the words; the transfer of a channel releases the destination first.  The source is read
after the release, so what it is in has to be kept by other references than those of the
destination, and for a channel so have the objects that it refers to.
-/

namespace Disvm.ObjectMemory

open RefCounting

variable (type : TypeDescriptor) (state : MemoryState) (dest : Region)

/-- `destroy_memory`, which fills the memory in debug builds only. -/
def destroyMemory (data : Region) : MemoryState :=
  state.decRefCountInMemory type data

def movmp (src : Region) : MemoryState :=
  (destroyMemory type (state.incRefCountInMemory type src) dest).memmove dest src type.wordCount

/-- The element is the memory of the list. -/
def headmp (src : Region) : Option MemoryState :=
  match state.pointerAt src with
  | none => none
  | some list => some (movmp type ((state.touchOwner src.owner).touch list) dest ⟨.object list, 0⟩)

/-- `_channel_movmp`. -/
def channelMovmp (src : Region) : MemoryState :=
  ((destroyMemory type state dest).incRefCountInMemory type src).memmove dest src type.wordCount

inductive Transfer where
  | movmp (src : Region)
  | headmp (src : Region)
  | channelMovmp (src : Region)
  deriving DecidableEq, Repr

/-- Nothing if the transfer throws. -/
def Transfer.run : Transfer → Option MemoryState
  | .movmp src => some (ObjectMemory.movmp type state dest src)
  | .headmp src => ObjectMemory.headmp type state dest src
  | .channelMovmp src => some (ObjectMemory.channelMovmp type state dest src)

/-- Where the words are that are moved. -/
def Transfer.source : Transfer → Option Region
  | .movmp src => some src
  | .headmp src => (state.pointerAt src).map fun list => ⟨.object list, 0⟩
  | .channelMovmp src => some src

/-- The word that `headmp` takes the list from. -/
def Transfer.ListLives : Transfer → Prop
  | .movmp _ => True
  | .headmp src => state.Lives src.owner
  | .channelMovmp _ => True

/-- Counts are exact, no freed object has been accessed, the words have been moved and the
objects that they refer to are there. -/
structure KeepsSource (src : Region) (after : MemoryState) : Prop where
  exact : Exact after
  moved : after.read dest type.wordCount = state.read src type.wordCount
  alive : ∀ id ∈ targets (state.read src type.wordCount), (after.heap.cells id).isSome = true

/-- There are references that keep the object besides those of the destination. -/
def Remains (extra : List ℕ) (id : ℕ) : Prop :=
  Kept counted (cleared dest state type.pointerOffsets).heap
    (fun target => (cleared dest state type.pointerOffsets).outside target +
      extra.count target) id

def OwnerRemains (extra : List ℕ) : Owner → Prop
  | .frame => True
  | .object id => Remains type state dest extra id

/-- What `movmp` and `headmp` need. -/
def MovePermitted (src : Region) : Prop :=
  OwnerRemains type state dest (targets (state.read src type.wordCount)) src.owner ∧
    OwnerRemains type state dest (targets (state.read src type.wordCount)) dest.owner

/-- What the transfer of a channel needs. -/
def ChannelPermitted (src : Region) : Prop :=
  OwnerRemains type state dest [] src.owner ∧ OwnerRemains type state dest [] dest.owner ∧
    ∀ id ∈ targets (state.read src type.wordCount), Remains type state dest [] id

def Transfer.Permitted (src : Region) : Transfer → Prop
  | .movmp _ => MovePermitted type state dest src
  | .headmp _ => MovePermitted type state dest src
  | .channelMovmp _ => ChannelPermitted type state dest src

section Passes

variable {type state dest} {src : Region} {after : MemoryState}

theorem incRefCountInMemory_eq (dest : Region) : state.incRefCountInMemory type src =
    countPass dest src state (type.pointerOffsets.map .increment) := by
  unfold MemoryState.incRefCountInMemory countPass
  rw [List.foldl_map]
  split_ifs with empty
  · rw [TypeDescriptor.pointerOffsets_empty empty]
    rfl
  · rfl

theorem decRefCountInMemory_eq (src : Region) : state.decRefCountInMemory type dest =
    countPass dest src state (type.pointerOffsets.map .decrement) := by
  unfold MemoryState.decRefCountInMemory countPass
  rw [List.foldl_map]
  split_ifs with empty
  · rw [TypeDescriptor.pointerOffsets_empty empty]
    rfl
  · rfl

theorem countPass_append (first second : List CountStep) :
    countPass dest src state (first ++ second) =
      countPass dest src (countPass dest src state first) second :=
  List.foldl_append

theorem movmp_eq : movmp type state dest src =
    (countPass dest src state (type.pointerOffsets.map .increment ++
      type.pointerOffsets.map .decrement)).memmove dest src type.wordCount := by
  unfold movmp destroyMemory
  rw [countPass_append, ← incRefCountInMemory_eq dest, ← decRefCountInMemory_eq src]

theorem channelMovmp_eq : channelMovmp type state dest src =
    (countPass dest src state (type.pointerOffsets.map .decrement ++
      type.pointerOffsets.map .increment)).memmove dest src type.wordCount := by
  unfold channelMovmp destroyMemory
  rw [countPass_append, ← incRefCountInMemory_eq dest, ← decRefCountInMemory_eq src]

theorem TypeDescriptor.Fits.pointer_mem (fits : type.Fits (state.read src type.wordCount))
    {offset : ℕ} (inside : offset < type.wordCount)
    (isPointer : state.pointerAt (src.shift offset) ≠ none) :
    offset ∈ type.pointerOffsets := by
  obtain ⟨target, found⟩ := Option.ne_none_iff_exists'.mp isPointer
  obtain ⟨word, isWord, isTarget⟩ := Option.bind_eq_some_iff.mp found
  have isRead : (state.read src type.wordCount)[offset]? = some word := by
    unfold MemoryState.read
    rw [List.getElem?_take_of_lt inside, List.getElem?_drop]
    exact isWord
  apply (fits.isPointer_iff isRead).mp
  cases word with
  | data value => cases isTarget
  | pointer target => rfl

theorem TypeDescriptor.Fits.gained_eq (fits : type.Fits (state.read src type.wordCount))
    (id : ℕ) : gained src state (type.pointerOffsets.map .increment) id =
      (targets (state.read src type.wordCount)).count id := by
  unfold gained MemoryState.read
  rw [targets_read, incremented_increments]
  exact count_filterMap_offsets pointerOffsets_nodup (fun _ => pointerOffsets_inside)
    (fun _ inside isPointer => fits.pointer_mem inside isPointer) id

/-- Any order of the steps covers the words. -/
theorem covers_of_operands (steps : List CountStep) (destOperand : Operand type state dest)
    (srcOperand : Operand type state src)
    (incremented : steps.filterMap CountStep.incremented = type.pointerOffsets)
    (released : steps.filterMap CountStep.released = type.pointerOffsets) :
    Covers dest src state type.wordCount steps where
  sourceLives := srcOperand.lives
  destLives := destOperand.lives
  sourceInside := srcOperand.inside
  destInside := destOperand.inside
  incrementedOnce := incremented ▸ TypeDescriptor.pointerOffsets_nodup
  releasedOnce := released ▸ TypeDescriptor.pointerOffsets_nodup
  incrementedInside := fun _ member =>
    TypeDescriptor.pointerOffsets_inside (incremented ▸ member)
  releasedInside := fun _ member => TypeDescriptor.pointerOffsets_inside (released ▸ member)
  source := fun _ inside isPointer => incremented ▸ srcOperand.fits.pointer_mem inside isPointer
  dest := fun _ inside isPointer => released ▸ destOperand.fits.pointer_mem inside isPointer

theorem Operand.pointers_iff (operand : Operand type state src) (holds : ℕ → Prop) :
    (∀ offset ∈ type.pointerOffsets, ∀ pointer,
        state.pointerAt (src.shift offset) = some pointer → holds pointer) ↔
      ∀ id ∈ targets (state.read src type.wordCount), holds id := by
  constructor
  · intro pointers id member
    obtain ⟨offset, inside, isPointer⟩ := mem_targets_read.mp member
    have isFound : state.pointerAt (src.shift offset) ≠ none := by
      rw [isPointer]
      exact Option.some_ne_none id
    exact pointers offset (operand.fits.pointer_mem inside isFound) id isPointer
  · intro all offset member pointer isPointer
    exact all pointer (mem_targets_read.mpr
      ⟨offset, TypeDescriptor.pointerOffsets_inside member, isPointer⟩)

end Passes

section Permissions

variable {type state dest} {src : Region} {steps : List CountStep} {extra : List ℕ}

theorem keptAfter_iff_remains (dest src : Region)
    (released : steps.filterMap CountStep.released = type.pointerOffsets)
    (added : ∀ id, gained src state steps id = extra.count id) (id : ℕ) :
    KeptAfter dest src state steps id ↔ Remains type state dest extra id := by
  unfold KeptAfter Remains
  simp only [released, added]

theorem ownerKept_iff_remains (dest src : Region)
    (released : steps.filterMap CountStep.released = type.pointerOffsets)
    (added : ∀ id, gained src state steps id = extra.count id) (owner : Owner) :
    OwnerKept dest src state steps owner ↔ OwnerRemains type state dest extra owner := by
  cases owner with
  | frame => exact Iff.rfl
  | object id => exact keptAfter_iff_remains dest src released added id

variable (exact : Exact state) (destOperand : Operand type state dest)
  (srcOperand : Operand type state src)

include exact destOperand srcOperand

theorem movmp_permitted_iff :
    (PassPermitted dest src state (type.pointerOffsets.map .increment ++
          type.pointerOffsets.map .decrement) ∧
        OwnerKept dest src state (type.pointerOffsets.map .increment ++
          type.pointerOffsets.map .decrement) src.owner) ↔
      MovePermitted type state dest src := by
  have incremented : (type.pointerOffsets.map CountStep.increment ++
      type.pointerOffsets.map CountStep.decrement).filterMap CountStep.incremented =
        type.pointerOffsets := by
    rw [List.filterMap_append, incremented_increments, incremented_decrements, List.append_nil]
  have released : (type.pointerOffsets.map CountStep.increment ++
      type.pointerOffsets.map CountStep.decrement).filterMap CountStep.released =
        type.pointerOffsets := by
    rw [List.filterMap_append, released_increments, released_decrements, List.nil_append]
  have covers := covers_of_operands _ destOperand srcOperand incremented released
  have owners := ownerKept_iff_remains dest src released covers.gained_eq
  rw [passPermitted_decrements exact destOperand.lives, owners, owners]
  unfold MovePermitted
  constructor
  · rintro ⟨⟨_, destRemains⟩, sourceRemains⟩
    exact ⟨sourceRemains, destRemains⟩
  · rintro ⟨sourceRemains, destRemains⟩
    exact ⟨⟨increments_permitted exact srcOperand.lives, destRemains⟩, sourceRemains⟩

theorem channelMovmp_permitted_iff :
    (PassPermitted dest src state (type.pointerOffsets.map .decrement ++
          type.pointerOffsets.map .increment) ∧
        OwnerKept dest src state (type.pointerOffsets.map .decrement ++
          type.pointerOffsets.map .increment) src.owner) ↔
      ChannelPermitted type state dest src := by
  have noneGained : ∀ id, gained src state (type.pointerOffsets.map .decrement) id =
      ([] : List ℕ).count id := by
    intro id
    unfold gained
    rw [incremented_decrements]
    rfl
  have kept := keptAfter_iff_remains dest src released_decrements noneGained
  have owners := ownerKept_iff_remains dest src released_decrements noneGained
  have decremented : PassPermitted dest src state (type.pointerOffsets.map .decrement) ↔
      OwnerKept dest src state (type.pointerOffsets.map .decrement) dest.owner := by
    have permitted : PassPermitted dest src state
        ([] ++ type.pointerOffsets.map CountStep.decrement) ↔ _ :=
      passPermitted_decrements exact destOperand.lives
    rw [List.nil_append, and_iff_right passPermitted_nil] at permitted
    exact permitted
  have pointers := srcOperand.pointers_iff (KeptAfter dest src state
    (type.pointerOffsets.map .decrement))
  have kepts : (∀ id ∈ targets (state.read src type.wordCount),
      KeptAfter dest src state (type.pointerOffsets.map .decrement) id) ↔
        ∀ id ∈ targets (state.read src type.wordCount), Remains type state dest [] id :=
    forall₂_congr fun id _ => kept id
  unfold ChannelPermitted
  rw [passPermitted_increments, decremented, owners, owners, pointers, kepts]
  tauto

end Permissions

section Transfers

variable {type state dest} {src : Region} {after : MemoryState}

/-- With exact counts what has been moved is there. -/
theorem keepsSource_iff : KeepsSource type state dest src after ↔
    Exact after ∧ after.read dest type.wordCount = state.read src type.wordCount := by
  constructor
  · intro keeps
    exact ⟨keeps.exact, keeps.moved⟩
  · rintro ⟨exact, moved⟩
    refine ⟨exact, moved, fun id member => ?_⟩
    rw [← moved] at member
    obtain ⟨offset, _, isPointer⟩ := mem_targets_read.mp member
    exact exact.balanced.isSome_of_words dest.owner
      (mem_targets_of_pointerAt (dest.shift offset) isPointer)

theorem movmp_keepsSource_iff (exact : Exact state) (destOperand : Operand type state dest)
    (srcOperand : Operand type state src) :
    KeepsSource type state dest src (movmp type state dest src) ↔
      MovePermitted type state dest src := by
  have covers := covers_of_operands (type.pointerOffsets.map .increment ++
    type.pointerOffsets.map .decrement) destOperand srcOperand
    (by rw [List.filterMap_append, incremented_increments, incremented_decrements,
      List.append_nil])
    (by rw [List.filterMap_append, released_increments, released_decrements, List.nil_append])
  rw [keepsSource_iff, movmp_eq, move_exact_iff exact covers]
  exact movmp_permitted_iff exact destOperand srcOperand

theorem channelMovmp_keepsSource_iff (exact : Exact state)
    (destOperand : Operand type state dest) (srcOperand : Operand type state src) :
    KeepsSource type state dest src (channelMovmp type state dest src) ↔
      ChannelPermitted type state dest src := by
  have covers := covers_of_operands (type.pointerOffsets.map .decrement ++
    type.pointerOffsets.map .increment) destOperand srcOperand
    (by rw [List.filterMap_append, incremented_increments, incremented_decrements,
      List.nil_append])
    (by rw [List.filterMap_append, released_increments, released_decrements, List.append_nil])
  rw [keepsSource_iff, channelMovmp_eq, move_exact_iff exact covers]
  exact channelMovmp_permitted_iff exact destOperand srcOperand

/-- Transfers keep their source if and only if it does not depend on what they release. -/
theorem transfer_keepsSource_iff {transfer : Transfer} (exact : Exact state)
    (listLives : transfer.ListLives state) (isSource : transfer.source state = some src)
    (destOperand : Operand type state dest) (srcOperand : Operand type state src)
    (done : transfer.run type state dest = some after) :
    KeepsSource type state dest src after ↔ transfer.Permitted type state dest src := by
  cases transfer with
  | movmp _ =>
      obtain rfl := Option.some.inj isSource
      obtain rfl := Option.some.inj done
      exact movmp_keepsSource_iff exact destOperand srcOperand
  | headmp register =>
      obtain ⟨list, isList, rfl⟩ := Option.map_eq_some_iff.mp isSource
      have live := exact.balanced.isSome_of_words _ (mem_targets_of_pointerAt _ isList)
      have lives : state.Lives register.owner := listLives
      simp only [Transfer.run, headmp, isList, touchOwner_of_lives lives, touch_of_isSome live]
        at done
      obtain rfl := Option.some.inj done
      exact movmp_keepsSource_iff exact destOperand srcOperand
  | channelMovmp _ =>
      obtain rfl := Option.some.inj isSource
      obtain rfl := Option.some.inj done
      exact channelMovmp_keepsSource_iff exact destOperand srcOperand

end Transfers

section Replaced

/-- A tuple of a pointer and a word. -/
def pairType : TypeDescriptor where
  sizeInBytes := 8
  pointerMap := [0x80]
  finalizer := none
  fits := by decide

/-- Two tuples in a frame, of which each refers to an object that holds a tuple. -/
def paired : MemoryState where
  heap := (Heap.empty.allocate ⟨1, [.pointer none, .data 2], .record⟩).allocate
    ⟨1, [.pointer none, .data 4], .record⟩
  frames := [.pointer (some 0), .data 1, .pointer (some 1), .data 3]
  tracked := []
  touchedFreed := []

theorem paired_exact : Exact paired := by
  have sound : Sound counted.toLayout paired.heap fun target => [1, 0].count target :=
    (Sound.allocateFirst rfl rfl).allocateNext rfl rfl
  refine ⟨⟨?_, (positive_empty.allocate Nat.one_pos).allocate Nat.one_pos⟩, rfl⟩
  apply sound.congr
  intro target
  exact (List.Perm.swap 1 0 []).count_eq target

/-- The tuple of the second object replaces the first one of the frame. -/
theorem paired_transfer :
    KeepsSource pairType paired ⟨.frame, 0⟩ ⟨.object 1, 0⟩
      (movmp pairType paired ⟨.frame, 0⟩ ⟨.object 1, 0⟩) := by
  have permitted : MovePermitted pairType paired ⟨.frame, 0⟩ ⟨.object 1, 0⟩ :=
    ⟨kept_of_outside (by decide), trivial⟩
  have destOperand : Operand pairType paired ⟨.frame, 0⟩ := ⟨trivial, by decide, by decide⟩
  have srcOperand : Operand pairType paired ⟨.object 1, 0⟩ := ⟨rfl, by decide, by decide⟩
  exact (@transfer_keepsSource_iff _ _ _ _ _ (.movmp ⟨.object 1, 0⟩) paired_exact trivial rfl
    destOperand srcOperand rfl).mpr permitted

/-- A tuple in a frame, which alone refers to an object that holds a tuple. -/
def chained : MemoryState where
  heap := Heap.empty.allocate ⟨1, [.pointer none, .data 2], .record⟩
  frames := [.pointer (some 0), .data 1]
  tracked := []
  touchedFreed := []

theorem chained_exact : Exact chained := by
  refine ⟨⟨?_, ?_⟩, rfl⟩
  · apply Sound.congr (Sound.allocateFirst rfl rfl)
    exact fun target => rfl
  · exact positive_empty.allocate Nat.one_pos

theorem chained_dest : Operand pairType chained ⟨.frame, 0⟩ :=
  ⟨trivial, by decide, by decide⟩

theorem chained_source : Operand pairType chained ⟨.object 0, 0⟩ :=
  ⟨rfl, by decide, by decide⟩

/-- The object is freed before its tuple is moved. -/
theorem chained_freed : Exact chained ∧ Operand pairType chained ⟨.frame, 0⟩ ∧
    Operand pairType chained ⟨.object 0, 0⟩ ∧
    ¬ KeepsSource pairType chained ⟨.frame, 0⟩ ⟨.object 0, 0⟩
      (movmp pairType chained ⟨.frame, 0⟩ ⟨.object 0, 0⟩) := by
  refine ⟨chained_exact, chained_dest, chained_source, fun keeps => ?_⟩
  have touched : (movmp pairType chained ⟨.frame, 0⟩ ⟨.object 0, 0⟩).touchedFreed = [0] := by
    decide
  rw [keeps.exact.untouched] at touched
  cases touched

end Replaced

end Disvm.ObjectMemory
