import Disvm.RefCounting
import Disvm.TransitionRuns
import Mathlib.Data.List.ReduceOption

/-!
# The default garbage collector

VM threads take and drop counted references while `default_garbage_collector_t`
tracks allocations and, when every thread is at a safe point, marks and sweeps
them.  One step is one access to a reference count, a colour or a pointer, so
the release of an allocation and of everything that it frees in turn is spread
over many steps.  An access to an allocation that has been freed is recorded.
-/

namespace Disvm.GarbageCollector

open RefCounting

/-- `gc_colour_t`. -/
inductive GcColour where
  | white
  | grey
  | black
  deriving DecidableEq, Repr

def getCurrentColour (epoch : ℕ) : GcColour :=
  match epoch % 3 with
  | 0 => .white
  | 1 => .grey
  | _ => .black

def getSweeperColour (epoch : ℕ) : GcColour :=
  match epoch % 3 with
  | 0 => .grey
  | 1 => .black
  | _ => .white

/-- What an allocation is: an ADT whose pointers its pointer map designates, or
a container, whose type descriptor has an empty pointer map. -/
inductive AllocKind where
  | adt
  | array
  | slice
  | list
  | channel
  | moduleRef
  | string
  deriving DecidableEq, Repr

/-- `vm_alloc_t` with the counted pointers that its destructor releases, in
order: the mapped fields of an ADT, the elements of an array, the original of a
slice, the values and the tail of a list node, the values buffered in a channel,
the module data of a module reference. -/
structure VmAlloc where
  refCount : ℕ
  gcColour : GcColour
  kind : AllocKind
  slots : List (Option ℕ)
  deriving DecidableEq, Repr

namespace VmAlloc

def pointers (alloc : VmAlloc) : List ℕ :=
  alloc.slots.reduceOption

/-- The slots that the pointer map of the allocation's type designates. -/
def mappedFields (alloc : VmAlloc) : List (Option ℕ) :=
  match alloc.kind with
  | .adt => alloc.slots
  | _ => []

def addRef (alloc : VmAlloc) : VmAlloc :=
  { alloc with refCount := alloc.refCount + 1 }

def release (alloc : VmAlloc) : VmAlloc :=
  { alloc with refCount := alloc.refCount - 1 }

def setGcColour (colour : GcColour) (alloc : VmAlloc) : VmAlloc :=
  { alloc with gcColour := colour }

def setSlot (index : ℕ) (value : Option ℕ) (alloc : VmAlloc) : VmAlloc :=
  { alloc with slots := alloc.slots.set index value }

/-- A new allocation, with cleared memory. -/
def create (kind : AllocKind) (slotCount : ℕ) : VmAlloc where
  refCount := 1
  gcColour := .white
  kind := kind
  slots := List.replicate slotCount none

end VmAlloc

def layout : Layout VmAlloc where
  refCount := VmAlloc.refCount
  refs := VmAlloc.pointers

abbrev VmHeap := Heap VmAlloc

/-- `dec_ref_count_and_free` up to the references that the destructors release
next, put before the ones that were to be released already.  The allocation
leaves the heap before its destructors run, so a later access to it counts as
an access to freed memory. -/
def decRefCountAndFree (heap : VmHeap) (id : ℕ) (releasing : List ℕ) :
    Option (VmHeap × List ℕ) :=
  match heap.cells id with
  | none => none
  | some alloc =>
      if alloc.refCount = 1 then
        some (heap.erase id, alloc.pointers ++ releasing)
      else
        some (heap.modify id VmAlloc.release, releasing)

/-- The stack of `mark_cxt_t`, its top first; module data may be absent. -/
abbrev MarkStack := List (Option ℕ)

/-- What `mark` reads of a frame: the module data of the module reference that
it saved, if it saved one, and the pointers that its type designates. -/
structure FrameRoots where
  prevModuleData : Option (Option ℕ)
  pointers : List (Option ℕ)
  deriving DecidableEq, Repr

/-- What `mark` reads of a thread. -/
structure ThreadRoots where
  mpBase : Option ℕ
  frames : List FrameRoots
  deriving DecidableEq, Repr

/-- Everything that a thread designates to `mark`. -/
def ThreadRoots.pointers (thread : ThreadRoots) : List (Option ℕ) :=
  thread.mpBase :: thread.frames.flatMap fun frame =>
    frame.prevModuleData.toList ++ frame.pointers

/-- A freed allocation has no colour to read. -/
def markPointerMaybe (heap : VmHeap) (colour : GcColour) (stack : MarkStack) :
    Option ℕ → Option MarkStack
  | none => some stack
  | some id =>
      match heap.cells id with
      | none => none
      | some alloc => some (if alloc.gcColour ≠ colour then some id :: stack else stack)

def markPointerFields (heap : VmHeap) (colour : GcColour) (stack : MarkStack)
    (fields : List (Option ℕ)) : Option MarkStack :=
  fields.foldlM (markPointerMaybe heap colour) stack

def markFrame (heap : VmHeap) (colour : GcColour) (stack : MarkStack)
    (frame : FrameRoots) : Option MarkStack :=
  markPointerFields heap colour (frame.prevModuleData.toList ++ stack) frame.pointers

def markThread (heap : VmHeap) (colour : GcColour) (stack : MarkStack)
    (thread : ThreadRoots) : Option MarkStack :=
  thread.frames.foldlM (markFrame heap colour) (thread.mpBase :: stack)

/-- The roots of all threads. -/
def markThreads (heap : VmHeap) (colour : GcColour) (threads : List ThreadRoots) :
    Option MarkStack :=
  threads.foldlM (markThread heap colour) []

/-- Progress of `collect`: the marking stack; the tracked allocations kept so
far, those still to be examined, and the references that a removed one
releases; the end of the process when `mark` dereferences a null pointer. -/
inductive Phase where
  | idle
  | marking (stack : MarkStack)
  | sweeping (kept remaining releasing : List ℕ)
  | crashed
  deriving DecidableEq, Repr

structure GcState (mutators : ℕ) where
  heap : VmHeap
  /-- Counted references in frames, registers and native code. -/
  held : Fin mutators → List ℕ
  /-- References that a mutator is releasing. -/
  releasing : Fin mutators → List ℕ
  trackingAllocs : List ℕ
  collectionEpoch : ℕ
  phase : Phase
  touchedFreed : Bool

namespace GcState

variable {mutators : ℕ}

def init : GcState mutators where
  heap := Heap.empty
  held _ := []
  releasing _ := []
  trackingAllocs := []
  collectionEpoch := 0
  phase := .idle
  touchedFreed := false

/-- The references that the sweep is releasing. -/
def sweepReleasing (state : GcState mutators) : List ℕ :=
  match state.phase with
  | .sweeping _ _ releasing => releasing
  | _ => []

/-- The allocations that the collector tracks. -/
def tracked (state : GcState mutators) : List ℕ :=
  match state.phase with
  | .sweeping kept remaining _ => kept ++ remaining
  | _ => state.trackingAllocs

/-- The references of all mutators in one of their lists. -/
def total (lists : Fin mutators → List ℕ) (id : ℕ) : ℕ :=
  ∑ mutator, (lists mutator).count id

/-- The counted references to an allocation: in allocations, with mutators, and
among those being released. -/
def references (state : GcState mutators) (id : ℕ) : ℕ :=
  incoming layout state.heap id + total state.held id + total state.releasing id +
    state.sweepReleasing.count id

def touchFreed (state : GcState mutators) : GcState mutators :=
  { state with touchedFreed := true }

def hold (state : GcState mutators) (mutator : Fin mutators) (list : List ℕ) :
    GcState mutators :=
  { state with held := Function.update state.held mutator list }

def allocate (state : GcState mutators) (mutator : Fin mutators) (kind : AllocKind)
    (slotCount : ℕ) : GcState mutators :=
  { state.hold mutator (state.heap.limit :: state.held mutator) with
    heap := state.heap.allocate (VmAlloc.create kind slotCount) }

def addRef (state : GcState mutators) (mutator : Fin mutators) (id : ℕ) :
    GcState mutators :=
  match state.heap.cells id with
  | none => state.touchFreed
  | some _ =>
      { state.hold mutator (id :: state.held mutator) with
        heap := state.heap.modify id VmAlloc.addRef }

/-- A mutator calls `dec_ref_count_and_free` on a reference that it holds. -/
def removeRef (state : GcState mutators) (mutator : Fin mutators) (id : ℕ) :
    GcState mutators :=
  { state.hold mutator ((state.held mutator).erase id) with
    releasing := Function.update state.releasing mutator (id :: state.releasing mutator) }

def releaseNext (state : GcState mutators) (mutator : Fin mutators) (id : ℕ)
    (rest : List ℕ) : GcState mutators :=
  match decRefCountAndFree state.heap id rest with
  | none => state.touchFreed
  | some (heap, releasing) =>
      { state with
        heap := heap
        releasing := Function.update state.releasing mutator releasing }

/-- The references left after one is given away. -/
def without (list : List ℕ) : Option ℕ → List ℕ
  | none => list
  | some id => list.erase id

/-- A mutator exchanges a pointer in an allocation with a reference that it
holds. -/
def swapSlot (state : GcState mutators) (mutator : Fin mutators) (owner index : ℕ)
    (value : Option ℕ) : GcState mutators :=
  match state.heap.cells owner with
  | none => state.touchFreed
  | some alloc =>
      { state.hold mutator
          ((alloc.slots[index]?.join).toList ++ without (state.held mutator) value) with
        heap := state.heap.modify owner (VmAlloc.setSlot index value) }

def trackAllocation (state : GcState mutators) (id : ℕ) : GcState mutators :=
  match state.heap.cells id with
  | none => state.touchFreed
  | some _ =>
      { state with
        heap := state.heap.modify id fun alloc =>
          alloc.addRef.setGcColour (getCurrentColour state.collectionEpoch)
        trackingAllocs := id :: state.trackingAllocs }

def startCollect (state : GcState mutators) (threads : List ThreadRoots) :
    GcState mutators :=
  if state.trackingAllocs = [] then
    state
  else
    match markThreads state.heap (getCurrentColour state.collectionEpoch) threads with
    | none => state.touchFreed
    | some stack => { state with phase := .marking stack }

/-- One iteration of the traversal in `mark`. -/
def markNext (state : GcState mutators) (current : Option ℕ) (stack : MarkStack) :
    GcState mutators :=
  let colour := getCurrentColour state.collectionEpoch
  match current with
  | none => { state with phase := .crashed }
  | some id =>
      match state.heap.cells id with
      | none => state.touchFreed
      | some alloc =>
          let heap := state.heap.modify id (VmAlloc.setGcColour colour)
          match markPointerFields heap colour stack alloc.mappedFields with
          | none => state.touchFreed
          | some pushed => { state with heap := heap, phase := .marking pushed }

/-- One call of the predicate in `sweep`. -/
def sweepNext (state : GcState mutators) (kept : List ℕ) (id : ℕ)
    (remaining : List ℕ) : GcState mutators :=
  match state.heap.cells id with
  | none => state.touchFreed
  | some alloc =>
      if alloc.gcColour = getSweeperColour state.collectionEpoch then
        { state with phase := .sweeping kept remaining [id] }
      else
        { state with phase := .sweeping (kept ++ [id]) remaining [] }

def sweepRelease (state : GcState mutators) (kept remaining : List ℕ) (id : ℕ)
    (rest : List ℕ) : GcState mutators :=
  match decRefCountAndFree state.heap id rest with
  | none => state.touchFreed
  | some (heap, releasing) =>
      { state with heap := heap, phase := .sweeping kept remaining releasing }

def endCollect (state : GcState mutators) (kept : List ℕ) : GcState mutators :=
  { state with
    trackingAllocs := kept
    collectionEpoch := state.collectionEpoch + 1
    phase := .idle }

/-- What a mutator does while no collection is running. -/
inductive Mutation where
  | allocate (kind : AllocKind) (slotCount : ℕ)
  | addRef (id : ℕ)
  | removeRef (id : ℕ)
  | releaseNext
  | swapSlot (owner index : ℕ) (value : Option ℕ)
  | trackAllocation (id : ℕ)
  deriving DecidableEq, Repr

/-- A mutator works on allocations that some counted pointer designates, gives
away references that it holds, and has an allocation tracked once. -/
def mutate (state : GcState mutators) (mutator : Fin mutators) :
    Mutation → Option (GcState mutators)
  | .allocate kind slotCount => some (state.allocate mutator kind slotCount)
  | .addRef id =>
      if 0 < state.references id then some (state.addRef mutator id) else none
  | .removeRef id =>
      if id ∈ state.held mutator then some (state.removeRef mutator id) else none
  | .releaseNext =>
      match state.releasing mutator with
      | [] => none
      | id :: rest => some (state.releaseNext mutator id rest)
  | .swapSlot owner index value =>
      if 0 < state.references owner ∧ (∀ id ∈ value, id ∈ state.held mutator) ∧
          (∀ alloc ∈ state.heap.cells owner, index < alloc.slots.length) then
        some (state.swapSlot mutator owner index value)
      else none
  | .trackAllocation id =>
      if 0 < state.references id ∧ id ∉ state.trackingAllocs then
        some (state.trackAllocation id)
      else none

/-- What the collector does next. -/
def collectNext (state : GcState mutators) : Option (GcState mutators) :=
  match state.phase with
  | .idle | .crashed => none
  | .marking [] => some { state with phase := .sweeping [] state.trackingAllocs [] }
  | .marking (current :: stack) => some (state.markNext current stack)
  | .sweeping kept remaining (id :: rest) =>
      some (state.sweepRelease kept remaining id rest)
  | .sweeping kept (id :: remaining) [] => some (state.sweepNext kept id remaining)
  | .sweeping kept [] [] => some (state.endCollect kept)

inductive Action (mutators : ℕ) where
  | mutate (mutator : Fin mutators) (mutation : Mutation)
  | startCollect (threads : List ThreadRoots)
  | collectNext
  deriving DecidableEq, Repr

/-- A collection starts when no mutator is in the middle of a release, with
threads whose pointers are counted. -/
def step (state : GcState mutators) : Action mutators → Option (GcState mutators)
  | .mutate mutator mutation =>
      if state.phase = .idle then state.mutate mutator mutation else none
  | .startCollect threads =>
      if state.phase = .idle ∧ (∀ mutator, state.releasing mutator = []) ∧
          ∀ thread ∈ threads, ∀ id ∈ thread.pointers.reduceOption, 0 < state.references id then
        some (state.startCollect threads)
      else none
  | .collectNext => state.collectNext

end GcState

end Disvm.GarbageCollector
