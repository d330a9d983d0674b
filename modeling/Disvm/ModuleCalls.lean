import Disvm.RefRelease
import Disvm.TransitionRuns

/-!
# Calls between modules

The registers of a thread, its frames and the heap they refer to, with the
instructions that make calls, return from them and raise exceptions.  A call
into another module saves the module reference in the frame of the callee; the
reference to the caller's module data is kept but is not stored anywhere.  Sizes
and offsets are in words.
-/

namespace Disvm.ModuleCalls

open RefCounting

/-- The words of a frame before its data: previous pc, previous frame, previous
module reference and a reserved word. -/
def frameBaseWords : ℕ := 4

def invalidProgramCounter : ℤ := -1

/-- `type_descriptor_t`, with the offsets that its map designates. -/
structure TypeDescriptor where
  size : ℕ
  pointers : List ℕ
  nodup : pointers.Nodup

structure ExceptionEntry where
  name : Option (List ℕ)
  pc : ℤ
  deriving DecidableEq, Repr

structure HandlerEntry where
  exceptionOffset : ℕ
  beginPc : ℤ
  endPc : ℤ
  typeDesc : Option TypeDescriptor
  exceptionTable : List ExceptionEntry

/-- What a module reference uses of its module. -/
structure Module where
  builtin : Bool
  originalMp : Option ℕ
  typeSection : List TypeDescriptor
  handlerSection : List HandlerEntry
  builtinWithoutData : builtin = true → originalMp = none

structure FunctionRef where
  entryPc : ℤ
  frameType : ℕ
  deriving DecidableEq, Repr

/-- `vm_module_ref_t`. -/
structure ModuleRef where
  module : Module
  functionRefs : List FunctionRef
  mpBase : Option ℕ
  builtinWithoutData : module.builtin = true → mpBase = none

inductive Content where
  | string (runes : List ℕ)
  /-- An allocation with its pointer fields. -/
  | data (fields : List (Option ℕ))
  | moduleRef (ref : ModuleRef)

structure VmAlloc where
  refCount : ℕ
  content : Content

namespace Content

/-- What the destructor releases. -/
def refs : Content → List ℕ
  | .string _ => []
  | .data fields => fields.reduceOption
  | .moduleRef ref => ref.mpBase.toList

end Content

def counted : Counted VmAlloc where
  refCount := VmAlloc.refCount
  refs alloc := alloc.content.refs
  setCount count alloc := { alloc with refCount := count }
  refCount_setCount _ _ := rfl
  refs_setCount _ _ := rfl
  setCount_setCount _ _ _ := rfl
  setCount_refCount _ := rfl

abbrev VmHeap := Heap VmAlloc

def contentAt (heap : VmHeap) (id : ℕ) : Option Content :=
  (heap.cells id).map VmAlloc.content

def moduleRefAt (heap : VmHeap) (id : ℕ) : Option ModuleRef :=
  match contentAt heap id with
  | some (.moduleRef ref) => some ref
  | _ => none

/-- `mp_base` of a module reference. -/
def mpBaseOf (heap : VmHeap) (id : ℕ) : Option ℕ :=
  (moduleRefAt heap id).bind ModuleRef.mpBase

def moduleOf (heap : VmHeap) (id : ℕ) : Option Module :=
  (moduleRefAt heap id).map ModuleRef.module

/-- `vm_frame_t`; `slots` are the words of its data that hold pointers. -/
structure Frame where
  address : ℕ
  frameType : TypeDescriptor
  prevPc : ℤ
  prevFrame : Option ℕ
  prevModuleRef : Option ℕ
  slots : ℕ → Option ℕ

namespace Frame

def create (address : ℕ) (frameType : TypeDescriptor) : Frame where
  address := address
  frameType := frameType
  prevPc := invalidProgramCounter
  prevFrame := none
  prevModuleRef := none
  slots _ := none

/-- The pointers that the map of a type designates in the frame. -/
def pointersOf (frame : Frame) (type : TypeDescriptor) : List ℕ :=
  type.pointers.filterMap frame.slots

def pointers (frame : Frame) : List ℕ :=
  frame.pointersOf frame.frameType

def setSlot (frame : Frame) (offset : ℕ) (value : Option ℕ) : Frame :=
  { frame with slots := Function.update frame.slots offset value }

/-- `init_memory` on the words from the base of the frame on, which are its
links first. -/
def initMemory (frame : Frame) (type : TypeDescriptor) : Frame :=
  { frame with
    prevPc := if 0 < type.size then 0 else frame.prevPc
    prevFrame := if 1 < type.size then none else frame.prevFrame
    prevModuleRef := if 2 < type.size then none else frame.prevModuleRef
    slots := fun offset => if offset < type.size then none else frame.slots offset }

end Frame

/-- What a frame has when execution leaves it for a frame that it calls: its
identity, the registers, the pc to go on at and the references to each
allocation that are not held by program data. -/
structure Suspension where
  frame : ℕ
  nextPc : ℤ
  moduleRef : ℕ
  mpBase : Option ℕ
  crossed : Bool
  held : ℕ → ℤ

inductive Control where
  | running
  /-- A built-in function runs. -/
  | native
  | ended
  deriving DecidableEq, Repr

/-- A thread and the heap.  `frames` are the frames from the top one down and
`allocated` is the one that has been allocated on top of them and not yet
pushed.  `suspended` records each frame below the top one, `others` are the
references of the rest of the program and `abandoned` those that nothing will
release.  `failed` records that null is dereferenced or that the links of a frame
are overwritten. -/
structure ThreadState where
  heap : VmHeap
  moduleRef : ℕ
  mpBase : Option ℕ
  pc : ℤ
  frames : List Frame
  allocated : Option Frame
  control : Control
  suspended : List Suspension
  others : List ℕ
  abandoned : List ℕ
  touchedFreed : List ℕ
  failed : Bool

namespace ThreadState

def fail (state : ThreadState) : ThreadState :=
  { state with failed := true }

def stop (state : ThreadState) : ThreadState :=
  { state with control := .ended }

/-- The references from the data of frames. -/
def frameRefs (state : ThreadState) : List ℕ :=
  (state.allocated.toList ++ state.frames).flatMap Frame.pointers

/-- The references to an allocation that program data holds, in the heap, in
frames and elsewhere. -/
def programRefs (state : ThreadState) (id : ℕ) : ℕ :=
  incoming counted.toLayout state.heap id +
    (state.frameRefs ++ state.others ++ state.abandoned).count id

/-- The other references to an allocation. -/
def held (state : ThreadState) (id : ℕ) : ℤ :=
  count counted.toLayout state.heap id - state.programRefs id

def touch (state : ThreadState) (id : ℕ) : ThreadState :=
  if (state.heap.cells id).isSome then state
  else { state with touchedFreed := id :: state.touchedFreed }

def addRef (state : ThreadState) (id : ℕ) : ThreadState :=
  { state.touch id with heap := RefCounting.addRef counted state.heap id }

/-- Releases in order; each is `dec_ref_count_and_free`. -/
def releaseRefs (state : ThreadState) (pointers : List ℕ) : ThreadState :=
  let (heap, touched) := release counted state.heap pointers
  { state with heap := heap, touchedFreed := touched ++ state.touchedFreed }

def decRefCountAndFree (state : ThreadState) (pointer : Option ℕ) : ThreadState :=
  state.releaseRefs pointer.toList

/-- `alloc_frame`; a frame that has been allocated before is not used again. -/
def allocFrame (state : ThreadState) (frameType : TypeDescriptor) : ThreadState :=
  let address := (state.allocated.map fun frame => frame.address + 1).getD state.frames.length
  { state with
    allocated := some (Frame.create address frameType)
    abandoned := (state.allocated.map Frame.pointers).getD [] ++ state.abandoned }

/-- `push_frame` and what the call instructions then store in the frame.  With no
frame allocated the top frame becomes its own previous frame. -/
def pushFrame (state : ThreadState) (prevPc : ℤ) (prevModuleRef : Option ℕ) : ThreadState :=
  match state.allocated with
  | none => state.fail
  | some frame =>
      let pushed : Frame := { frame with
        prevPc := prevPc
        prevFrame := state.frames.head?.map Frame.address
        prevModuleRef := prevModuleRef }
      { state with frames := pushed :: state.frames, allocated := none }

/-- `pop_frame` with the destructor of the frame. -/
def popFrame (state : ThreadState) : ThreadState :=
  match state.frames with
  | [] => state
  | frame :: rest =>
      let dropped := { state with
        frames := if frame.prevFrame.isSome then rest else []
        allocated := none
        abandoned := (state.allocated.map Frame.pointers).getD [] ++ state.abandoned
        suspended := state.suspended.tail }
      (dropped.decRefCountAndFree frame.prevModuleRef).releaseRefs frame.pointers

def modifyTop (state : ThreadState) (change : Frame → Frame) : ThreadState :=
  { state with frames := state.frames.modifyHead change }

/-- The registers are set back when the top frame has saved a module
reference. -/
def leaveModule (state : ThreadState) : ThreadState :=
  match state.frames.head?.bind Frame.prevModuleRef with
  | none => state
  | some prevModuleRef =>
      let released := state.decRefCountAndFree (some state.moduleRef)
      let restored := { released.modifyTop fun frame => { frame with prevModuleRef := none } with
        moduleRef := prevModuleRef }
      let dropped := restored.decRefCountAndFree restored.mpBase
      { dropped.touch prevModuleRef with mpBase := mpBaseOf dropped.heap prevModuleRef }

/-- The record of the top frame. -/
def record (state : ThreadState) (frame : Frame) (crossed : Bool) : Suspension where
  frame := frame.address
  nextPc := state.pc + 1
  moduleRef := state.moduleRef
  mpBase := state.mpBase
  crossed := crossed
  held := state.held

/-- The records once the top frame is suspended. -/
def suspend (state : ThreadState) (crossed : Bool) : List Suspension :=
  match state.frames with
  | [] => state.suspended
  | frame :: _ => state.record frame crossed :: state.suspended

def call (state : ThreadState) (target : ℤ) : ThreadState :=
  { state.pushFrame (state.pc + 1) none with
    pc := target
    suspended := state.suspend false }

/-- The registers are saved and set for another module. -/
def enterModule (state : ThreadState) (targetModule : ℕ) (moduleRef : ModuleRef) : ThreadState :=
  let pushed := state.pushFrame (state.pc + 1) (some state.moduleRef)
  { pushed.addRef targetModule with
    moduleRef := targetModule
    mpBase := moduleRef.mpBase
    suspended := state.suspend true }

/-- `mcall` with the module reference and the function that it has found.  The pc
stays at the instruction while a built-in function runs. -/
def mcall (state : ThreadState) (targetModule : ℕ) (moduleRef : ModuleRef) (entryPc : ℤ) :
    ThreadState :=
  let entered := state.enterModule targetModule moduleRef
  if moduleRef.module.builtin then
    { entered with control := .native }
  else
    match moduleRef.mpBase with
    | none => entered.fail
    | some id => { entered.addRef id with pc := entryPc }

/-- The thread ends when its first frame returns. -/
def ret (state : ThreadState) : ThreadState :=
  match state.frames with
  | [] => state.fail
  | frame :: _ =>
      let popped := state.leaveModule.popFrame
      { popped with
        pc := frame.prevPc
        control := if popped.frames.isEmpty then .ended else .running }

/-- The string that identifies an exception: a string itself, or the first
pointer of another allocation. -/
def exceptionId (heap : VmHeap) (exception : ℕ) : Option (List ℕ) :=
  match contentAt heap exception with
  | some (.string runes) => some runes
  | some (.data (some first :: _)) =>
      match contentAt heap first with
      | some (.string runes) => some runes
      | _ => none
  | _ => none

/-- The first entry of a handler that catches an exception.  A missing name
compares as an empty string and otherwise stands for all exceptions. -/
def matchEntry (exceptionId : List ℕ) (entry : ExceptionEntry) : Option ℤ :=
  if exceptionId = entry.name.getD [] then some entry.pc
  else if entry.name = none ∧ entry.pc ≠ invalidProgramCounter then some entry.pc
  else none

def matchHandler (exceptionId : List ℕ) (pc : ℤ) (handler : HandlerEntry) :
    Option (HandlerEntry × ℤ) :=
  if pc < handler.beginPc ∨ handler.endPc ≤ pc then none
  else (handler.exceptionTable.findSome? (matchEntry exceptionId)).map fun handlerPc =>
    (handler, handlerPc)

/-- `find_exception_handler`, with the handler, the target frame and the pc. -/
def findExceptionHandler (heap : VmHeap) (exceptionId : List ℕ) :
    (module : ℕ) → (pc : ℤ) → List Frame → Option (HandlerEntry × ℕ × ℤ)
  | _, _, [] => none
  | module, pc, frame :: rest =>
      let handlers := ((moduleOf heap module).map Module.handlerSection).getD []
      match handlers.findSome? (matchHandler exceptionId pc) with
      | some (handler, handlerPc) => some (handler, frame.address, handlerPc)
      | none =>
          if frame.prevFrame.isSome then
            findExceptionHandler heap exceptionId (frame.prevModuleRef.getD module)
              (frame.prevPc - 1) rest
          else none

/-- The handler for an exception that is raised at the pc. -/
def handlerFor (state : ThreadState) (exceptionId : List ℕ) : Option (HandlerEntry × ℕ × ℤ) :=
  findExceptionHandler state.heap exceptionId state.moduleRef state.pc state.frames

/-- Frames are popped until the target frame is the top one. -/
def unwindTo (target : ℕ) : ℕ → ThreadState → ThreadState
  | 0, state => state
  | fuel + 1, state =>
      let popped := state.leaveModule.popFrame
      if popped.frames.head?.map Frame.address = some target then popped
      else unwindTo target fuel popped

/-- The target frame is initialized again with the type of the handler. -/
def reinitialize (state : ThreadState) (handler : HandlerEntry) : ThreadState :=
  match state.frames, handler.typeDesc with
  | frame :: _, some type =>
      if type.size = 0 then state
      else (state.releaseRefs (frame.pointersOf type)).modifyTop fun frame =>
        frame.initMemory type
  | _, _ => state

/-- The exception is stored in the target frame. -/
def storeException (state : ThreadState) (offset exception : ℕ) : ThreadState :=
  match state.frames with
  | [] => state.fail
  | frame :: _ =>
      if offset < frameBaseWords then state.fail
      else (state.decRefCountAndFree (frame.slots offset)).modifyTop fun frame =>
        frame.setSlot offset (some exception)

/-- `raise` of an exception with the handler that has been found. -/
def raiseTo (state : ThreadState) (exception : ℕ) (handler : HandlerEntry) (target : ℕ)
    (handlerPc : ℤ) : ThreadState :=
  let referenced := state.addRef exception
  let unwound :=
    if state.frames.head?.map Frame.address = some target then referenced
    else referenced.unwindTo target state.frames.length
  { (unwound.reinitialize handler).storeException handler.exceptionOffset exception with
    pc := handlerPc
    control := .running }

/-- An exception that is not handled ends the thread. -/
def raise (state : ThreadState) (exception : ℕ) : Option ThreadState :=
  match exceptionId state.heap exception with
  | none => none
  | some exceptionId =>
      match state.handlerFor exceptionId with
      | none => some state.stop
      | some (handler, target, handlerPc) =>
          some (state.raiseTo exception handler target handlerPc)

/-- `new vm_string_t`. -/
def newString (state : ThreadState) (runes : List ℕ) : ThreadState :=
  { state with heap := state.heap.allocate ⟨1, .string runes⟩ }

/-- A built-in function throws a marshallable exception.  Its string is released
when a handler has taken a reference to it. -/
def throwMarshallable (state : ThreadState) (runes : List ℕ) : Option ThreadState :=
  let created := state.newString runes
  let exception := state.heap.limit
  match created.handlerFor runes with
  | none => some { created.stop with abandoned := exception :: created.abandoned }
  | some (handler, target, handlerPc) =>
      some ((created.raiseTo exception handler target handlerPc).decRefCountAndFree
        (some exception))

/-- Where a program keeps a pointer: a slot of a frame by the frame's depth, a slot
of the allocated frame, or a field. -/
inductive Place where
  | slot (depth offset : ℕ)
  | argument (offset : ℕ)
  | field (id index : ℕ)
  deriving DecidableEq, Repr

def frameSlot (frame : Frame) (offset : ℕ) : Option (Option ℕ) :=
  if offset ∈ frame.frameType.pointers then some (frame.slots offset) else none

/-- The pointer at a place, when there is such a place. -/
def readPlace (state : ThreadState) : Place → Option (Option ℕ)
  | .slot depth offset => state.frames[depth]?.bind fun frame => frameSlot frame offset
  | .argument offset => state.allocated.bind fun frame => frameSlot frame offset
  | .field id index =>
      match contentAt state.heap id with
      | some (.data fields) => fields[index]?
      | _ => none

def setField (index : ℕ) (value : Option ℕ) (alloc : VmAlloc) : VmAlloc :=
  match alloc.content with
  | .data fields => { alloc with content := .data (fields.set index value) }
  | _ => alloc

def writePlace (state : ThreadState) (value : Option ℕ) : Place → ThreadState
  | .slot depth offset =>
      { state with frames := state.frames.modify depth fun frame => frame.setSlot offset value }
  | .argument offset =>
      { state with allocated := state.allocated.map fun frame => frame.setSlot offset value }
  | .field id index => { state with heap := state.heap.modify id (setField index value) }

/-- What an instruction stores. -/
inductive Value where
  | nil
  | copy (source : Place)
  | string (runes : List ℕ)
  | record (fields : ℕ)
  /-- `load`, with what the module resolver and the imports give. -/
  | module (module : Module) (functionRefs : List FunctionRef)

def allocate (state : ThreadState) (content : Content) : ThreadState × Option ℕ :=
  ({ state with heap := state.heap.allocate ⟨1, content⟩ }, some state.heap.limit)

/-- The constructor of `vm_module_ref_t`, which copies the module data. -/
def newModuleRef (state : ThreadState) (module : Module) (functionRefs : List FunctionRef) :
    Option (ThreadState × Option ℕ) :=
  match original : module.originalMp with
  | none => some (state.allocate (.moduleRef
      { module := module, functionRefs := functionRefs, mpBase := none,
        builtinWithoutData := fun _ => rfl }))
  | some originalMp =>
      match contentAt state.heap originalMp with
      | some (.data fields) =>
          let (copied, mpBase) :=
            (fields.reduceOption.foldl addRef state).allocate (.data fields)
          some (copied.allocate (.moduleRef
            { module := module, functionRefs := functionRefs, mpBase := mpBase,
              builtinWithoutData := fun builtin => by
                rw [module.builtinWithoutData builtin] at original
                cases original }))
      | _ => none

/-- A pointer that the state has a reference for. -/
def evaluate (state : ThreadState) : Value → Option (ThreadState × Option ℕ)
  | .nil => some (state, none)
  | .copy source => (state.readPlace source).map fun pointer =>
      (pointer.elim state state.addRef, pointer)
  | .string runes => some (state.allocate (.string runes))
  | .record fields => some (state.allocate (.data (List.replicate fields none)))
  | .module module functionRefs => state.newModuleRef module functionRefs

/-- The old pointer is released when the new one is in its place. -/
def store (state : ThreadState) (value : Value) (dest : Place) : Option ThreadState :=
  match state.readPlace dest, state.evaluate value with
  | some previous, some (made, pointer) =>
      some ((made.writePlace pointer dest).decRefCountAndFree previous)
  | _, _ => none

inductive Action where
  | frame (frameType : ℕ)
  | mframe (source : Place) (function : ℕ)
  | call (target : ℤ)
  | mcall (source : Place) (function : ℕ)
  | ret
  | raise (source : Place)
  | store (value : Value) (dest : Place)
  | jump (target : ℤ)
  /-- A built-in function returns. -/
  | nativeReturn
  /-- A built-in function throws a marshallable exception. -/
  | nativeThrow (runes : List ℕ)
  /-- Any other exception leaves the interpreter. -/
  | fault
  | exit
  /-- The rest of the program takes and releases references. -/
  | otherTake (id : ℕ)
  | otherDrop (id : ℕ)

/-- The module reference at a place, if it is not nil. -/
def targetModule (state : ThreadState) (source : Place) : Option (Option (ℕ × ModuleRef)) :=
  match state.readPlace source with
  | none => none
  | some none => some none
  | some (some id) => (moduleRefAt state.heap id).map fun moduleRef => some (id, moduleRef)

/-- The frame type that `frame` uses. -/
def frameTypeOf (state : ThreadState) (frameType : ℕ) : Option TypeDescriptor :=
  (moduleOf state.heap state.moduleRef).bind fun module => module.typeSection[frameType]?

def next (state : ThreadState) : ThreadState :=
  { state with pc := state.pc + 1 }

/-- A type for frames is larger than the frame base and maps none of its words. -/
def stepFrame (state : ThreadState) (frameType : TypeDescriptor) : Option ThreadState :=
  if frameBaseWords < frameType.size ∧ ∀ offset ∈ frameType.pointers, frameBaseWords ≤ offset then
    some (state.allocFrame frameType).next
  else none

def stepMframe (state : ThreadState) (source : Place) (function : ℕ) : Option ThreadState :=
  match state.targetModule source with
  | none => none
  | some none => some state.stop
  | some (some (_, moduleRef)) =>
      match moduleRef.functionRefs[function]? with
      | none => some state.stop
      | some functionRef =>
          moduleRef.module.typeSection[functionRef.frameType]?.bind state.stepFrame

def stepMcall (state : ThreadState) (source : Place) (function : ℕ) : Option ThreadState :=
  match state.targetModule source with
  | none => none
  | some none => some state.stop
  | some (some (id, moduleRef)) =>
      match moduleRef.functionRefs[function]? with
      | none => some state.stop
      | some functionRef => some (state.mcall id moduleRef functionRef.entryPc)

def stepRaise (state : ThreadState) (source : Place) : Option ThreadState :=
  match state.readPlace source with
  | none => none
  | some none => some state.stop
  | some (some exception) => state.raise exception

/-- A step of a thread that is running.  Exceptions of the instructions other than
`raise` are not caught; an instruction that assumes what is not so is not
defined. -/
def stepRunning (state : ThreadState) : Action → Option ThreadState
  | .frame frameType => (state.frameTypeOf frameType).bind state.stepFrame
  | .mframe source function => state.stepMframe source function
  | .call target => some (state.call target)
  | .mcall source function => state.stepMcall source function
  | .ret => some state.ret
  | .raise source => state.stepRaise source
  | .store value dest => (state.store value dest).map next
  | .jump target => some { state with pc := target }
  | .exit => some state.stop
  | _ => none

/-- A step of a built-in function, which works on its caller's data. -/
def stepNative (state : ThreadState) : Action → Option ThreadState
  | .store value dest => state.store value dest
  | .nativeReturn => some state.ret
  | .nativeThrow runes => state.throwMarshallable runes
  | _ => none

def step (state : ThreadState) (action : Action) : Option ThreadState :=
  if state.control = .ended then none
  else
    match action with
    | .fault => some state.stop
    | .otherTake id =>
        if (state.heap.cells id).isSome then
          some { state.addRef id with others := id :: state.others }
        else none
    | .otherDrop id =>
        if id ∈ state.others then
          some { state.decRefCountAndFree (some id) with others := state.others.erase id }
        else none
    | action =>
        if state.control = .native then state.stepNative action else state.stepRunning action

/-- The constructors of `vm_thread_t`: the registers refer to the entry module, and
the first frame gets a copy of the data that the thread is started with. -/
def start (heap : VmHeap) (others : List ℕ) (entry : ℕ) (frameType : TypeDescriptor)
    (arguments : ℕ → Option ℕ) (startPc : ℤ) : ThreadState :=
  let mpBase := mpBaseOf heap entry
  let frame := { Frame.create 0 frameType with slots := arguments }
  let registers : ThreadState :=
    { heap := heap, moduleRef := entry, mpBase := mpBase, pc := startPc, frames := [],
      allocated := none, control := .running, suspended := [], others := others,
      abandoned := [], touchedFreed := [], failed := false }
  let referenced := (mpBase.toList ++ entry :: frame.pointers).foldl addRef registers
  { referenced with frames := [frame] }

/-- `~vm_registers_t`, whose stack pops its frames after the registers have been
released. -/
def teardown (state : ThreadState) : ThreadState :=
  let released := (state.decRefCountAndFree state.mpBase).decRefCountAndFree
    (some state.moduleRef)
  (fun popped : ThreadState => popped.popFrame)^[state.frames.length] released

end ThreadState

end Disvm.ModuleCalls
