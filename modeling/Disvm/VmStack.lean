import Disvm.ByteMemory
import Disvm.TransitionRuns

/-!
# The VM stack

`vm_stack_t` allocates frames one after the other on a chain of pages.  A frame
is first allocated on the top page and then pushed; popping the last frame of a
page other than the first frees the page.  Sizes are those of the 32-bit build.
Addresses are unbounded numbers: a page never lies within a page's size of the
end of the address space.
-/

namespace Disvm.VmStack

open ByteMemory

def sizeofStackPage : ℕ := 12

/-- A frame starts with the shared pointer to its type descriptor. -/
def sizeofFrame : ℕ := 8

/-- `vm_frame_base_alloc_t`: previous pc, previous frame, previous module
reference and a reserved word. -/
def sizeofFrameBase : ℕ := 16

def invalidProgramCounter : ℕ := 2 ^ 32 - 1

/-- `vm_stack_page`, whose previous page is the next one of the chain. -/
structure StackPage where
  address : ℕ
  pageLimitAddr : ℕ
  pageTopFrame : Option ℕ
  deriving DecidableEq, Repr

namespace StackPage

def stackData (page : StackPage) : ℕ :=
  page.address + sizeofStackPage

def containsFrame (page : StackPage) (frame : ℕ) : Bool :=
  page.stackData ≤ frame && frame < page.pageLimitAddr

end StackPage

/-- `vm_stack_layout` and the memory that its frames lie in. -/
structure StackLayout where
  stackPageSize : ℕ
  topPage : StackPage
  prevPages : List StackPage
  topFrame : Option ℕ
  memory : Memory

def base (frame : ℕ) : ℕ :=
  frame + sizeofFrame

/-- The size in the frame's type descriptor.  The word that holds the pointer to
the descriptor holds its size here. -/
def sizeInBytes (memory : Memory) (frame : ℕ) : ℕ :=
  readWord memory frame

def prevPcAddr (frame : ℕ) : ℕ := base frame

def prevFrameAddr (frame : ℕ) : ℕ := base frame + 4

def prevModuleRefAddr (frame : ℕ) : ℕ := base frame + 8

def toPointer (word : ℕ) : Option ℕ :=
  if word = 0 then none else some word

def ofPointer (pointer : Option ℕ) : ℕ :=
  pointer.getD 0

def prevFrame (memory : Memory) (frame : ℕ) : Option ℕ :=
  toPointer (readWord memory (prevFrameAddr frame))

/-- The data of a frame. -/
def frameData (frame size : ℕ) : Extent where
  start := base frame
  size := size

/-- The constructor `vm_frame_t`. -/
def constructFrame (frame size : ℕ) (memory : Memory) : Memory :=
  writeWord (prevModuleRefAddr frame) 0
    (writeWord (prevFrameAddr frame) 0
      (writeWord (prevPcAddr frame) invalidProgramCounter
        (fill (frameData frame size) 0
          (writeWord (frame + 4) 0 (writeWord frame size memory)))))

/-- The destructor of `vm_frame_t`, which overwrites the data in a debug
build. -/
def destroyFrame (debug : Bool) (frame : ℕ) (memory : Memory) : Memory :=
  if debug then fill (frameData frame (sizeInBytes memory frame)) 0xda memory else memory

namespace StackLayout

def pages (layout : StackLayout) : List StackPage :=
  layout.topPage :: layout.prevPages

/-- The page that `new_page` puts at the address it gets. -/
def freshPage (stackPageSize address : ℕ) : StackPage where
  address := address
  pageLimitAddr := address + stackPageSize
  pageTopFrame := none

def init (stackPageSize address : ℕ) (memory : Memory) : StackLayout where
  stackPageSize := stackPageSize
  topPage := freshPage stackPageSize address
  prevPages := []
  topFrame := none
  memory := memory

def newPage (layout : StackLayout) (address : ℕ) : StackLayout :=
  { layout with
    topPage := freshPage layout.stackPageSize address
    prevPages := layout.pages }

/-- The previous page becomes the top page; there has to be one. -/
def dropPage (layout : StackLayout) : Option StackLayout :=
  match layout.prevPages with
  | [] => none
  | page :: pages => some { layout with topPage := page, prevPages := pages }

/-- A frame is constructed at an address on the top page. -/
def placeFrame (layout : StackLayout) (frame size : ℕ) : StackLayout × ℕ :=
  ({ layout with
      memory := constructFrame frame size layout.memory
      topPage := { layout.topPage with pageTopFrame := some frame } }, frame)

/-- `alloc_frame` for a descriptor of the given size, where `newAddress` is what
`new_page` gets if it is called.  A frame larger than a page throws. -/
def allocFrame (layout : StackLayout) (size newAddress : ℕ) : Option (StackLayout × ℕ) :=
  let newFrameSize := sizeofFrame + size
  if layout.stackPageSize < newFrameSize then
    none
  else
    match layout.topPage.pageTopFrame with
    | none => some (layout.placeFrame layout.topPage.stackData size)
    | some pageTopFrame =>
        let newFrameAddrMaybe :=
          pageTopFrame + (sizeofFrame + sizeInBytes layout.memory pageTopFrame)
        if newFrameAddrMaybe + newFrameSize ≥ layout.topPage.pageLimitAddr then
          let grown := layout.newPage newAddress
          some (grown.placeFrame grown.topPage.stackData size)
        else
          some (layout.placeFrame newFrameAddrMaybe size)

/-- `push_frame`, which dereferences the top frame of the page. -/
def pushFrame (layout : StackLayout) : Option StackLayout :=
  match layout.topPage.pageTopFrame with
  | none => none
  | some newTopFrame =>
      some { layout with
        memory := writeWord (prevFrameAddr newTopFrame) (ofPointer layout.topFrame) layout.memory
        topFrame := some newTopFrame }

/-- `pop_frame` with the frame that it returns.  It fails when the page to go
back to is missing or does not contain that frame. -/
def popFrame (debug : Bool) (layout : StackLayout) : Option (StackLayout × Option ℕ) :=
  match layout.topFrame with
  | none => some (layout, none)
  | some previousFrame =>
      let currentFrame := prevFrame layout.memory previousFrame
      let popped := { layout with
        memory := destroyFrame debug previousFrame layout.memory
        topFrame := currentFrame
        topPage := { layout.topPage with pageTopFrame := currentFrame } }
      match currentFrame with
      | none => some (popped, none)
      | some frame =>
          if popped.topPage.containsFrame frame then
            some (popped, some frame)
          else
            match popped.dropPage with
            | none => none
            | some dropped =>
                if dropped.topPage.containsFrame frame then some (dropped, some frame) else none

end StackLayout

/-- A frame as its owner knows it: where it is, its size and the bytes of its
data. -/
structure Frame where
  address : ℕ
  size : ℕ
  bytes : ℕ → UInt8

namespace Frame

/-- The bytes that a new frame has. -/
def create (address size : ℕ) : Frame where
  address := address
  size := size
  bytes offset := if offset < 4 then 0xff else 0

def extent (frame : Frame) : Extent where
  start := frame.address
  size := sizeofFrame + frame.size

def write (frame : Frame) (offset : ℕ) (byte : UInt8) : Frame :=
  { frame with bytes := Function.update frame.bytes offset byte }

end Frame

/-- Where a page's allocation is. -/
def StackPage.extent (stackPageSize : ℕ) (page : StackPage) : Extent where
  start := page.address
  size := sizeofStackPage + stackPageSize

/-- The layout together with the frames that have been pushed, the last first,
and the one that has been allocated only.  `failed` records a null dereference
or a failed assertion. -/
structure StackState where
  layout : StackLayout
  pending : Option Frame
  frames : List Frame
  failed : Bool

namespace StackState

def live (state : StackState) : List Frame :=
  state.pending.toList ++ state.frames

/-- The frame with an index among the live ones. -/
def modifyLive (state : StackState) (index : ℕ) (change : Frame → Frame) : StackState :=
  match state.pending, index with
  | none, index => { state with frames := state.frames.modify index change }
  | some frame, 0 => { state with pending := some (change frame) }
  | some _, index + 1 => { state with frames := state.frames.modify index change }

def fail (state : StackState) : StackState :=
  { state with failed := true }

inductive Action where
  | allocFrame (size newAddress : ℕ)
  | pushFrame
  | popFrame
  /-- The program writes a byte of a live frame's data. -/
  | write (index offset : ℕ) (byte : UInt8)
  deriving DecidableEq, Repr

/-- What the allocator guarantees of memory for a page: it is not null, it does
not overlap the other pages, and it ends before the end of the address space
with a page's size to spare. -/
def Fresh (layout : StackLayout) (address : ℕ) : Prop :=
  0 < address ∧ address + sizeofStackPage + 2 * layout.stackPageSize < 2 ^ 32 ∧
    ∀ page ∈ layout.pages, Extent.Apart
      ((StackLayout.freshPage layout.stackPageSize address).extent layout.stackPageSize)
      (page.extent layout.stackPageSize)

instance (layout : StackLayout) (address : ℕ) : Decidable (Fresh layout address) :=
  inferInstanceAs (Decidable (_ ∧ _ ∧ ∀ page ∈ layout.pages, _ ∨ _))

/-- A step.  A frame is pushed before the next is allocated or popped, and its
descriptor is larger than the frame base; the program does not write the
previous frame of a frame. -/
def step (debug : Bool) (state : StackState) : Action → Option StackState
  | .allocFrame size newAddress =>
      if state.pending.isNone ∧ sizeofFrameBase < size ∧ Fresh state.layout newAddress then
        match state.layout.allocFrame size newAddress with
        | none => some state
        | some (layout, frame) =>
            some { state with layout := layout, pending := some (Frame.create frame size) }
      else none
  | .pushFrame =>
      match state.pending with
      | none => none
      | some frame =>
          match state.layout.pushFrame with
          | none => some state.fail
          | some layout =>
              some { state with
                layout := layout
                pending := none
                frames := frame :: state.frames }
  | .popFrame =>
      if state.pending.isNone then
        match state.layout.popFrame debug with
        | none => some state.fail
        | some (layout, _) =>
            some { state with layout := layout, frames := state.frames.tail }
      else none
  | .write index offset byte =>
      match state.live[index]? with
      | none => none
      | some frame =>
          if offset < frame.size ∧ (offset < 4 ∨ 8 ≤ offset) then
            some { state.modifyLive index (Frame.write · offset byte) with
              layout := { state.layout with
                memory := Function.update state.layout.memory (base frame.address + offset) byte } }
          else none

/-- A stack before its first frame. -/
def Initial (state : StackState) : Prop :=
  ∃ stackPageSize address memory, 0 < address ∧
    address + sizeofStackPage + 2 * stackPageSize < 2 ^ 32 ∧
    state = ⟨StackLayout.init stackPageSize address memory, none, [], false⟩

def Reached (debug : Bool) : StackState → Prop :=
  Transition.Reachable Initial (Transition.StepsBy (fun _ _ => True) (step debug))

end StackState

end Disvm.VmStack
