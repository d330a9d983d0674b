import Disvm.ObjectMemory

/-!
# Landing of exceptions

When a handler has been found the frames above its frame are popped, with the modules that
they were called into, and the frame is initialised again by the descriptor of the handler.
The descriptor is for the frame from its base on, where the links of the frame are, and the
initialisation sets all of its words to zero.
-/

namespace Disvm.ExceptionLanding

open RefCounting ObjectMemory

/-- The words of `vm_frame_base_alloc_t`: previous pc, previous frame, previous module
reference and a reserved word. -/
def frameBaseWords : ℕ := 4

/-- `vm_frame_t`, from its base on.  The pointers of its type are in its data. -/
structure Frame where
  frameType : TypeDescriptor
  words : List Word
  base : frameBaseWords ≤ words.length
  data : ∀ offset ∈ frameType.pointerOffsets,
    frameBaseWords ≤ offset ∧ ∃ target, words[offset]? = some (.pointer target)

/-- The part of `handler_entry_t` that the landing uses; the offset is in words. -/
structure HandlerEntry where
  exceptionOffset : ℕ
  typeDesc : Option TypeDescriptor
  deriving DecidableEq, Repr

/-- A word of zeros. -/
def zero : Word → Word
  | .data _ => .data 0
  | .pointer _ => .pointer none

namespace Frame

def prevPc (frame : Frame) : Option Word :=
  frame.words[0]?

def prevFrame (frame : Frame) : Option Word :=
  frame.words[1]?

def prevModuleRef (frame : Frame) : Option ℕ :=
  frame.words[2]?.bind Word.target

def pointersOf (frame : Frame) (type : TypeDescriptor) : List ℕ :=
  type.pointerOffsets.filterMap fun offset => frame.words[offset]?.bind Word.target

def pointers (frame : Frame) : List ℕ :=
  frame.pointersOf frame.frameType

def setPointer (frame : Frame) (offset : ℕ) (target : Option ℕ) : Frame where
  frameType := frame.frameType
  words := frame.words.set offset (.pointer target)
  base := by
    rw [List.length_set]
    exact frame.base
  data := by
    intro other member
    obtain ⟨inData, held, found⟩ := frame.data other member
    refine ⟨inData, ?_⟩
    obtain ⟨inside, -⟩ := List.getElem?_eq_some_iff.mp found
    by_cases same : offset = other
    · subst same
      exact ⟨target, List.getElem?_set_self inside⟩
    · exact ⟨held, (List.getElem?_set_ne same).trans found⟩

/-- `init_memory`, from the base of the frame on. -/
def initMemory (frame : Frame) (type : TypeDescriptor) : Frame where
  frameType := frame.frameType
  words := frame.words.mapIdx fun offset word => if offset < type.wordCount then zero word else word
  base := by
    rw [List.length_mapIdx]
    exact frame.base
  data := by
    intro offset member
    obtain ⟨inData, held, found⟩ := frame.data offset member
    rw [List.getElem?_mapIdx, found, Option.map_some]
    split_ifs
    · exact ⟨inData, none, rfl⟩
    · exact ⟨inData, held, rfl⟩

end Frame

/-- The registers of a thread with its frames, from the top one down along their links.
`touchedFreed` are the freed objects that have been accessed. -/
structure Registers where
  heap : Heap VmAlloc
  moduleRef : ℕ
  mpBase : Option ℕ
  nextPc : BitVec 32
  frames : List Frame
  touchedFreed : List ℕ

/-- `mp_base` of a module reference. -/
def mpBaseOf (heap : Heap VmAlloc) (id : ℕ) : Option ℕ :=
  match (heap.cells id).map VmAlloc.kind with
  | some (.moduleRef mpBase) => mpBase
  | _ => none

namespace Registers

def touch (state : Registers) (id : ℕ) : Registers :=
  if (state.heap.cells id).isSome then state
  else { state with touchedFreed := id :: state.touchedFreed }

def addRef (state : Registers) (id : ℕ) : Registers :=
  { state.touch id with heap := RefCounting.addRef counted state.heap id }

/-- Releases in order; each is `dec_ref_count_and_free`. -/
def releaseRefs (state : Registers) (pointers : List ℕ) : Registers :=
  { state with
    heap := (release counted state.heap pointers).1
    touchedFreed := (release counted state.heap pointers).2 ++ state.touchedFreed }

/-- The registers are set back when the top frame has saved a module reference. -/
def leaveModule (state : Registers) : Registers :=
  match state.frames with
  | [] => state
  | frame :: rest =>
      match frame.prevModuleRef with
      | none => state
      | some prev =>
          let released := state.releaseRefs [state.moduleRef]
          let dropped := (released.releaseRefs released.mpBase.toList).touch prev
          { dropped with
            moduleRef := prev
            mpBase := mpBaseOf dropped.heap prev
            frames := frame.setPointer 2 none :: rest }

/-- `pop_frame` with the destructor of the frame. -/
def popFrame (state : Registers) : Registers :=
  match state.frames with
  | [] => state
  | frame :: rest =>
      { state.releaseRefs (frame.prevModuleRef.toList ++ frame.pointers) with frames := rest }

/-- The frames above the frame of the handler are popped. -/
def unwind : ℕ → Registers → Registers
  | 0, state => state
  | depth + 1, state => unwind depth state.leaveModule.popFrame

/-- `destroy_memory` and `init_memory` on the frame of the handler. -/
def resetFrame (state : Registers) (handler : HandlerEntry) : Registers :=
  match handler.typeDesc, state.frames with
  | some type, frame :: rest =>
      { state.releaseRefs (frame.pointersOf type) with frames := frame.initMemory type :: rest }
  | _, _ => state

def storeException (state : Registers) (handler : HandlerEntry) (e : ℕ) : Registers :=
  match state.frames with
  | [] => state
  | frame :: rest =>
      { state.releaseRefs
          (frame.words[handler.exceptionOffset]?.bind Word.target).toList with
        frames := frame.setPointer handler.exceptionOffset (some e) :: rest }

/-- `raise`, once a handler has been found for a frame at the depth. -/
def raise (state : Registers) (e depth : ℕ) (handler : HandlerEntry) (handlerPc : BitVec 32) :
    Registers :=
  { (((state.addRef e).unwind depth).resetFrame handler).storeException handler e with
    nextPc := handlerPc }

end Registers

/-- What is released for a frame that is popped: the registers of the module that it is left
for, and its pointers. -/
def Frame.leaves (frame : Frame) (moduleRef : ℕ) (mpBase : Option ℕ) : List ℕ :=
  match frame.prevModuleRef with
  | none => frame.pointers
  | some _ => moduleRef :: (mpBase.toList ++ frame.pointers)

/-- The module data that is current when the frame has been popped. -/
def Frame.mpBaseAfter (mp : ℕ → Option ℕ) (frame : Frame) (mpBase : Option ℕ) : Option ℕ :=
  match frame.prevModuleRef with
  | none => mpBase
  | some prev => mp prev

/-- What is released for the frames that are popped. -/
def unwindRefs (mp : ℕ → Option ℕ) : ℕ → Option ℕ → List Frame → List ℕ
  | _, _, [] => []
  | moduleRef, mpBase, frame :: frames =>
      frame.leaves moduleRef mpBase ++ unwindRefs mp (frame.prevModuleRef.getD moduleRef)
        (frame.mpBaseAfter mp mpBase) frames

/-- The references of a saved module reference, with the one to its module data that is kept
for it. -/
def Frame.savedRefs (mp : ℕ → Option ℕ) (frame : Frame) : List ℕ :=
  match frame.prevModuleRef with
  | none => []
  | some prev => prev :: (mp prev).toList

/-- The references of the registers and the frames. -/
def references (mp : ℕ → Option ℕ) (state : Registers) : List ℕ :=
  state.moduleRef :: (state.mpBase.toList ++
    state.frames.flatMap fun frame => frame.pointers ++ frame.savedRefs mp)

/-- The pointers that the descriptor of the handler names. -/
def HandlerEntry.named (handler : HandlerEntry) : List ℕ :=
  (handler.typeDesc.map TypeDescriptor.pointerOffsets).getD []

def HandlerEntry.sizeInWords (handler : HandlerEntry) : ℕ :=
  (handler.typeDesc.map TypeDescriptor.wordCount).getD 0

/-- The descriptor is for the frame, and the exception goes into one of its pointers. -/
structure HandlerEntry.Suits (handler : HandlerEntry) (frame : Frame) : Prop where
  exception : handler.exceptionOffset ∈ frame.frameType.pointerOffsets
  named : ∀ offset ∈ handler.named, offset ∈ frame.frameType.pointerOffsets

/-- The frame of the handler as it should be. -/
structure LandsIn (frame : Frame) (handler : HandlerEntry) (e : ℕ) (landing : Frame) : Prop where
  prevPc : landing.prevPc = frame.prevPc
  prevFrame : landing.prevFrame = frame.prevFrame
  prevModuleRef : landing.prevModuleRef = frame.prevModuleRef
  others : ∀ offset, offset ≠ handler.exceptionOffset → offset ∉ handler.named →
    landing.words[offset]? = frame.words[offset]?
  named : ∀ offset ∈ handler.named, offset ≠ handler.exceptionOffset →
    landing.words[offset]? = some (.pointer none)
  exception : landing.words[handler.exceptionOffset]? = some (.pointer (some e))

def Frame.namedRefs (frame : Frame) (handler : HandlerEntry) : List ℕ :=
  handler.named.filterMap fun offset => frame.words[offset]?.bind Word.target

/-- What the exception replaces, if it is there still. -/
def Frame.replacedRefs (frame : Frame) (handler : HandlerEntry) : List ℕ :=
  if handler.exceptionOffset < handler.sizeInWords then []
  else (frame.words[handler.exceptionOffset]?.bind Word.target).toList

/-- What is released in the frame of the handler. -/
def Frame.landingRefs (frame : Frame) (handler : HandlerEntry) : List ℕ :=
  frame.namedRefs handler ++ frame.replacedRefs handler

/-- The frame is kept, one reference to the exception has been added, and each pointer of the
popped frames and each named one has been released once; no freed object has been accessed. -/
structure Landed (state : Registers) (e depth : ℕ) (handler : HandlerEntry)
    (handlerPc : BitVec 32) (frame : Frame) (after : Registers) : Prop where
  nextPc : after.nextPc = handlerPc
  frames : ∃ landing, after.frames = landing :: state.frames.drop (depth + 1) ∧
    LandsIn frame handler e landing
  heap : after.heap = (release counted (RefCounting.addRef counted state.heap e)
    (unwindRefs (mpBaseOf state.heap) state.moduleRef state.mpBase (state.frames.take depth) ++
      frame.landingRefs handler)).1
  touchedFreed : after.touchedFreed = state.touchedFreed

/-- The words that would be set to zero without being named are zero. -/
def OthersZero (handler : HandlerEntry) (frame : Frame) : Prop :=
  ∀ offset < handler.sizeInWords, offset ∉ handler.named → offset ≠ handler.exceptionOffset →
    ∀ word, frame.words[offset]? = some word → zero word = word

section Landing

variable {frame : Frame} {handler : HandlerEntry} {e : ℕ}

/-- The frame that the handler lands in. -/
def Frame.landing (frame : Frame) (handler : HandlerEntry) (e : ℕ) : Frame :=
  ((handler.typeDesc.map frame.initMemory).getD frame).setPointer handler.exceptionOffset (some e)

theorem getElem?_landing {offset : ℕ} (isOther : offset ≠ handler.exceptionOffset) :
    (frame.landing handler e).words[offset]? = (frame.words[offset]?).map fun word =>
      if offset < handler.sizeInWords then zero word else word := by
  unfold Frame.landing Frame.setPointer HandlerEntry.sizeInWords
  dsimp only
  rw [List.getElem?_set_ne (Ne.symm isOther)]
  cases handler.typeDesc with
  | none =>
      simp only [Option.map_none, Option.getD_none, Nat.not_lt_zero, if_false]
      cases frame.words[offset]? <;> rfl
  | some type =>
      simp only [Option.map_some, Option.getD_some, Frame.initMemory, List.getElem?_mapIdx]

theorem HandlerEntry.Suits.in_data (suits : handler.Suits frame) {offset : ℕ}
    (below : offset < frameBaseWords) :
    offset ≠ handler.exceptionOffset ∧ offset ∉ handler.named := by
  constructor
  · rintro rfl
    have inData := (frame.data _ suits.exception).1
    omega
  · intro member
    have inData := (frame.data _ (suits.named offset member)).1
    omega

theorem HandlerEntry.named_inside {offset : ℕ} (member : offset ∈ handler.named) :
    offset < handler.sizeInWords := by
  unfold HandlerEntry.named at member
  unfold HandlerEntry.sizeInWords
  cases found : handler.typeDesc with
  | none =>
      rw [found] at member
      cases member
  | some type =>
      rw [found] at member
      exact TypeDescriptor.pointerOffsets_inside member

theorem landsIn_iff (suits : handler.Suits frame) :
    LandsIn frame handler e (frame.landing handler e) ↔ OthersZero handler frame := by
  constructor
  · intro lands offset inside notNamed isOther word found
    have same := lands.others offset isOther notNamed
    rw [getElem?_landing isOther, found, Option.map_some, if_pos inside] at same
    exact Option.some.inj same
  · intro zeros
    have others : ∀ offset, offset ≠ handler.exceptionOffset → offset ∉ handler.named →
        (frame.landing handler e).words[offset]? = frame.words[offset]? := by
      intro offset isOther notNamed
      rw [getElem?_landing isOther]
      cases found : frame.words[offset]? with
      | none => rfl
      | some word =>
          rw [Option.map_some]
          split_ifs with inside
          · rw [zeros offset inside notNamed isOther word found]
          · rfl
    have links : ∀ offset < frameBaseWords,
        (frame.landing handler e).words[offset]? = frame.words[offset]? := by
      intro offset below
      obtain ⟨isOther, notNamed⟩ := suits.in_data below
      exact others offset isOther notNamed
    constructor
    · exact links 0 (by decide)
    · exact links 1 (by decide)
    · exact congrArg (fun word => word.bind Word.target) (links 2 (by decide))
    · exact others
    · intro offset member isOther
      obtain ⟨-, target, found⟩ := frame.data offset (suits.named offset member)
      rw [getElem?_landing isOther, found, Option.map_some,
        if_pos (HandlerEntry.named_inside member)]
      rfl
    · have inLanding := ((handler.typeDesc.map frame.initMemory).getD frame).data
        handler.exceptionOffset (by
          cases handler.typeDesc <;> exact suits.exception)
      obtain ⟨-, target, found⟩ := inLanding
      obtain ⟨inside, -⟩ := List.getElem?_eq_some_iff.mp found
      exact List.getElem?_set_self inside

end Landing

section Releases

variable {state : Registers} {mp : ℕ → Option ℕ} {outside : ℕ → ℕ} {frame : Frame}
  {rest : List Frame} {others : ℕ → ℕ}

theorem releaseRefs_spec (sound : Sound counted.toLayout state.heap outside)
    (pointers : List ℕ) (after : ℕ → ℕ)
    (dropped : ∀ id, after id + pointers.count id = outside id) :
    Sound counted.toLayout (state.releaseRefs pointers).heap after ∧
      (state.releaseRefs pointers).touchedFreed = state.touchedFreed ∧
      Shrinks counted state.heap (state.releaseRefs pointers).heap := by
  obtain ⟨heap, released, laterSound, shrinks⟩ := release_sound sound dropped
  unfold Registers.releaseRefs
  rw [released]
  exact ⟨laterSound, rfl, shrinks⟩

theorem touch_of_isSome {id : ℕ} (live : (state.heap.cells id).isSome = true) :
    state.touch id = state :=
  if_pos live

theorem mpBaseOf_shrinks {heap later : Heap VmAlloc} {id : ℕ} (shrinks : Shrinks counted heap later)
    (live : (later.cells id).isSome = true) : mpBaseOf later id = mpBaseOf heap id := by
  obtain ⟨alloc, found⟩ := Option.isSome_iff_exists.mp live
  obtain ⟨earlier, start, same⟩ := shrinks.2 id alloc found
  unfold mpBaseOf
  rw [found, start, same]
  rfl

/-- Counts are exact, with the module data of the saved module references. -/
structure Stacked (mp : ℕ → Option ℕ) (others : ℕ → ℕ) (state : Registers) : Prop where
  sound : Sound counted.toLayout state.heap fun id =>
    (references mp state).count id + others id
  moduleData : ∀ frame ∈ state.frames, ∀ prev, frame.prevModuleRef = some prev →
    mpBaseOf state.heap prev = mp prev

theorem Stacked.isSome (stacked : Stacked mp others state) {id : ℕ}
    (held : id ∈ references mp state) : (state.heap.cells id).isSome = true := by
  apply Option.isSome_iff_exists.mpr
  apply stacked.sound.live_of_outside
  exact Nat.add_pos_left (List.count_pos_iff.mpr held) _

/-- Module data does not change while its module is there. -/
theorem Stacked.shrinks {later : Registers} (stacked : Stacked mp others state)
    (shrinks : Shrinks counted state.heap later.heap)
    (frames : ∀ frame ∈ later.frames, frame ∈ state.frames)
    (sound : Sound counted.toLayout later.heap fun id =>
      (references mp later).count id + others id) : Stacked mp others later := by
  refine ⟨sound, fun frame member prev saved => ?_⟩
  have held : prev ∈ references mp later := by
    unfold references
    apply List.mem_cons_of_mem
    apply List.mem_append_right
    apply List.mem_flatMap.mpr
    refine ⟨frame, member, List.mem_append_right _ ?_⟩
    unfold Frame.savedRefs
    rw [saved]
    exact List.mem_cons_self
  have live : (later.heap.cells prev).isSome = true := by
    apply Option.isSome_iff_exists.mpr
    apply sound.live_of_outside
    exact Nat.add_pos_left (List.count_pos_iff.mpr held) _
  rw [mpBaseOf_shrinks shrinks live]
  exact stacked.moduleData frame (frames frame member) prev saved

theorem count_references (isTop : state.frames = frame :: rest) (id : ℕ) :
    (references mp state).count id = single state.moduleRef id +
      state.mpBase.toList.count id + frame.pointers.count id + (frame.savedRefs mp).count id +
        (rest.flatMap fun frame => frame.pointers ++ frame.savedRefs mp).count id := by
  unfold references
  rw [isTop, List.flatMap_cons]
  simp only [count_cons_single, List.count_append]
  omega

/-- What is left of the stack when its top frame has been popped. -/
structure Popped (mp : ℕ → Option ℕ) (others : ℕ → ℕ) (state : Registers) (frame : Frame)
    (rest : List Frame) (later : Registers) : Prop where
  stacked : Stacked mp others later
  frames : later.frames = rest
  moduleRef : later.moduleRef = frame.prevModuleRef.getD state.moduleRef
  mpBase : later.mpBase = frame.mpBaseAfter mp state.mpBase
  heap : later.heap =
    (release counted state.heap (frame.leaves state.moduleRef state.mpBase)).1
  touchedFreed : later.touchedFreed = state.touchedFreed

theorem popFrame_popped (stacked : Stacked mp others state) (isTop : state.frames = frame :: rest)
    (notSaved : frame.prevModuleRef = none) :
    Popped mp others state frame rest state.leaveModule.popFrame := by
  have isPopped : state.leaveModule.popFrame =
      { state.releaseRefs frame.pointers with frames := rest } := by
    have stays : state.leaveModule = state := by
      unfold Registers.leaveModule
      simp only [isTop, notSaved]
    rw [stays]
    unfold Registers.popFrame
    simp only [isTop, notSaved, Option.toList_none, List.nil_append]
  have noSaved : frame.savedRefs mp = [] := by
    unfold Frame.savedRefs
    rw [notSaved]
  have leaves : frame.leaves state.moduleRef state.mpBase = frame.pointers := by
    unfold Frame.leaves
    rw [notSaved]
  obtain ⟨sound, untouched, shrinks⟩ := releaseRefs_spec stacked.sound frame.pointers
    (fun id => single state.moduleRef id + state.mpBase.toList.count id +
      (rest.flatMap fun frame => frame.pointers ++ frame.savedRefs mp).count id + others id)
    fun id => by
      rw [count_references isTop, noSaved, List.count_nil]
      omega
  rw [isPopped]
  constructor
  · refine stacked.shrinks shrinks (fun other member => ?_) (sound.congr fun id => ?_)
    · rw [isTop]
      exact List.mem_cons_of_mem _ member
    · unfold references
      simp only [count_cons_single, List.count_append, Registers.releaseRefs]
      omega
  · rfl
  · rw [notSaved]
    rfl
  · unfold Frame.mpBaseAfter
    rw [notSaved]
    rfl
  · rw [leaves]
    rfl
  · exact untouched

theorem setPointer_pointers : (frame.setPointer 2 none).pointers = frame.pointers := by
  refine List.filterMap_congr fun offset member => ?_
  have inData := (frame.data offset member).1
  unfold frameBaseWords at inData
  unfold Frame.setPointer
  dsimp only
  rw [List.getElem?_set_ne (by omega)]

theorem setPointer_prevModuleRef : (frame.setPointer 2 none).prevModuleRef = none := by
  have inside := frame.base
  unfold frameBaseWords at inside
  unfold Frame.prevModuleRef Frame.setPointer
  dsimp only
  rw [List.getElem?_set_self (by omega)]
  rfl

theorem popFrame_cons (isTop : state.frames = frame :: rest) :
    state.popFrame =
      { state.releaseRefs (frame.prevModuleRef.toList ++ frame.pointers) with frames := rest } := by
  unfold Registers.popFrame
  rw [isTop]

/-- The registers when the top frame was in a module of its own. -/
theorem leaveModule_popFrame_eq {prev : ℕ} {dropped : Registers}
    (isTop : state.frames = frame :: rest) (saved : frame.prevModuleRef = some prev)
    (isDropped : (state.releaseRefs [state.moduleRef]).releaseRefs state.mpBase.toList = dropped)
    (live : (dropped.heap.cells prev).isSome = true) :
    state.leaveModule.popFrame =
      { dropped.releaseRefs frame.pointers with
        moduleRef := prev
        mpBase := mpBaseOf dropped.heap prev
        frames := rest } := by
  have left : state.leaveModule =
      { dropped with
        moduleRef := prev
        mpBase := mpBaseOf dropped.heap prev
        frames := frame.setPointer 2 none :: rest } := by
    have sameData : (state.releaseRefs [state.moduleRef]).mpBase = state.mpBase := rfl
    unfold Registers.leaveModule
    simp only [isTop, saved]
    rw [sameData, isDropped, touch_of_isSome live]
  rw [left, popFrame_cons rfl, setPointer_prevModuleRef, setPointer_pointers,
    Option.toList_none, List.nil_append]
  rfl

theorem leaveModule_popFrame_popped {prev : ℕ} (stacked : Stacked mp others state)
    (isTop : state.frames = frame :: rest) (saved : frame.prevModuleRef = some prev) :
    Popped mp others state frame rest state.leaveModule.popFrame := by
  have isSaved : frame.savedRefs mp = prev :: (mp prev).toList := by
    unfold Frame.savedRefs
    rw [saved]
  have leaves : frame.leaves state.moduleRef state.mpBase =
      [state.moduleRef] ++ state.mpBase.toList ++ frame.pointers := by
    unfold Frame.leaves
    rw [saved, List.append_assoc]
    rfl
  obtain ⟨soundModule, untouchedModule, shrinksModule⟩ := releaseRefs_spec stacked.sound
    [state.moduleRef] (fun id => state.mpBase.toList.count id + frame.pointers.count id +
      (frame.savedRefs mp).count id +
      (rest.flatMap fun frame => frame.pointers ++ frame.savedRefs mp).count id + others id)
    fun id => by
      rw [count_references isTop, count_cons_single, List.count_nil]
      omega
  obtain ⟨soundData, untouchedData, shrinksData⟩ := releaseRefs_spec soundModule
    state.mpBase.toList (fun id => frame.pointers.count id + (frame.savedRefs mp).count id +
      (rest.flatMap fun frame => frame.pointers ++ frame.savedRefs mp).count id + others id)
    fun id => by omega
  have isHeap : ((state.releaseRefs [state.moduleRef]).releaseRefs state.mpBase.toList).heap =
      (release counted state.heap ([state.moduleRef] ++ state.mpBase.toList)).1 :=
    (congrArg Prod.fst (release_append _ _)).symm
  obtain ⟨dropped, isDropped⟩ :
    ∃ dropped, (state.releaseRefs [state.moduleRef]).releaseRefs state.mpBase.toList = dropped :=
      ⟨_, rfl⟩
  rw [isDropped] at soundData untouchedData shrinksData isHeap
  -- The saved module reference is there, with its module data.
  have live : (dropped.heap.cells prev).isSome = true := by
    apply Option.isSome_iff_exists.mpr
    apply soundData.live_of_outside
    rw [isSaved, List.count_cons_self]
    omega
  have shrinksDropped := shrinksModule.trans shrinksData
  have isData : mpBaseOf dropped.heap prev = mp prev := by
    rw [mpBaseOf_shrinks shrinksDropped live]
    refine stacked.moduleData frame ?_ prev saved
    rw [isTop]
    exact List.mem_cons_self
  obtain ⟨soundFrame, untouchedFrame, shrinksFrame⟩ := releaseRefs_spec soundData frame.pointers
    (fun id => (frame.savedRefs mp).count id +
      (rest.flatMap fun frame => frame.pointers ++ frame.savedRefs mp).count id + others id)
    fun id => by omega
  rw [leaveModule_popFrame_eq isTop saved isDropped live, isData]
  constructor
  · refine stacked.shrinks (shrinksDropped.trans shrinksFrame) (fun other member => ?_)
      (soundFrame.congr fun id => ?_)
    · rw [isTop]
      exact List.mem_cons_of_mem _ member
    · unfold references
      simp only [count_cons_single, List.count_append, isSaved]
      omega
  · rfl
  · rw [saved]
    rfl
  · unfold Frame.mpBaseAfter
    rw [saved]
  · rw [leaves, release_append, ← isHeap]
    rfl
  · exact untouchedFrame.trans (untouchedData.trans untouchedModule)

theorem leaveModule_popFrame (stacked : Stacked mp others state)
    (isTop : state.frames = frame :: rest) :
    Popped mp others state frame rest state.leaveModule.popFrame := by
  cases saved : frame.prevModuleRef with
  | none => exact popFrame_popped stacked isTop saved
  | some prev => exact leaveModule_popFrame_popped stacked isTop saved

/-- What is left of the stack when frames have been popped. -/
structure Unwound (mp : ℕ → Option ℕ) (others : ℕ → ℕ) (state : Registers)
    (popped rest : List Frame) (later : Registers) : Prop where
  stacked : Stacked mp others later
  frames : later.frames = rest
  heap : later.heap =
    (release counted state.heap (unwindRefs mp state.moduleRef state.mpBase popped)).1
  touchedFreed : later.touchedFreed = state.touchedFreed

/-- Each frame that is popped gives up its references once. -/
theorem unwind_unwound {popped : List Frame} (stacked : Stacked mp others state)
    (isStack : state.frames = popped ++ rest) :
    Unwound mp others state popped rest (state.unwind popped.length) := by
  induction popped generalizing state with
  | nil =>
      refine ⟨stacked, isStack, ?_, rfl⟩
      unfold unwindRefs
      rw [release_nil]
      rfl
  | cons frame popped ih =>
      have top := leaveModule_popFrame stacked isStack
      have later := ih top.stacked top.frames
      refine ⟨later.stacked, later.frames, ?_, later.touchedFreed.trans top.touchedFreed⟩
      have isUnwound : state.unwind (frame :: popped).length =
          (state.leaveModule.popFrame).unwind popped.length := rfl
      rw [isUnwound, later.heap, top.moduleRef, top.mpBase, top.heap, unwindRefs, release_append]

end Releases

section Raise

variable {state : Registers} {others : ℕ → ℕ} {frame : Frame} {rest : List Frame}
  {handler : HandlerEntry} {e depth : ℕ} {handlerPc : BitVec 32}

/-- The offsets of the pointers that the landing releases. -/
def HandlerEntry.releasedOffsets (handler : HandlerEntry) : List ℕ :=
  handler.named ++
    if handler.exceptionOffset < handler.sizeInWords then [] else [handler.exceptionOffset]

theorem landingRefs_eq : frame.landingRefs handler =
    handler.releasedOffsets.filterMap fun offset => frame.words[offset]?.bind Word.target := by
  unfold Frame.landingRefs Frame.namedRefs Frame.replacedRefs HandlerEntry.releasedOffsets
  rw [List.filterMap_append]
  split_ifs
  · rfl
  · cases found : frame.words[handler.exceptionOffset]?.bind Word.target <;>
      simp only [List.filterMap_cons, found, List.filterMap_nil] <;> rfl

/-- The named pointers and what the exception replaces are pointers of the frame, each counted
once. -/
theorem count_landingRefs (suits : handler.Suits frame) (id : ℕ) :
    (frame.landingRefs handler).count id ≤ frame.pointers.count id := by
  have isNodup : handler.releasedOffsets.Nodup := by
    unfold HandlerEntry.releasedOffsets
    apply List.Nodup.append
    · unfold HandlerEntry.named
      cases handler.typeDesc with
      | none => exact List.nodup_nil
      | some type => exact TypeDescriptor.pointerOffsets_nodup
    · split_ifs
      · exact List.nodup_nil
      · exact List.nodup_singleton _
    · intro offset member released
      have inside := HandlerEntry.named_inside member
      split_ifs at released with isInside
      · cases released
      · obtain rfl := List.mem_singleton.mp released
        exact isInside inside
  have isPart : handler.releasedOffsets ⊆ frame.frameType.pointerOffsets := by
    intro offset member
    rcases List.mem_append.mp member with isNamed | released
    · exact suits.named offset isNamed
    · split_ifs at released
      · cases released
      · obtain rfl := List.mem_singleton.mp released
        exact suits.exception
  obtain ⟨offsets, isPermuted, isSublist⟩ := List.subperm_of_subset isNodup isPart
  rw [landingRefs_eq, ← (isPermuted.filterMap _).count_eq]
  exact (isSublist.filterMap _).count_le id

/-- The slot of the exception after the frame has been initialised again. -/
theorem slot_initMemory (suits : handler.Suits frame) {type : TypeDescriptor}
    (isType : handler.typeDesc = some type) :
    ((frame.initMemory type).words[handler.exceptionOffset]?.bind Word.target).toList =
      frame.replacedRefs handler := by
  obtain ⟨-, target, found⟩ := frame.data handler.exceptionOffset suits.exception
  have isSize : handler.sizeInWords = type.wordCount := by
    unfold HandlerEntry.sizeInWords
    rw [isType]
    rfl
  unfold Frame.initMemory Frame.replacedRefs
  simp only [List.getElem?_mapIdx, found, Option.map_some, isSize]
  split_ifs <;> rfl

theorem releaseRefs_nil : state.releaseRefs [] = state := by
  unfold Registers.releaseRefs
  rw [release_nil]
  rfl

/-- The landing releases what it replaces in the frame, and nothing else. -/
theorem landing_eq (suits : handler.Suits frame) (isTop : state.frames = frame :: rest) :
    (state.resetFrame handler).storeException handler e =
      { (state.releaseRefs (frame.namedRefs handler)).releaseRefs (frame.replacedRefs handler) with
        frames := frame.landing handler e :: rest } := by
  cases isType : handler.typeDesc with
  | none =>
      have noneNamed : frame.namedRefs handler = [] := by
        unfold Frame.namedRefs HandlerEntry.named
        rw [isType]
        rfl
      have replaced : frame.replacedRefs handler =
          (frame.words[handler.exceptionOffset]?.bind Word.target).toList := by
        unfold Frame.replacedRefs HandlerEntry.sizeInWords
        rw [isType]
        exact if_neg (Nat.not_lt_zero _)
      have isLanding : frame.landing handler e =
          frame.setPointer handler.exceptionOffset (some e) := by
        unfold Frame.landing
        rw [isType]
        rfl
      rw [noneNamed, releaseRefs_nil, replaced, isLanding]
      unfold Registers.resetFrame Registers.storeException
      simp only [isType, isTop]
  | some type =>
      have isNamed : frame.namedRefs handler = frame.pointersOf type := by
        unfold Frame.namedRefs HandlerEntry.named
        rw [isType]
        rfl
      have isLanding : frame.landing handler e =
          (frame.initMemory type).setPointer handler.exceptionOffset (some e) := by
        unfold Frame.landing
        rw [isType]
        rfl
      rw [isNamed, isLanding, ← slot_initMemory suits isType]
      unfold Registers.resetFrame Registers.storeException
      simp only [isType, isTop]
      rfl

theorem mpBaseOf_addRef {heap : Heap VmAlloc} (id : ℕ) :
    mpBaseOf (RefCounting.addRef counted heap e) id = mpBaseOf heap id := by
  by_cases live : ((RefCounting.addRef counted heap e).cells id).isSome = true
  · exact mpBaseOf_shrinks (shrinks_addRef e) live
  · have dead : (heap.cells id).isSome ≠ true := by
      rwa [RefCounting.addRef, Heap.modify_isSome] at live
    unfold mpBaseOf
    rw [Option.not_isSome_iff_eq_none.mp live, Option.not_isSome_iff_eq_none.mp dead]

/-- What the exception is raised with is kept while frames are popped. -/
theorem addRef_stacked (sound : Sound counted.toLayout state.heap fun id =>
      (references (mpBaseOf state.heap) state).count id + others id)
    (live : (state.heap.cells e).isSome = true) :
    Stacked (mpBaseOf state.heap) (fun id => others id + single e id) (state.addRef e) := by
  obtain ⟨alloc, isAlloc⟩ := Option.isSome_iff_exists.mp live
  have isAdded : state.addRef e =
      { state with heap := RefCounting.addRef counted state.heap e } := by
    unfold Registers.addRef
    rw [touch_of_isSome live]
  rw [isAdded]
  refine ⟨addRef_sound sound isAlloc fun id => ?_, fun frame _ prev _ => mpBaseOf_addRef prev⟩
  exact (Nat.add_assoc _ _ _).symm

/-- What a frame and the frames above it give up is released once, and nothing else. -/
theorem raise_spec {popped : List Frame} (handlerPc : BitVec 32)
    (sound : Sound counted.toLayout state.heap fun id =>
      (references (mpBaseOf state.heap) state).count id + others id)
    (live : (state.heap.cells e).isSome = true) (isStack : state.frames = popped ++ frame :: rest)
    (suits : handler.Suits frame) :
    (state.raise e popped.length handler handlerPc).frames = frame.landing handler e :: rest ∧
      (state.raise e popped.length handler handlerPc).heap =
        (release counted (RefCounting.addRef counted state.heap e)
          (unwindRefs (mpBaseOf state.heap) state.moduleRef state.mpBase popped ++
            frame.landingRefs handler)).1 ∧
      (state.raise e popped.length handler handlerPc).touchedFreed = state.touchedFreed := by
  have isAdded : state.addRef e =
      { state with heap := RefCounting.addRef counted state.heap e } := by
    unfold Registers.addRef
    rw [touch_of_isSome live]
  have added := addRef_stacked sound live
  rw [isAdded] at added
  have unwound := unwind_unwound added isStack
  unfold Registers.raise
  rw [isAdded]
  generalize { state with heap := RefCounting.addRef counted state.heap e }.unwind popped.length =
    later at unwound ⊢
  obtain ⟨soundNamed, untouchedNamed, -⟩ := releaseRefs_spec unwound.stacked.sound
    (frame.namedRefs handler) (fun id => (references (mpBaseOf state.heap) later).count id -
      (frame.namedRefs handler).count id + (others id + single e id)) fun id => by
      have enough := count_landingRefs suits id
      rw [count_references unwound.frames]
      rw [Frame.landingRefs, List.count_append] at enough
      omega
  obtain ⟨-, untouched, -⟩ := releaseRefs_spec soundNamed
    (frame.replacedRefs handler) (fun id => (references (mpBaseOf state.heap) later).count id -
      (frame.landingRefs handler).count id + (others id + single e id)) fun id => by
      have enough := count_landingRefs suits id
      rw [count_references unwound.frames]
      rw [Frame.landingRefs, List.count_append] at enough ⊢
      omega
  rw [landing_eq suits unwound.frames]
  refine ⟨rfl, ?_, ?_⟩
  · rw [release_append, ← unwound.heap, Frame.landingRefs, release_append]
    rfl
  · exact untouched.trans (untouchedNamed.trans unwound.touchedFreed)

/-- The landing is as it should be if and only if the words that the descriptor covers without
naming them, the links of the frame among them, are zero before it. -/
theorem raise_landed_iff
    (sound : Sound counted.toLayout state.heap fun id =>
      (references (mpBaseOf state.heap) state).count id + others id)
    (live : (state.heap.cells e).isSome = true) (isFrame : state.frames[depth]? = some frame)
    (suits : handler.Suits frame) :
    Landed state e depth handler handlerPc frame (state.raise e depth handler handlerPc) ↔
      OthersZero handler frame := by
  obtain ⟨inside, isElement⟩ := List.getElem?_eq_some_iff.mp isFrame
  have isStack : state.frames = state.frames.take depth ++
      frame :: state.frames.drop (depth + 1) := by
    rw [← isElement, ← List.drop_eq_getElem_cons inside, List.take_append_drop]
  have isDepth : (state.frames.take depth).length = depth := by
    rw [List.length_take]
    omega
  have spec := raise_spec handlerPc sound live isStack suits
  rw [isDepth] at spec
  obtain ⟨frames, heap, touchedFreed⟩ := spec
  rw [← landsIn_iff (e := e) suits]
  constructor
  · intro landed
    obtain ⟨landing, isLanding, lands⟩ := landed.frames
    obtain ⟨rfl, -⟩ := List.cons.inj (frames.symm.trans isLanding)
    exact lands
  · intro lands
    exact ⟨rfl, ⟨_, frames, lands⟩, heap, touchedFreed⟩

end Raise

section Called

/-- Two pointers after the links, and two more words. -/
def calledType : TypeDescriptor where
  sizeInBytes := 32
  pointerMap := [0x0c]
  finalizer := none
  fits := by decide

def calledFrame : Frame where
  frameType := calledType
  words := [.data 7, .data 0, .pointer none, .data 0, .pointer none, .pointer none, .data 0,
    .data 0]
  base := by decide
  data := by
    have isOffsets : calledType.pointerOffsets = [4, 5] := by decide
    intro offset member
    change offset ∈ calledType.pointerOffsets at member
    rw [isOffsets] at member
    rcases List.mem_pair.mp member with rfl | rfl
    · exact ⟨by decide, none, rfl⟩
    · exact ⟨by decide, none, rfl⟩

/-- An exception that a register of the thread holds, and the current module reference. -/
def calledHeap : Heap VmAlloc :=
  (Heap.empty.allocate ⟨1, [], .record⟩).allocate ⟨1, [], .moduleRef none⟩

def calledRegisters (frames : List Frame) : Registers where
  heap := calledHeap
  moduleRef := 1
  mpBase := none
  nextPc := 0
  frames := frames
  touchedFreed := []

/-- The handler covers the whole frame and names both of its pointers. -/
def calledHandler : HandlerEntry where
  exceptionOffset := 4
  typeDesc := some calledType

/-- The frame forgets where it was called from. -/
theorem raise_not_landed :
    ¬ Landed (calledRegisters [calledFrame]) 0 0 calledHandler 9 calledFrame
      ((calledRegisters [calledFrame]).raise 0 0 calledHandler 9) := by
  intro landed
  obtain ⟨landing, isLanding, lands⟩ := landed.frames
  obtain ⟨rfl, -⟩ := List.cons.inj isLanding
  exact absurd lands.prevPc (by decide)

/-- The frame was called into another module and holds an object. -/
def calleeFrame : Frame where
  frameType := calledType
  words := [.data 7, .data 1, .pointer (some 4), .data 0, .pointer (some 2), .pointer none,
    .data 5, .data 0]
  base := by decide
  data := by
    have isOffsets : calledType.pointerOffsets = [4, 5] := by decide
    intro offset member
    rw [isOffsets] at member
    rcases List.mem_pair.mp member with rfl | rfl
    · exact ⟨by decide, some 2, rfl⟩
    · exact ⟨by decide, none, rfl⟩

/-- The first frame of a thread, which holds another object. -/
def firstFrame : Frame where
  frameType := calledType
  words := [.data 0, .data 0, .pointer none, .data 0, .pointer none, .pointer (some 3), .data 0,
    .data 0]
  base := by decide
  data := by
    have isOffsets : calledType.pointerOffsets = [4, 5] := by decide
    intro offset member
    rw [isOffsets] at member
    rcases List.mem_pair.mp member with rfl | rfl
    · exact ⟨by decide, none, rfl⟩
    · exact ⟨by decide, some 3, rfl⟩

/-- The objects of the frames and the module reference that the upper one has saved. -/
def firstRegisters : Registers where
  heap := ((calledHeap.allocate ⟨1, [], .record⟩).allocate ⟨1, [], .record⟩).allocate
    ⟨1, [], .moduleRef none⟩
  moduleRef := 1
  mpBase := none
  nextPc := 0
  frames := [calleeFrame, firstFrame]
  touchedFreed := []

theorem first_sound : Sound counted.toLayout firstRegisters.heap fun id =>
    (references (mpBaseOf firstRegisters.heap) firstRegisters).count id + single 0 id := by
  have isReferences : references (mpBaseOf firstRegisters.heap) firstRegisters = [1, 2, 4, 3] := by
    decide
  have called : Sound counted.toLayout calledHeap fun id => [1, 0].count id :=
    (Sound.allocateFirst rfl rfl).allocateNext rfl rfl
  have sound : Sound counted.toLayout firstRegisters.heap fun id => [4, 3, 2, 1, 0].count id :=
    ((called.allocateNext rfl rfl).allocateNext rfl rfl).allocateNext rfl rfl
  have same : [0, 1, 2, 4, 3].Perm [4, 3, 2, 1, 0] := by
    decide
  apply sound.congr
  intro id
  rw [isReferences, ← count_cons_single]
  exact same.count_eq id

/-- The handler is found in the caller, which is another module, and names both pointers of a
frame without links. -/
theorem raise_landed_caller :
    Landed firstRegisters 0 1 calledHandler 9 firstFrame
      (firstRegisters.raise 0 1 calledHandler 9) := by
  have suits : calledHandler.Suits firstFrame :=
    ⟨by decide, fun offset member => member⟩
  apply (raise_landed_iff first_sound (by decide) rfl suits).mpr
  have others : ∀ offset < 8, offset ∉ calledHandler.named →
      ∀ word ∈ firstFrame.words[offset]?, zero word = word := by
    decide
  intro offset inside notNamed _ word isWord
  exact others offset inside notNamed word isWord

end Called

end Disvm.ExceptionLanding
