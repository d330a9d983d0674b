import Disvm.ProgramData

/-!
# Resumed frames

When execution goes on in a frame that has been suspended, the registers and the
references are those of its record.  This holds of every run in which calls find
the frame that they push and module data to refer to, frames are left with no
other frame allocated, and exceptions are caught by handlers that do not
initialize the frame again.
-/

namespace Disvm.ModuleCalls

open RefCounting ThreadState

namespace ThreadState

/-- A thread that has just been started. -/
def Initial (state : ThreadState) : Prop :=
  ∃ heap others entry ref frameType arguments startPc,
    Sound counted.toLayout heap (fun id => others.count id) ∧
    moduleRefAt heap entry = some ref ∧
    (∀ offset ∈ frameType.pointers, ∀ id ∈ arguments offset, ∃ cell, heap.cells id = some cell) ∧
    state = start heap others entry frameType arguments startPc

/-- The handler for what an instruction raises. -/
def caught (state : ThreadState) : Action → Option (HandlerEntry × ℕ × ℤ)
  | .raise source => (state.readPlace source).join.bind fun exception =>
      (exceptionId state.heap exception).bind state.handlerFor
  | .nativeThrow runes => (state.newString runes).handlerFor runes
  | _ => none

/-- A handler that changes one pointer of its frame and nothing else. -/
def Fits (state : ThreadState) (handler : HandlerEntry) (target : ℕ) : Prop :=
  (∀ type ∈ handler.typeDesc, type.size = 0) ∧
    ∀ frame ∈ state.frames, frame.address = target →
      frameBaseWords ≤ handler.exceptionOffset ∧
        handler.exceptionOffset ∈ frame.frameType.pointers

def Permitted (state : ThreadState) (action : Action) : Prop :=
  match action with
  | .frame _ | .mframe _ _ | .ret | .nativeReturn => state.allocated = none
  | .call _ => state.allocated.isSome = true
  | .mcall source _ => state.allocated.isSome = true ∧
      ∀ id ref, state.targetModule source = some (some (id, ref)) →
        ref.module.builtin = false → ref.mpBase.isSome = true
  | .raise _ | .nativeThrow _ => ∀ found ∈ state.caught action,
      state.allocated = none ∧ state.Fits found.1 found.2.1
  | _ => True

/-- Execution goes on in the frame of a record. -/
structure Restored (record : Suspension) (pc : ℤ) (after : ThreadState) : Prop where
  moduleRef : after.moduleRef = record.moduleRef
  mpBase : after.mpBase = record.mpBase
  topFrame : after.frames.head?.map Frame.address = some record.frame
  pc : after.pc = pc
  held : ∀ id, after.held id = record.held id

/-- A return goes back to the last record, a caught exception to the record of its
target frame, which may be the top frame itself. -/
def Resumes (before : ThreadState) (action : Action) (after : ThreadState) : Prop :=
  after.failed = false ∧ after.touchedFreed = [] ∧
    match action with
    | .ret | .nativeReturn => ∀ record ∈ before.suspended.head?,
        Restored record record.nextPc after
    | .raise _ | .nativeThrow _ => ∀ found ∈ before.caught action,
        ∃ record ∈ before.suspend false, record.frame = found.2.1 ∧ Restored record found.2.2 after
    | _ => True

def Reached : ThreadState → Prop :=
  Transition.Reachable Initial (Transition.StepsBy Permitted step)

end ThreadState

/-- The state between two instructions. -/
structure Safe (state : ThreadState) : Prop where
  safeWith : SafeWith [] state
  active : state.control ≠ .ended → state.frames ≠ []

section Steps

variable {extra : List ℕ} {state : ThreadState}

theorem held_eq (safe : SafeWith [] state) (id : ℕ) :
    state.held id =
      (registerRefs state.moduleRef state.mpBase state.suspended).count id := by
  have counts := safe.sound id
  unfold held programRefs
  rw [counts]
  simp only [references, List.append_nil, List.count_append]
  push_cast
  omega

theorem SafeWith.setControl (safe : SafeWith extra state) (pc : ℤ) (control : Control) :
    SafeWith extra { state with pc := pc, control := control } where
  sound := safe.sound
  chained := safe.chained
  modules := safe.modules
  allocatedAddress := safe.allocatedAddress
  untouched := safe.untouched
  kept := safe.kept

theorem safe_stop (safe : Safe state) : Safe state.stop where
  safeWith := safe.safeWith.setControl state.pc .ended
  active notEnded := absurd rfl notEnded

/-- A module reference and its data are in the heap. -/
theorem live_of_moduleRef {heap : VmHeap} {others : ℕ → ℕ}
    (sound : Sound counted.toLayout heap others) {id : ℕ} {ref : ModuleRef}
    (isModule : moduleRefAt heap id = some ref) :
    (∃ cell, heap.cells id = some cell) ∧
      ∀ base ∈ ref.mpBase, ∃ cell, heap.cells base = some cell := by
  unfold moduleRefAt at isModule
  split at isModule
  · rename_i found isContent
    cases isModule
    obtain ⟨alloc, live, isAlloc⟩ := live_of_contentAt isContent
    refine ⟨⟨alloc, live⟩, fun base isBase => sound.live_of_refs live ?_⟩
    simp only [counted, isAlloc, Content.refs]
    exact Option.mem_toList.mpr isBase
  · cases isModule

theorem safe_allocFrame (safe : Safe state) (nothing : state.allocated = none)
    (type : TypeDescriptor) : Safe (state.allocFrame type).next where
  safeWith := {
    sound := safe.safeWith.sound.congr fun id => by
      have empty : (Frame.create state.frames.length type).pointers = [] :=
        List.filterMap_none _
      simp only [references, frameRefs, next, allocFrame, nothing, Option.map_none,
        Option.getD_none, Option.toList_some, Option.toList_none, List.nil_append,
        List.cons_append, List.flatMap_cons, empty]
    chained := safe.safeWith.chained
    modules := safe.safeWith.modules
    allocatedAddress := fun frame member => by
      simp only [next, allocFrame, nothing, Option.map_none, Option.getD_none,
        Option.mem_def, Option.some.injEq] at member
      rw [← member]
      rfl
    untouched := safe.safeWith.untouched
    kept := safe.safeWith.kept }
  active := safe.active

/-- The allocated frame becomes the top one, under a record of the registers. -/
theorem safe_entered {moves : List ℕ} (record : Suspension) (moduleRef : ℕ) (mpBase : Option ℕ)
    (safe : SafeWith moves state) {frame caller : Frame} {rest : List Frame}
    (isAllocated : state.allocated = some frame) (isTop : state.frames = caller :: rest)
    (isFrame : record.frame = caller.address)
    (isRef : record.moduleRef = state.moduleRef) (isBase : record.mpBase = state.mpBase)
    (isHeld : ∀ id, record.held id =
      (registerRefs state.moduleRef state.mpBase state.suspended).count id)
    (isMoves : moves = if record.crossed then moduleRef :: mpBase.toList else [])
    (same : record.crossed = false → moduleRef = state.moduleRef ∧ mpBase = state.mpBase)
    (isModule : (moduleRefAt state.heap moduleRef).map ModuleRef.mpBase = some mpBase) :
    SafeWith [] { state with
      frames := { frame with
        prevPc := record.nextPc
        prevFrame := some caller.address
        prevModuleRef := if record.crossed then some state.moduleRef else none } :: state.frames
      allocated := none
      moduleRef := moduleRef
      mpBase := mpBase
      suspended := record :: state.suspended } where
  sound := safe.sound.congr fun id => by
    show (frame.pointers ++ state.frames.flatMap Frame.pointers ++ state.others ++
      state.abandoned ++ registerRefs moduleRef mpBase (record :: state.suspended) ++
        []).count id = (state.references ++ moves).count id
    rw [isMoves]
    simp only [references, frameRefs, registerRefs, isAllocated, Option.toList_some,
      List.cons_append, List.nil_append, List.flatMap_cons, Suspension.saved, isRef, isBase]
    cases isCrossed : record.crossed with
    | false =>
        obtain ⟨rfl, rfl⟩ := same isCrossed
        simp only [List.count_append, count_cons_single, Bool.false_eq_true, if_false,
          List.count_nil]
        omega
    | true =>
        simp only [List.count_append, count_cons_single, if_true, List.count_nil]
        omega
  chained := by
    have below := safe.chained
    rw [isTop, ← isRef, ← isBase] at below
    show Chained moduleRef mpBase (_ :: state.frames) (record :: state.suspended)
    rw [isTop]
    refine Chained.called ?_ ?_ (fun notCrossed => ?_) below
    · rw [safe.allocatedAddress frame isAllocated, isTop, List.length_cons]
    · exact {
        frame := isFrame
        nextPc := rfl
        prevFrame := rfl
        prevModuleRef := by rw [isRef]
        held := fun id => by rw [isHeld, isRef, isBase] }
    · obtain ⟨isSame, isSameBase⟩ := same notCrossed
      rw [isSame, isSameBase]
      exact ⟨isRef, isBase⟩
  modules pair member := by
    rcases List.mem_cons.mp member with rfl | inRecords
    · exact isModule
    · rw [List.map_cons, isRef, isBase] at inRecords
      exact safe.modules pair inRecords
  allocatedAddress _ member := absurd member (Option.not_mem_none _)
  untouched := safe.untouched
  kept := safe.kept

theorem safe_call (safe : Safe state) (notEnded : state.control ≠ .ended)
    (isAllocated : state.allocated.isSome = true) (target : ℤ) : Safe (state.call target) := by
  obtain ⟨frame, found⟩ := Option.isSome_iff_exists.mp isAllocated
  obtain ⟨caller, rest, isTop⟩ := List.exists_cons_of_ne_nil (safe.active notEnded)
  have own := safe.safeWith.modules _ List.mem_cons_self
  have entered := safe_entered (state.record caller false) state.moduleRef state.mpBase
    safe.safeWith found isTop rfl rfl rfl (held_eq safe.safeWith) rfl (fun _ => ⟨rfl, rfl⟩) own
  have isCall : state.call target = { state with
      frames := { frame with
        prevPc := state.pc + 1
        prevFrame := some caller.address
        prevModuleRef := none } :: state.frames
      allocated := none
      pc := target
      suspended := state.record caller false :: state.suspended } := by
    unfold call pushFrame suspend
    rw [found]
    simp only [isTop, List.head?_cons, Option.map_some]
  rw [isCall]
  exact {
    safeWith := entered.setControl target state.control
    active := fun _ => List.cons_ne_nil _ _ }

theorem enterModule_eq {frame caller : Frame} {rest : List Frame}
    (found : state.allocated = some frame) (isTop : state.frames = caller :: rest) {id : ℕ}
    (isLive : ∃ cell, state.heap.cells id = some cell) (ref : ModuleRef) :
    state.enterModule id ref = { state with
      heap := RefCounting.addRef counted state.heap id
      frames := { frame with
        prevPc := state.pc + 1
        prevFrame := some caller.address
        prevModuleRef := some state.moduleRef } :: state.frames
      allocated := none
      moduleRef := id
      mpBase := ref.mpBase
      suspended := state.record caller true :: state.suspended } := by
  unfold enterModule pushFrame suspend
  rw [found]
  dsimp only
  rw [addRef_eq { state with frames := _, allocated := none } isLive]
  simp only [isTop, List.head?_cons, Option.map_some]

theorem safe_mcall (safe : Safe state) (notEnded : state.control ≠ .ended)
    (isAllocated : state.allocated.isSome = true) {id : ℕ} {ref : ModuleRef}
    (isModule : moduleRefAt state.heap id = some ref)
    (hasData : ref.module.builtin = false → ref.mpBase.isSome = true) (entryPc : ℤ) :
    Safe (state.mcall id ref entryPc) := by
  obtain ⟨frame, found⟩ := Option.isSome_iff_exists.mp isAllocated
  obtain ⟨caller, rest, isTop⟩ := List.exists_cons_of_ne_nil (safe.active notEnded)
  obtain ⟨isLive, dataLive⟩ := live_of_moduleRef safe.safeWith.sound isModule
  have isEntered := enterModule_eq found isTop isLive ref
  have entersWith : ∀ (heap : VmHeap) (moves : List ℕ), SafeWith moves { state with heap := heap } →
      moduleRefAt heap id = some ref → moves = id :: ref.mpBase.toList →
        SafeWith [] { state.enterModule id ref with heap := heap } := by
    intro heap moves isSafe isRef isMoves
    rw [isEntered]
    exact safe_entered (state.record caller true) id ref.mpBase isSafe found isTop rfl rfl rfl
      (held_eq safe.safeWith) isMoves (fun notCrossed => nomatch notCrossed) (by rw [isRef]; rfl)
  have isRef : moduleRefAt (RefCounting.addRef counted state.heap id) id = some ref := by
    rw [moduleRefAt_congr (contentAt_addRef id)]
    exact isModule
  have referenced := safe.safeWith.addRef isLive
  have stays := grows_addRef isLive
  rw [addRef_eq state isLive] at referenced stays
  have isHeap : (state.enterModule id ref).heap = RefCounting.addRef counted state.heap id := by
    rw [isEntered]
  have entered : (state.enterModule id ref).frames ≠ [] := by
    rw [isEntered]
    exact List.cons_ne_nil _ _
  unfold mcall
  dsimp only
  cases isBuiltin : ref.module.builtin with
  | true =>
      rw [if_pos rfl]
      have isSafe := entersWith _ _ referenced isRef (by rw [ref.builtinWithoutData isBuiltin]; rfl)
      rw [← isHeap] at isSafe
      exact ⟨isSafe.setControl (state.enterModule id ref).pc .native, fun _ => entered⟩
  | false =>
      rw [if_neg Bool.false_ne_true]
      obtain ⟨base, isBase⟩ := Option.isSome_iff_exists.mp (hasData isBuiltin)
      have baseLive := stays.live (dataLive base isBase)
      have both := referenced.addRef baseLive
      rw [addRef_eq _ baseLive] at both
      have isSafe := entersWith _ _ (both.perm [id, base] fun target => by
        simp only [count_cons_single, List.count_nil]
        omega) (by rw [moduleRefAt_congr (contentAt_addRef base), isRef]) (by rw [isBase]; rfl)
      rw [isBase]
      dsimp only
      have enteredLive : ∃ cell, (state.enterModule id ref).heap.cells base = some cell := by
        rw [isHeap]
        exact baseLive
      rw [← isHeap] at isSafe
      rw [addRef_eq _ enteredLive]
      exact ⟨isSafe.setControl entryPc _, fun _ => entered⟩

theorem Chained.held {moduleRef : ℕ} {mpBase : Option ℕ} {frames : List Frame}
    {suspended skipped earlier : List Suspension} {record : Suspension}
    (chained : Chained moduleRef mpBase frames suspended)
    (isRecord : suspended = skipped ++ record :: earlier) (id : ℕ) :
    record.held id = (registerRefs record.moduleRef record.mpBase earlier).count id := by
  induction chained generalizing skipped with
  | empty => simp at isRecord
  | first => simp at isRecord
  | called address records same below ih =>
      cases skipped with
      | nil =>
          cases isRecord
          exact records.held id
      | cons first skipped => exact ih (List.cons.inj isRecord).2

/-- The state that a record describes. -/
def AtRecord (record : Suspension) (earlier : List Suspension) (state : ThreadState) : Prop :=
  state.moduleRef = record.moduleRef ∧ state.mpBase = record.mpBase ∧
    state.suspended = earlier ∧ state.frames.head?.map Frame.address = some record.frame

theorem restored_of_atRecord {record : Suspension} {earlier : List Suspension}
    (atRecord : AtRecord record earlier state) (safe : SafeWith [] state)
    (isHeld : ∀ id, record.held id =
      (registerRefs record.moduleRef record.mpBase earlier).count id) :
    Restored record state.pc state where
  moduleRef := atRecord.1
  mpBase := atRecord.2.1
  topFrame := atRecord.2.2.2
  pc := rfl
  held id := by rw [held_eq safe, isHeld, atRecord.1, atRecord.2.1, atRecord.2.2.1]

theorem ret_spec (safe : Safe state) (notEnded : state.control ≠ .ended)
    (nothing : state.allocated = none) :
    Safe state.ret ∧ ∀ record ∈ state.suspended.head?, Restored record record.nextPc state.ret := by
  obtain ⟨frame, rest, isTop⟩ := List.exists_cons_of_ne_nil (safe.active notEnded)
  cases rest with
  | nil =>
      obtain ⟨isRecords, -, -⟩ := Chained.ofFirst (isTop ▸ safe.safeWith.chained)
      obtain ⟨later, popped, isSafe, -⟩ := leave_first safe.safeWith isTop nothing
      have isRet : state.ret = { state with
          heap := later, frames := [], allocated := none, pc := frame.prevPc,
          control := .ended } := by
        unfold ret
        rw [popped, isTop]
        rfl
      rw [isRet]
      refine ⟨⟨isSafe.setControl frame.prevPc .ended, fun notOver => absurd rfl notOver⟩,
        fun _ member => ?_⟩
      rw [isRecords] at member
      cases member
  | cons caller rest =>
      obtain ⟨record, earlier, isRecord, records, -, -⟩ :=
        Chained.ofCalled (isTop ▸ safe.safeWith.chained)
      obtain ⟨later, popped, isSafe, -⟩ := leave_called safe.safeWith isTop isRecord nothing
      have isRet : state.ret = { state with
          heap := later, moduleRef := record.moduleRef, mpBase := record.mpBase,
          frames := caller :: rest, allocated := none, suspended := earlier,
          pc := frame.prevPc, control := .running } := by
        unfold ret
        rw [popped, isTop]
        rfl
      have isSafe' := isSafe.setControl frame.prevPc .running
      rw [isRet, isRecord]
      refine ⟨⟨isSafe', fun _ => List.cons_ne_nil _ _⟩, fun found member => ?_⟩
      cases member
      rw [records.nextPc]
      refine restored_of_atRecord ⟨rfl, rfl, rfl, ?_⟩ isSafe' records.held
      rw [List.head?_cons, Option.map_some, records.frame]

/-- A handler is found for some frame of the stack. -/
theorem findExceptionHandler_spec {heap : VmHeap} {runes : List ℕ} {module : ℕ} {pc : ℤ}
    {frames : List Frame} {handler : HandlerEntry} {target : ℕ} {handlerPc : ℤ}
    (found : findExceptionHandler heap runes module pc frames =
      some (handler, target, handlerPc)) :
    ∃ above frame rest, frames = above ++ frame :: rest ∧ frame.address = target := by
  induction frames generalizing module pc with
  | nil => cases found
  | cons frame frames ih =>
      unfold findExceptionHandler at found
      dsimp only at found
      split at found
      · cases found
        exact ⟨[], frame, frames, rfl, rfl⟩
      · split_ifs at found
        obtain ⟨above, other, rest, rfl, isTarget⟩ := ih found
        exact ⟨frame :: above, other, rest, rfl, isTarget⟩

theorem Chained.address_below {moduleRef : ℕ} {mpBase : Option ℕ} (above : List Frame)
    {rest : List Frame} {frame : Frame} {suspended : List Suspension}
    (chained : Chained moduleRef mpBase (above ++ frame :: rest) suspended) :
    frame.address = rest.length := by
  induction above generalizing moduleRef mpBase suspended with
  | nil => exact chained.address
  | cons first above ih =>
      cases above with
      | nil =>
          obtain ⟨record, earlier, -, -, -, below⟩ := chained.ofCalled
          exact ih below
      | cons second above =>
          obtain ⟨record, earlier, -, -, -, below⟩ := chained.ofCalled
          exact ih below

/-- Unwinding ends at the record of the target frame. -/
theorem unwindTo_spec (fuel : ℕ) (safe : SafeWith extra state)
    (nothing : state.allocated = none) {above : List Frame} {frame : Frame} {rest : List Frame}
    (isTop : state.frames = above ++ frame :: rest) (notEmpty : above ≠ [])
    (enough : above.length ≤ fuel) :
    ∃ later skipped record earlier, state.suspended = skipped ++ record :: earlier ∧
      record.frame = frame.address ∧
      unwindTo frame.address fuel state = { state with
        heap := later
        moduleRef := record.moduleRef
        mpBase := record.mpBase
        frames := frame :: rest
        allocated := none
        suspended := earlier } ∧
      SafeWith extra (unwindTo frame.address fuel state) ∧
      Shrinks counted state.heap later := by
  induction above generalizing state fuel with
  | nil => exact absurd rfl notEmpty
  | cons top above ih =>
      obtain ⟨fuel, rfl⟩ : ∃ smaller, fuel = smaller + 1 :=
        Nat.exists_eq_add_one.mpr (Nat.lt_of_lt_of_le (Nat.succ_pos _) enough)
      cases above with
      | nil =>
          obtain ⟨record, earlier, isRecord, records, -, -⟩ :=
            Chained.ofCalled (isTop ▸ safe.chained)
          obtain ⟨later, popped, isSafe, shrinks⟩ := leave_called safe isTop isRecord nothing
          have isUnwound : unwindTo frame.address (fuel + 1) state = { state with
              heap := later
              moduleRef := record.moduleRef
              mpBase := record.mpBase
              frames := frame :: rest
              allocated := none
              suspended := earlier } := by
            unfold unwindTo
            rw [popped]
            exact if_pos rfl
          refine ⟨later, [], record, earlier, isRecord, records.frame, isUnwound, ?_, shrinks⟩
          rw [isUnwound]
          exact isSafe
      | cons next above =>
          obtain ⟨record, earlier, isRecord, records, -, below⟩ :=
            Chained.ofCalled (isTop ▸ safe.chained)
          obtain ⟨later, popped, isSafe, shrinks⟩ := leave_called safe isTop isRecord nothing
          -- The frames above the target frame have larger addresses.
          have isNext : next.address = (above ++ frame :: rest).length := below.address
          have isTarget := Chained.address_below (next :: above) below
          have different : next.address ≠ frame.address := by
            rw [isNext, isTarget]
            simp only [List.length_append, List.length_cons]
            omega
          have isUnwound : unwindTo frame.address (fuel + 1) state =
              unwindTo frame.address fuel { state with
                heap := later
                moduleRef := record.moduleRef
                mpBase := record.mpBase
                frames := next :: (above ++ frame :: rest)
                allocated := none
                suspended := earlier } := by
            rw [unwindTo, popped]
            exact if_neg fun same => different (Option.some.inj same)
          obtain ⟨last, skipped, found, older, isFound, isFrame, unwound, isLast, shrinksMore⟩ :=
            ih fuel isSafe rfl rfl (List.cons_ne_nil _ _) (Nat.le_of_succ_le_succ enough)
          rw [isUnwound]
          refine ⟨last, record :: skipped, found, older, ?_, isFrame, unwound, isLast,
            shrinks.trans shrinksMore⟩
          rw [isRecord]
          exact congrArg (record :: ·) isFound

/-- The target frame and its registers are reached again. -/
def Reaches (state : ThreadState) (target : ℕ) (after : ThreadState) : Prop :=
  after.frames.head?.map Frame.address = some target ∧
    (state.frames.head?.map Frame.address = some target ∧ after.moduleRef = state.moduleRef ∧
        after.mpBase = state.mpBase ∧ after.suspended = state.suspended ∨
      ∃ skipped record earlier, state.suspended = skipped ++ record :: earlier ∧
        record.frame = target ∧ AtRecord record earlier after)

theorem releaseRefs_modifyTop (pointers : List ℕ) (change : Frame → Frame) :
    (state.releaseRefs pointers).modifyTop change =
      (state.modifyTop change).releaseRefs pointers :=
  rfl

/-- The exception takes the place of what its slot held. -/
theorem storeException_spec {exception offset : ℕ} (safe : SafeWith (exception :: extra) state)
    {frame : Frame} {rest : List Frame} (isTop : state.frames = frame :: rest)
    (inData : frameBaseWords ≤ offset) (isPointer : offset ∈ frame.frameType.pointers) :
    ∃ later, state.storeException offset exception = { state with
        heap := later, frames := frame.setSlot offset (some exception) :: rest } ∧
      SafeWith extra (state.storeException offset exception) := by
  have isSlot : frameSlot frame offset = some (frame.slots offset) := if_pos isPointer
  have isSet := SafeWith.setSlot 0 (some exception) safe
    (by rw [isTop]; rfl) isSlot
  obtain ⟨later, released, isSafe, -⟩ := isSet.release
  rw [isTop, List.modify_zero_cons] at released isSafe
  have isStored : state.storeException offset exception = { state with
      heap := later, frames := frame.setSlot offset (some exception) :: rest } := by
    unfold storeException
    rw [isTop]
    dsimp only
    rw [if_neg (Nat.not_lt.mpr inData)]
    show (state.releaseRefs (frame.slots offset).toList).modifyTop _ = _
    rw [releaseRefs_modifyTop]
    unfold modifyTop
    rw [isTop, List.modifyHead_cons]
    exact released
  rw [isStored]
  exact ⟨later, rfl, isSafe⟩

theorem reinitialize_eq {handler : HandlerEntry}
    (keeps : ∀ type ∈ handler.typeDesc, type.size = 0) : state.reinitialize handler = state := by
  unfold reinitialize
  split
  · rename_i frame rest type isFrames isType
    exact if_pos (keeps type isType)
  · rfl

theorem raiseTo_spec {exception target : ℕ} (safe : SafeWith extra state)
    (nothing : state.allocated = none) (live : ∃ cell, state.heap.cells exception = some cell)
    {above rest : List Frame} {frame : Frame} (isTop : state.frames = above ++ frame :: rest)
    (isTarget : frame.address = target) {handler : HandlerEntry}
    (fits : state.Fits handler target) (handlerPc : ℤ) :
    SafeWith extra (state.raiseTo exception handler target handlerPc) ∧
      (state.raiseTo exception handler target handlerPc).pc = handlerPc ∧
      Reaches state target (state.raiseTo exception handler target handlerPc) := by
  obtain ⟨keeps, inFrame⟩ := fits
  obtain ⟨inData, isPointer⟩ := inFrame frame (by rw [isTop]; simp) isTarget
  have referenced := safe.addRef live
  have isRefed := addRef_eq state live
  rw [isRefed] at referenced
  unfold raiseTo
  dsimp only
  rw [isRefed, reinitialize_eq keeps]
  cases above with
  | nil =>
      rw [List.nil_append] at isTop
      have isTopFrame : state.frames.head?.map Frame.address = some target := by
        rw [isTop, List.head?_cons, Option.map_some, isTarget]
      rw [if_pos isTopFrame]
      obtain ⟨later, stored, isSafe⟩ := storeException_spec referenced isTop inData isPointer
      rw [stored] at isSafe ⊢
      refine ⟨isSafe.setControl handlerPc .running, rfl, ?_, Or.inl ⟨isTopFrame, rfl, rfl, rfl⟩⟩
      rw [List.head?_cons, Option.map_some, ← isTarget]
      rfl
  | cons top above =>
      have isTopAddress : top.address = (above ++ frame :: rest).length :=
        Chained.address (isTop ▸ safe.chained)
      have isBelow : frame.address = rest.length :=
        Chained.address_below (top :: above) (isTop ▸ safe.chained)
      have notTop : ¬ state.frames.head?.map Frame.address = some target := by
        rw [isTop, List.cons_append, List.head?_cons, Option.map_some, Option.some.injEq,
          isTopAddress, ← isTarget, isBelow, List.length_append, List.length_cons]
        omega
      rw [if_neg notTop]
      obtain ⟨later, skipped, record, earlier, isRecord, isFrame, unwound, isSafe, -⟩ :=
        unwindTo_spec state.frames.length referenced nothing isTop
          (List.cons_ne_nil _ _) (by rw [isTop]; simp)
      rw [isTarget] at unwound isSafe
      rw [unwound] at isSafe ⊢
      obtain ⟨last, stored, isStored⟩ := storeException_spec isSafe rfl inData isPointer
      rw [stored] at isStored ⊢
      have isHead : (frame.setSlot handler.exceptionOffset (some exception)).address =
          record.frame := isFrame.symm
      refine ⟨isStored.setControl handlerPc .running, rfl, ?_, Or.inr
        ⟨skipped, record, earlier, isRecord, isFrame.trans isTarget, rfl, rfl, rfl, ?_⟩⟩
      · rw [List.head?_cons, Option.map_some, isHead, isFrame, isTarget]
      · rw [List.head?_cons, Option.map_some, isHead]

/-- What is reached is what a record describes. -/
theorem restored_of_reaches {target : ℕ} {after : ThreadState} (safe : SafeWith [] state)
    (reaches : Reaches state target after) (isSafe : SafeWith [] after) :
    ∃ record ∈ state.suspend false, record.frame = target ∧ Restored record after.pc after := by
  obtain ⟨isHead, ⟨wasHead, isRef, isBase, isSuspended⟩ | found⟩ := reaches
  · obtain ⟨frame, isFrame, isAddress⟩ := Option.map_eq_some_iff.mp wasHead
    obtain ⟨rest, isTop⟩ := List.head?_eq_some_iff.mp isFrame
    refine ⟨state.record frame false, ?_, isAddress, ?_⟩
    · unfold suspend
      rw [isTop]
      exact List.mem_cons_self
    · refine restored_of_atRecord ⟨isRef, isBase, isSuspended, ?_⟩ isSafe (held_eq safe)
      rw [isHead, ← isAddress]
      rfl
  · obtain ⟨skipped, record, earlier, isRecord, isFrame, atRecord⟩ := found
    refine ⟨record, ?_, isFrame, restored_of_atRecord atRecord isSafe
      (safe.chained.held isRecord)⟩
    have member : record ∈ state.suspended := by
      rw [isRecord]
      simp
    unfold suspend
    split
    · exact member
    · exact List.mem_cons_of_mem _ member

theorem raise_spec (safe : Safe state) {exception : ℕ}
    (live : ∃ cell, state.heap.cells exception = some cell) {after : ThreadState}
    (raised : state.raise exception = some after)
    (permitted : ∀ found ∈ (exceptionId state.heap exception).bind state.handlerFor,
      state.allocated = none ∧ state.Fits found.1 found.2.1) :
    Safe after ∧ ∀ found ∈ (exceptionId state.heap exception).bind state.handlerFor,
      ∃ record ∈ state.suspend false, record.frame = found.2.1 ∧
        Restored record found.2.2 after := by
  unfold raise at raised
  split at raised
  · cases raised
  · rename_i runes isId
    rw [isId, Option.bind_some] at permitted ⊢
    split at raised
    · rename_i noHandler
      cases raised
      rw [noHandler]
      exact ⟨safe_stop safe, fun _ member => absurd member (Option.not_mem_none _)⟩
    · rename_i handler target handlerPc isHandler
      cases raised
      obtain ⟨nothing, fits⟩ := permitted _ isHandler
      obtain ⟨above, frame, rest, isTop, isTarget⟩ := findExceptionHandler_spec isHandler
      obtain ⟨isSafe, isPc, reaches⟩ :=
        raiseTo_spec safe.safeWith nothing live isTop isTarget fits handlerPc
      refine ⟨⟨isSafe, fun _ empty => ?_⟩, fun found member => ?_⟩
      · have isHead := reaches.1
        rw [empty] at isHead
        cases isHead
      · rw [isHandler] at member
        cases member
        obtain ⟨record, isRecord, isFrame, restored⟩ :=
          restored_of_reaches safe.safeWith reaches isSafe
        rw [isPc] at restored
        exact ⟨record, isRecord, isFrame, restored⟩

theorem throwMarshallable_spec (safe : Safe state) {runes : List ℕ} {after : ThreadState}
    (thrown : state.throwMarshallable runes = some after)
    (permitted : ∀ found ∈ (state.newString runes).handlerFor runes,
      state.allocated = none ∧ state.Fits found.1 found.2.1) :
    Safe after ∧ ∀ found ∈ (state.newString runes).handlerFor runes,
      ∃ record ∈ state.suspend false, record.frame = found.2.1 ∧
        Restored record found.2.2 after := by
  have created : SafeWith [state.heap.limit] (state.newString runes) :=
    safe_allocate (.string runes) [] safe.safeWith
  have live : ∃ cell, (state.newString runes).heap.cells state.heap.limit = some cell :=
    ⟨_, Heap.allocate_self _⟩
  unfold throwMarshallable at thrown
  dsimp only at thrown
  split at thrown
  · rename_i noHandler
    cases thrown
    rw [noHandler]
    refine ⟨⟨?_, fun notEnded => absurd rfl notEnded⟩,
      fun _ member => absurd member (Option.not_mem_none _)⟩
    exact {
      sound := created.sound.congr fun id => by
        show (state.frameRefs ++ state.others ++ (state.heap.limit :: state.abandoned) ++
          registerRefs state.moduleRef state.mpBase state.suspended ++ []).count id =
            (state.frameRefs ++ state.others ++ state.abandoned ++
              registerRefs state.moduleRef state.mpBase state.suspended ++
                [state.heap.limit]).count id
        simp only [List.count_append, count_cons_single, List.count_nil]
        omega
      chained := created.chained
      modules := created.modules
      allocatedAddress := created.allocatedAddress
      untouched := created.untouched
      kept := created.kept }
  · rename_i handler target handlerPc isHandler
    cases thrown
    obtain ⟨nothing, fits⟩ := permitted _ isHandler
    obtain ⟨above, frame, rest, isTop, isTarget⟩ := findExceptionHandler_spec isHandler
    obtain ⟨isSafe, isPc, reaches⟩ :=
      raiseTo_spec created nothing live isTop isTarget fits handlerPc
    have isSafe' : SafeWith ((some state.heap.limit).toList ++ []) _ := isSafe
    obtain ⟨later, released, isReleased, -⟩ := isSafe'.release
    have isAfter : ((state.newString runes).raiseTo state.heap.limit handler target
        handlerPc).decRefCountAndFree (some state.heap.limit) =
          { (state.newString runes).raiseTo state.heap.limit handler target handlerPc with
            heap := later } := released
    have reachesFromState : Reaches state target { (state.newString runes).raiseTo
        state.heap.limit handler target handlerPc with heap := later } := reaches
    rw [isAfter]
    refine ⟨⟨isReleased, fun _ empty => ?_⟩, fun found member => ?_⟩
    · have isHead := reachesFromState.1
      rw [empty] at isHead
      cases isHead
    · rw [isHandler] at member
      cases member
      obtain ⟨record, isRecord, isFrame, restored⟩ :=
        restored_of_reaches safe.safeWith reachesFromState isReleased
      have isPc' : ({ (state.newString runes).raiseTo state.heap.limit handler target
          handlerPc with heap := later } : ThreadState).pc = handlerPc := isPc
      rw [isPc'] at restored
      exact ⟨record, isRecord, isFrame, restored⟩

end Steps

section Runs

variable {state after : ThreadState}

/-- A step that neither returns nor raises an exception has to be safe only. -/
theorem resumes_of_safe {action : Action} (safe : Safe after)
    (notReturn : action ≠ .ret ∧ action ≠ .nativeReturn)
    (notRaise : state.caught action = none) : Resumes state action after := by
  refine ⟨safe.safeWith.kept, safe.safeWith.untouched, ?_⟩
  split
  · exact absurd rfl notReturn.1
  · exact absurd rfl notReturn.2
  · rw [notRaise]
    exact fun _ member => absurd member (Option.not_mem_none _)
  · rw [notRaise]
    exact fun _ member => absurd member (Option.not_mem_none _)
  · trivial

theorem safe_storeStep (safe : Safe state) {value : Value} {dest : Place}
    (stored : state.store value dest = some after) : Safe after := by
  obtain ⟨isSafe, sameLinks, sameControl⟩ := safe_store safe.safeWith stored
  refine ⟨isSafe, fun notEnded empty => ?_⟩
  rw [sameControl] at notEnded
  rw [empty, List.map_nil, eq_comm, List.map_eq_nil_iff] at sameLinks
  exact safe.active notEnded sameLinks

theorem Safe.next (safe : Safe state) : Safe state.next :=
  ⟨safe.safeWith.setControl (state.pc + 1) state.control, safe.active⟩

theorem safe_stepFrame (safe : Safe state) (nothing : state.allocated = none)
    {type : TypeDescriptor} (stepped : state.stepFrame type = some after) : Safe after := by
  unfold stepFrame at stepped
  split_ifs at stepped
  cases stepped
  exact safe_allocFrame safe nothing type

theorem safe_otherTake (safe : Safe state) {id : ℕ}
    (live : ∃ cell, state.heap.cells id = some cell) :
    Safe { state.addRef id with others := id :: state.others } := by
  have taken := safe.safeWith.addRef live
  rw [addRef_eq state live] at taken ⊢
  refine ⟨?_, safe.active⟩
  exact {
    sound := taken.sound.congr fun target => by
      simp only [references, frameRefs, List.append_nil, List.count_append, count_cons_single,
        List.count_nil]
      omega
    chained := taken.chained
    modules := taken.modules
    allocatedAddress := taken.allocatedAddress
    untouched := taken.untouched
    kept := taken.kept }

theorem safe_otherDrop (safe : Safe state) {id : ℕ} (member : id ∈ state.others) :
    Safe { state.decRefCountAndFree (some id) with others := state.others.erase id } := by
  have dropped : SafeWith ([id] ++ []) { state with others := state.others.erase id } := {
    sound := safe.safeWith.sound.congr fun target => by
      have erased := (List.perm_cons_erase member).count_eq target
      rw [count_cons_single] at erased
      simp only [references, frameRefs, List.append_nil, List.count_append, count_cons_single,
        List.count_nil]
      omega
    chained := safe.safeWith.chained
    modules := safe.safeWith.modules
    allocatedAddress := safe.safeWith.allocatedAddress
    untouched := safe.safeWith.untouched
    kept := safe.safeWith.kept }
  obtain ⟨later, released, isSafe, -⟩ := dropped.release
  have isDropped : ({ state.decRefCountAndFree (some id) with
      others := state.others.erase id } : ThreadState) =
        { state with heap := later, others := state.others.erase id } := released
  rw [isDropped]
  exact ⟨isSafe, safe.active⟩

theorem stepMcall_spec (safe : Safe state) (notEnded : state.control ≠ .ended) {source : Place}
    {function : ℕ} (permitted : state.Permitted (.mcall source function))
    (stepped : state.stepMcall source function = some after) : Safe after := by
  unfold stepMcall at stepped
  split at stepped
  · cases stepped
  · cases stepped
    exact safe_stop safe
  · rename_i id ref isTarget
    split at stepped
    · cases stepped
      exact safe_stop safe
    · rename_i functionRef isFunction
      cases stepped
      have isModule : moduleRefAt state.heap id = some ref := by
        unfold targetModule at isTarget
        split at isTarget
        · cases isTarget
        · cases isTarget
        · obtain ⟨found, isFound, same⟩ := Option.map_eq_some_iff.mp isTarget
          cases same
          exact isFound
      exact safe_mcall safe notEnded permitted.1 isModule (permitted.2 id ref isTarget)
        functionRef.entryPc

theorem stepMframe_spec (safe : Safe state) {source : Place} {function : ℕ}
    (nothing : state.allocated = none)
    (stepped : state.stepMframe source function = some after) : Safe after := by
  unfold stepMframe at stepped
  split at stepped
  · cases stepped
  · cases stepped
    exact safe_stop safe
  · split at stepped
    · cases stepped
      exact safe_stop safe
    · obtain ⟨type, -, isStep⟩ := Option.bind_eq_some_iff.mp stepped
      exact safe_stepFrame safe nothing isStep

theorem stepRaise_spec (safe : Safe state) {source : Place}
    (permitted : state.Permitted (.raise source))
    (stepped : state.stepRaise source = some after) :
    Safe after ∧ ∀ found ∈ state.caught (.raise source),
      ∃ record ∈ state.suspend false, record.frame = found.2.1 ∧
        Restored record found.2.2 after := by
  unfold stepRaise at stepped
  split at stepped
  · cases stepped
  · rename_i isNil
    cases stepped
    refine ⟨safe_stop safe, fun found member => ?_⟩
    simp only [caught, isNil, Option.join_some, Option.bind_none] at member
    cases member
  · rename_i exception isException
    have isCaught : state.caught (.raise source) =
        (exceptionId state.heap exception).bind state.handlerFor := by
      simp only [caught, isException, Option.join_some, Option.bind_some]
    have permitted' : ∀ found ∈ state.caught (.raise source),
      state.allocated = none ∧ state.Fits found.1 found.2.1 := permitted
    rw [isCaught] at permitted' ⊢
    exact raise_spec safe (safe.safeWith.live_of_place isException) stepped permitted'

theorem stepRunning_spec (safe : Safe state) (notEnded : state.control ≠ .ended) {action : Action}
    (permitted : state.Permitted action) (stepped : state.stepRunning action = some after) :
    Safe after ∧ Resumes state action after := by
  cases action with
  | frame frameType =>
      obtain ⟨type, -, isStep⟩ := Option.bind_eq_some_iff.mp stepped
      have isSafe := safe_stepFrame safe permitted isStep
      exact ⟨isSafe, resumes_of_safe isSafe ⟨nofun, nofun⟩ rfl⟩
  | mframe source function =>
      have isSafe := stepMframe_spec safe permitted stepped
      exact ⟨isSafe, resumes_of_safe isSafe ⟨nofun, nofun⟩ rfl⟩
  | call target =>
      cases stepped
      have isSafe := safe_call safe notEnded permitted target
      exact ⟨isSafe, resumes_of_safe isSafe ⟨nofun, nofun⟩ rfl⟩
  | mcall source function =>
      have isSafe := stepMcall_spec safe notEnded permitted stepped
      exact ⟨isSafe, resumes_of_safe isSafe ⟨nofun, nofun⟩ rfl⟩
  | ret =>
      cases stepped
      obtain ⟨isSafe, restored⟩ := ret_spec safe notEnded permitted
      exact ⟨isSafe, isSafe.safeWith.kept, isSafe.safeWith.untouched, restored⟩
  | raise source =>
      obtain ⟨isSafe, restored⟩ := stepRaise_spec safe permitted stepped
      exact ⟨isSafe, isSafe.safeWith.kept, isSafe.safeWith.untouched, restored⟩
  | store value dest =>
      obtain ⟨stored, isStored, rfl⟩ := Option.map_eq_some_iff.mp stepped
      have isSafe := (safe_storeStep safe isStored).next
      exact ⟨isSafe, resumes_of_safe isSafe ⟨nofun, nofun⟩ rfl⟩
  | jump target =>
      cases stepped
      have isSafe : Safe { state with pc := target } :=
        ⟨safe.safeWith.setControl target state.control, safe.active⟩
      exact ⟨isSafe, resumes_of_safe isSafe ⟨nofun, nofun⟩ rfl⟩
  | exit =>
      cases stepped
      have isSafe := safe_stop safe
      exact ⟨isSafe, resumes_of_safe isSafe ⟨nofun, nofun⟩ rfl⟩
  | nativeReturn => cases stepped
  | nativeThrow => cases stepped
  | fault => cases stepped
  | otherTake => cases stepped
  | otherDrop => cases stepped

theorem stepNative_spec (safe : Safe state) (notEnded : state.control ≠ .ended) {action : Action}
    (permitted : state.Permitted action) (stepped : state.stepNative action = some after) :
    Safe after ∧ Resumes state action after := by
  cases action with
  | store value dest =>
      have isSafe := safe_storeStep safe stepped
      exact ⟨isSafe, resumes_of_safe isSafe ⟨nofun, nofun⟩ rfl⟩
  | nativeReturn =>
      cases stepped
      obtain ⟨isSafe, restored⟩ := ret_spec safe notEnded permitted
      exact ⟨isSafe, isSafe.safeWith.kept, isSafe.safeWith.untouched, restored⟩
  | nativeThrow runes =>
      obtain ⟨isSafe, restored⟩ := throwMarshallable_spec safe stepped permitted
      exact ⟨isSafe, isSafe.safeWith.kept, isSafe.safeWith.untouched, restored⟩
  | _ => cases stepped

theorem step_spec (safe : Safe state) {action : Action} (permitted : state.Permitted action)
    (stepped : state.step action = some after) : Safe after ∧ Resumes state action after := by
  unfold step at stepped
  by_cases isEnded : state.control = .ended
  · rw [if_pos isEnded] at stepped
    cases stepped
  rw [if_neg isEnded] at stepped
  split at stepped
  · cases stepped
    have isSafe := safe_stop safe
    exact ⟨isSafe, resumes_of_safe isSafe ⟨nofun, nofun⟩ rfl⟩
  · rename_i id
    split_ifs at stepped with isLive
    cases stepped
    have isSafe := safe_otherTake safe (Option.isSome_iff_exists.mp isLive)
    exact ⟨isSafe, resumes_of_safe isSafe ⟨nofun, nofun⟩ rfl⟩
  · rename_i id
    split_ifs at stepped with member
    cases stepped
    have isSafe := safe_otherDrop safe member
    exact ⟨isSafe, resumes_of_safe isSafe ⟨nofun, nofun⟩ rfl⟩
  · split_ifs at stepped with isNative
    · exact stepNative_spec safe isEnded permitted stepped
    · exact stepRunning_spec safe isEnded permitted stepped

/-- References are taken one after the other. -/
theorem addRefs_spec (state : ThreadState) {others : ℕ → ℕ} (pointers : List ℕ)
    (sound : Sound counted.toLayout state.heap others)
    (live : ∀ id ∈ pointers, ∃ cell, state.heap.cells id = some cell) :
    ∃ later, pointers.foldl ThreadState.addRef state = { state with heap := later } ∧
      Sound counted.toLayout later (fun id => others id + pointers.count id) ∧
      ∀ id, contentAt later id = contentAt state.heap id := by
  induction pointers generalizing state others with
  | nil => exact ⟨state.heap, rfl, sound.congr fun _ => rfl, fun _ => rfl⟩
  | cons first pointers ih =>
      have firstLive := live first List.mem_cons_self
      have grows := grows_addRef firstLive
      obtain ⟨cell, found⟩ := firstLive
      have added := addRef_sound sound found fun _ => rfl
      rw [List.foldl_cons]
      rw [addRef_eq state ⟨cell, found⟩] at grows ⊢
      obtain ⟨later, isLater, laterSound, kept⟩ := ih _ added fun id member =>
        grows.live (live id (List.mem_cons_of_mem _ member))
      refine ⟨later, isLater, laterSound.congr fun id => ?_, fun id => ?_⟩
      · rw [count_cons_single]
        omega
      · rw [kept id]
        exact contentAt_addRef first

theorem safe_initial (initial : state.Initial) : Safe state := by
  obtain ⟨heap, others, entry, ref, frameType, arguments, startPc, sound, isModule, live, rfl⟩ :=
    initial
  obtain ⟨entryLive, dataLive⟩ := live_of_moduleRef sound isModule
  have isBase : mpBaseOf heap entry = ref.mpBase := mpBaseOf_eq (by rw [isModule]; rfl)
  let frame := { Frame.create 0 frameType with slots := arguments }
  let registers : ThreadState :=
    { heap := heap, moduleRef := entry, mpBase := mpBaseOf heap entry, pc := startPc,
      frames := [], allocated := none, control := .running, suspended := [], others := others,
      abandoned := [], touchedFreed := [], failed := false }
  have allLive : ∀ id ∈ (mpBaseOf heap entry).toList ++ entry :: frame.pointers,
      ∃ cell, heap.cells id = some cell := by
    intro id member
    rcases List.mem_append.mp member with inBase | inRest
    · rw [isBase] at inBase
      exact dataLive id (Option.mem_toList.mp inBase)
    · rcases List.mem_cons.mp inRest with rfl | inFrame
      · exact entryLive
      · obtain ⟨offset, isOffset, isSlot⟩ := List.mem_filterMap.mp inFrame
        exact live offset isOffset id isSlot
  obtain ⟨later, referenced, isSound, kept⟩ := addRefs_spec registers _ sound allLive
  have isStart : start heap others entry frameType arguments startPc =
      { registers with heap := later, frames := [frame] } := by
    unfold start
    dsimp only
    rw [referenced]
  rw [isStart]
  refine ⟨?_, fun _ => List.cons_ne_nil _ _⟩
  exact {
    sound := isSound.congr fun id => by
      simp only [references, frameRefs, registerRefs, registers, Option.toList_none,
        List.nil_append, List.flatMap_cons, List.flatMap_nil, List.append_nil,
        List.count_append, count_cons_single]
      omega
    chained := Chained.first _ _ rfl rfl rfl
    modules := fun pair member => by
      cases List.mem_singleton.mp member
      have isOwn : (moduleRefAt later entry).map ModuleRef.mpBase = some (mpBaseOf heap entry) := by
        rw [moduleRefAt_congr (kept entry), isModule, isBase]
        rfl
      exact isOwn
    allocatedAddress := fun _ member => absurd member (Option.not_mem_none _)
    untouched := rfl
    kept := rfl }

theorem safe_of_reached (reached : state.Reached) : Safe state := by
  refine reached.invariant Safe (fun _ initial => safe_initial initial) ?_
  rintro before after - safe ⟨action, permitted, stepped⟩
  exact (step_spec safe permitted stepped).1

/-- Every step of a permitted run goes back to the registers and the counts of the
frame that it resumes. -/
theorem resumes_of_reached (reached : state.Reached) {action : Action}
    (permitted : state.Permitted action) (stepped : state.step action = some after) :
    Resumes state action after :=
  (step_spec (safe_of_reached reached) permitted stepped).2

end Runs

/-- A type for frames with one pointer. -/
def onePointer : TypeDescriptor where
  size := 5
  pointers := [4]
  nodup := List.nodup_singleton 4

/-- A module whose instructions from 10 to 19 have a handler. -/
def guarded (typeDesc : Option TypeDescriptor) : Module where
  builtin := false
  originalMp := none
  typeSection := [onePointer]
  handlerSection :=
    [{ exceptionOffset := 4, beginPc := 10, endPc := 20, typeDesc := typeDesc,
       exceptionTable := [{ name := none, pc := 15 }] }]
  builtinWithoutData := nofun

def guardedRef (typeDesc : Option TypeDescriptor) : ModuleRef where
  module := guarded typeDesc
  functionRefs := []
  mpBase := none
  builtinWithoutData := nofun

def guardedThread (typeDesc : Option TypeDescriptor) : ThreadState :=
  start (Heap.empty.allocate ⟨1, .moduleRef (guardedRef typeDesc)⟩) [0] 0 onePointer
    (fun _ => none) 0

theorem initial_guardedThread (typeDesc : Option TypeDescriptor) :
    (guardedThread typeDesc).Initial := by
  refine ⟨_, [0], 0, guardedRef typeDesc, onePointer, fun _ => none, 0, ?_, ?_, nofun, rfl⟩
  · exact Sound.allocateFirst rfl rfl
  · unfold moduleRefAt contentAt
    rw [show (Heap.empty.allocate (⟨1, .moduleRef (guardedRef typeDesc)⟩ : VmAlloc)).cells 0 =
      some ⟨1, .moduleRef (guardedRef typeDesc)⟩ from Heap.allocate_self _]
    rfl

/-- A function is called and raises an exception that it catches itself. -/
def raiseInCallee : List Action :=
  [.frame 0, .call 9, .store (.string [0x65]) (.slot 0 4), .raise (.slot 0 4)]

/-- A caller goes on after its callee has returned. -/
theorem resumes_guarded :
    ∃ before after : ThreadState, before.Reached ∧ before.suspended ≠ [] ∧
      before.step .ret = some after ∧ before.Resumes .ret after := by
  let thread := guardedThread none
  let prepared := (thread.step (.frame 0)).get (by decide)
  let called := prepared.call 9
  have reachedPrepared : prepared.Reached :=
    (Transition.Reachable.start (initial_guardedThread none)).next
      ⟨.frame 0, rfl, (Option.some_get _).symm⟩
  have isPending : prepared.allocated.isSome = true := by decide
  have reachedCalled : called.Reached := reachedPrepared.next ⟨.call 9, isPending, rfl⟩
  have isAfter : called.step .ret = some called.ret := rfl
  refine ⟨called, called.ret, reachedCalled, ?_, isAfter,
    resumes_of_reached reachedCalled rfl isAfter⟩
  have isSuspended : called.suspended.length = 1 := by decide
  exact List.ne_nil_of_length_pos (by omega)

/-- After a handler that initializes its frame again the caller is lost. -/
theorem caller_lost :
    ∃ before after, Transition.Reachable Initial (Transition.StepsBy (fun _ _ => True) step)
      before ∧ before.step .ret = some after ∧ ¬ before.Resumes .ret after := by
  let thread := guardedThread (some onePointer)
  let before := (Transition.execute step thread raiseInCallee).get (by decide)
  have replayed : Transition.execute step thread raiseInCallee = some before :=
    (Option.some_get _).symm
  let after := (before.step .ret).get (by decide)
  refine ⟨before, after, ?_, (Option.some_get _).symm, ?_⟩
  · exact Transition.reachable_of_execute
      (Transition.Reachable.start (initial_guardedThread (some onePointer)))
      (fun _ _ _ => trivial) replayed
  · rintro ⟨-, -, restored⟩
    have isRecord : before.suspended.head?.isSome = true := by decide
    obtain ⟨record, found⟩ := Option.isSome_iff_exists.mp isRecord
    have noFrame : after.frames.head?.map Frame.address = none := by decide
    have isFrame := (restored record found).topFrame
    rw [noFrame] at isFrame
    cases isFrame

end Disvm.ModuleCalls
