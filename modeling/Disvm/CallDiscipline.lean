import Disvm.ModuleCalls

/-!
# The discipline of calls

What the registers and the records of suspended frames refer to accounts for all
references that program data does not hold, and the links of the frames agree
with the records.  A return and a caught exception go back to a record.
-/

namespace Disvm.ModuleCalls

open RefCounting ThreadState

/-- The references that stay with a frame that has called into another module. -/
def Suspension.saved (record : Suspension) : List ℕ :=
  if record.crossed then record.moduleRef :: record.mpBase.toList else []

/-- The references from registers, now and when the frames were suspended. -/
def registerRefs (moduleRef : ℕ) (mpBase : Option ℕ) (suspended : List Suspension) : List ℕ :=
  moduleRef :: mpBase.toList ++ suspended.flatMap Suspension.saved

/-- The record of a caller whose callee has these links, with the earlier
records. -/
structure Suspension.Records (record : Suspension) (callee caller : Frame)
    (earlier : List Suspension) : Prop where
  frame : record.frame = caller.address
  nextPc : record.nextPc = callee.prevPc
  prevFrame : callee.prevFrame = some caller.address
  prevModuleRef : callee.prevModuleRef = if record.crossed then some record.moduleRef else none
  held : ∀ id, record.held id = (registerRefs record.moduleRef record.mpBase earlier).count id

/-- The frames, from the top one down, agree with the registers and with the
records. -/
inductive Chained : ℕ → Option ℕ → List Frame → List Suspension → Prop
  | empty (moduleRef mpBase) : Chained moduleRef mpBase [] []
  | first (moduleRef mpBase) {frame : Frame} (address : frame.address = 0)
      (prevFrame : frame.prevFrame = none) (prevModuleRef : frame.prevModuleRef = none) :
      Chained moduleRef mpBase [frame] []
  | called {moduleRef mpBase} {callee caller : Frame} {frames : List Frame}
      {record : Suspension} {earlier : List Suspension}
      (address : callee.address = frames.length + 1)
      (records : record.Records callee caller earlier)
      (same : record.crossed = false → record.moduleRef = moduleRef ∧ record.mpBase = mpBase)
      (below : Chained record.moduleRef record.mpBase (caller :: frames) earlier) :
      Chained moduleRef mpBase (callee :: caller :: frames) (record :: earlier)

namespace Frame

/-- What the chain of frames depends on. -/
def links (frame : Frame) : ℕ × ℤ × Option ℕ × Option ℕ :=
  (frame.address, frame.prevPc, frame.prevFrame, frame.prevModuleRef)

end Frame

section Chains

variable {moduleRef : ℕ} {mpBase : Option ℕ} {frames : List Frame}
  {suspended : List Suspension}

theorem Chained.congr (chained : Chained moduleRef mpBase frames suspended)
    {others : List Frame} (same : others.map Frame.links = frames.map Frame.links) :
    Chained moduleRef mpBase others suspended := by
  induction chained generalizing others with
  | empty =>
      rw [List.map_nil, List.map_eq_nil_iff] at same
      rw [same]
      exact Chained.empty _ _
  | first _ _ address prevFrame prevModuleRef =>
      rw [List.map_singleton] at same
      obtain ⟨other, rest, rfl, isLinks, isRest⟩ := List.map_eq_cons_iff.mp same
      rw [List.map_eq_nil_iff] at isRest
      subst isRest
      simp only [Frame.links, Prod.mk.injEq] at isLinks
      obtain ⟨isAddress, -, isFrame, isRef⟩ := isLinks
      exact Chained.first _ _ (isAddress.trans address) (isFrame.trans prevFrame)
        (isRef.trans prevModuleRef)
  | called address records unchanged below ih =>
      rw [List.map_cons] at same
      obtain ⟨other, rest, rfl, isLinks, isRest⟩ := List.map_eq_cons_iff.mp same
      have chain := ih isRest
      rw [List.map_cons] at isRest
      obtain ⟨otherCaller, others, rfl, isCaller, isBelow⟩ := List.map_eq_cons_iff.mp isRest
      have isLength := congrArg List.length isBelow
      rw [List.length_map, List.length_map] at isLength
      simp only [Frame.links, Prod.mk.injEq] at isLinks isCaller
      obtain ⟨isAddress, isPc, isFrame, isRef⟩ := isLinks
      refine Chained.called ?_ ?_ unchanged chain
      · rw [isAddress, address, isLength]
      · exact {
          frame := records.frame.trans isCaller.1.symm
          nextPc := records.nextPc.trans isPc.symm
          prevFrame := by rw [isFrame, records.prevFrame, isCaller.1]
          prevModuleRef := isRef.trans records.prevModuleRef
          held := records.held }

theorem Chained.address {frame : Frame}
    (chained : Chained moduleRef mpBase (frame :: frames) suspended) :
    frame.address = frames.length := by
  cases chained with
  | first _ _ address => exact address
  | called address => exact address

theorem Chained.ofFirst {frame : Frame} (chained : Chained moduleRef mpBase [frame] suspended) :
    suspended = [] ∧ frame.prevFrame = none ∧ frame.prevModuleRef = none := by
  cases chained with
  | first _ _ _ prevFrame prevModuleRef => exact ⟨rfl, prevFrame, prevModuleRef⟩

theorem Chained.ofCalled {callee caller : Frame}
    (chained : Chained moduleRef mpBase (callee :: caller :: frames) suspended) :
    ∃ record earlier, suspended = record :: earlier ∧ record.Records callee caller earlier ∧
      (record.crossed = false → record.moduleRef = moduleRef ∧ record.mpBase = mpBase) ∧
      Chained record.moduleRef record.mpBase (caller :: frames) earlier := by
  cases chained with
  | called _ records same below => exact ⟨_, _, rfl, records, same, below⟩

/-- A recorded module reference is referred to. -/
theorem Chained.mem_registerRefs (chained : Chained moduleRef mpBase frames suspended)
    {record : Suspension} (member : record ∈ suspended) :
    record.moduleRef ∈ registerRefs moduleRef mpBase suspended := by
  induction chained with
  | empty => cases member
  | first => cases member
  | @called moduleRef mpBase callee caller frames first earlier address records same below ih =>
      unfold registerRefs at ih ⊢
      rcases List.mem_cons.mp member with rfl | inEarlier
      · cases isCrossed : record.crossed with
        | false =>
            rw [(same isCrossed).1]
            exact List.mem_append_left _ List.mem_cons_self
        | true =>
            refine List.mem_append_right _ ?_
            rw [List.flatMap_cons, Suspension.saved, if_pos isCrossed]
            exact List.mem_append_left _ List.mem_cons_self
      · rw [List.flatMap_cons]
        rcases List.mem_append.mp (ih inEarlier) with inRegisters | inSaved
        · cases isCrossed : first.crossed with
          | false =>
              obtain ⟨isRef, isBase⟩ := same isCrossed
              rw [isRef, isBase] at inRegisters
              exact List.mem_append_left _ inRegisters
          | true =>
              refine List.mem_append_right _ (List.mem_append_left _ ?_)
              rw [Suspension.saved, if_pos isCrossed]
              exact inRegisters
        · exact List.mem_append_right _ (List.mem_append_right _ inSaved)

end Chains

section Contents

variable {heap later : VmHeap} {id : ℕ}

theorem contentAt_of_shrinks (shrinks : Shrinks counted heap later)
    (live : ∃ cell, later.cells id = some cell) : contentAt later id = contentAt heap id := by
  obtain ⟨cell, found⟩ := live
  obtain ⟨earlier, isEarlier, same⟩ := shrinks.2 id cell found
  unfold contentAt
  rw [found, isEarlier, same]
  rfl

theorem contentAt_addRef (target : ℕ) :
    contentAt (RefCounting.addRef counted heap target) id = contentAt heap id := by
  unfold contentAt RefCounting.addRef
  by_cases same : id = target
  · subst same
    cases live : heap.cells id with
    | none => simp [Heap.modify, live]
    | some cell =>
        rw [Heap.modify_self live]
        rfl
  · rw [Heap.modify_other same]

theorem contentAt_allocate (live : ∃ cell, heap.cells id = some cell) (alloc : VmAlloc) :
    contentAt (heap.allocate alloc) id = contentAt heap id := by
  obtain ⟨cell, found⟩ := live
  unfold contentAt
  rw [Heap.allocate_other (Nat.ne_of_lt (Heap.lt_limit found))]

theorem live_of_contentAt {content : Content} (found : contentAt heap id = some content) :
    ∃ cell, heap.cells id = some cell ∧ cell.content = content := by
  unfold contentAt at found
  exact Option.map_eq_some_iff.mp found

theorem moduleRefAt_congr (same : contentAt later id = contentAt heap id) :
    moduleRefAt later id = moduleRefAt heap id := by
  unfold moduleRefAt
  rw [same]

theorem mpBaseOf_eq {mpBase : Option ℕ}
    (found : (moduleRefAt heap id).map ModuleRef.mpBase = some mpBase) :
    mpBaseOf heap id = mpBase := by
  obtain ⟨ref, isRef, isBase⟩ := Option.map_eq_some_iff.mp found
  unfold mpBaseOf
  rw [isRef, Option.bind_some, isBase]

end Contents

namespace ThreadState

/-- All references from outside the heap. -/
def references (state : ThreadState) : List ℕ :=
  state.frameRefs ++ state.others ++ state.abandoned ++
    registerRefs state.moduleRef state.mpBase state.suspended

/-- The module references of the registers, with their data. -/
def modules (state : ThreadState) : List (ℕ × Option ℕ) :=
  (state.moduleRef, state.mpBase) ::
    state.suspended.map fun record => (record.moduleRef, record.mpBase)

end ThreadState

/-- The state is sound with further references at hand. -/
structure SafeWith (extra : List ℕ) (state : ThreadState) : Prop where
  sound : Sound counted.toLayout state.heap fun id => (state.references ++ extra).count id
  chained : Chained state.moduleRef state.mpBase state.frames state.suspended
  modules : ∀ pair ∈ state.modules, (moduleRefAt state.heap pair.1).map ModuleRef.mpBase =
    some pair.2
  allocatedAddress : ∀ frame ∈ state.allocated, frame.address = state.frames.length
  untouched : state.touchedFreed = []
  kept : state.failed = false

section Rules

variable {extra : List ℕ} {state : ThreadState}

theorem addRef_eq (state : ThreadState) {id : ℕ}
    (live : ∃ cell, state.heap.cells id = some cell) :
    state.addRef id = { state with heap := RefCounting.addRef counted state.heap id } := by
  obtain ⟨cell, found⟩ := live
  unfold ThreadState.addRef touch
  rw [if_pos (by rw [found]; rfl)]

theorem releaseRefs_eq (state : ThreadState) (pointers : List ℕ) {others : ℕ → ℕ}
    (after : ℕ → ℕ) (sound : Sound counted.toLayout state.heap others)
    (dropped : ∀ id, after id + pointers.count id = others id) :
    ∃ later, state.releaseRefs pointers = { state with heap := later } ∧
      Sound counted.toLayout later after ∧ Shrinks counted state.heap later := by
  obtain ⟨later, released, laterSound, shrinks⟩ := release_sound sound dropped
  refine ⟨later, ?_, laterSound, shrinks⟩
  unfold releaseRefs
  rw [released]
  rfl

theorem SafeWith.live (safe : SafeWith extra state) {id : ℕ}
    (member : id ∈ state.references ++ extra) : ∃ cell, state.heap.cells id = some cell :=
  safe.sound.live_of_outside (List.count_pos_iff.mpr member)

theorem Chained.mem_modules {moduleRef : ℕ} {mpBase : Option ℕ} {frames : List Frame}
    {suspended : List Suspension} (chained : Chained moduleRef mpBase frames suspended)
    {pair : ℕ × Option ℕ} (member : pair ∈ (moduleRef, mpBase) ::
      suspended.map fun record => (record.moduleRef, record.mpBase)) :
    pair.1 ∈ registerRefs moduleRef mpBase suspended := by
  rcases List.mem_cons.mp member with rfl | inRecords
  · exact List.mem_append_left _ List.mem_cons_self
  · obtain ⟨record, isRecord, rfl⟩ := List.mem_map.mp inRecords
    exact chained.mem_registerRefs isRecord

/-- Module references that stay in the heap keep their data. -/
theorem modules_of_shrinks {heap later : VmHeap} {pairs : List (ℕ × Option ℕ)}
    (modules : ∀ pair ∈ pairs, (moduleRefAt heap pair.1).map ModuleRef.mpBase = some pair.2)
    (shrinks : Shrinks counted heap later)
    (live : ∀ pair ∈ pairs, ∃ cell, later.cells pair.1 = some cell) :
    ∀ pair ∈ pairs, (moduleRefAt later pair.1).map ModuleRef.mpBase = some pair.2 := by
  intro pair member
  rw [moduleRefAt_congr (contentAt_of_shrinks shrinks (live pair member))]
  exact modules pair member

theorem SafeWith.moduleRef_mem (safe : SafeWith extra state) {pair : ℕ × Option ℕ}
    (member : pair ∈ state.modules) : pair.1 ∈ state.references :=
  List.mem_append_right _ (safe.chained.mem_modules member)

/-- The heap changes and keeps what the cells contain. -/
theorem SafeWith.setHeap (safe : SafeWith extra state) {later : VmHeap} {extra' : List ℕ}
    (sound : Sound counted.toLayout later fun id => (state.references ++ extra').count id)
    (kept : ∀ id, (∃ cell, later.cells id = some cell) → (∃ cell, state.heap.cells id = some cell) →
      moduleRefAt later id = moduleRefAt state.heap id) :
    SafeWith extra' { state with heap := later } where
  sound := sound
  chained := safe.chained
  modules pair member := by
    have inReferences := safe.moduleRef_mem member
    have laterLive : ∃ cell, later.cells pair.1 = some cell :=
      sound.live_of_outside (List.count_pos_iff.mpr (List.mem_append_left _ inReferences))
    show (moduleRefAt later pair.1).map ModuleRef.mpBase = some pair.2
    rw [kept pair.1 laterLive (safe.live (List.mem_append_left _ inReferences))]
    exact safe.modules pair member
  allocatedAddress := safe.allocatedAddress
  untouched := safe.untouched
  kept := safe.kept

/-- The order of the further references does not matter. -/
theorem SafeWith.perm (safe : SafeWith extra state) (extra' : List ℕ)
    (same : ∀ id, extra'.count id = extra.count id) : SafeWith extra' state where
  sound := safe.sound.congr fun id => by
    rw [List.count_append, List.count_append, same id]
  chained := safe.chained
  modules := safe.modules
  allocatedAddress := safe.allocatedAddress
  untouched := safe.untouched
  kept := safe.kept

theorem SafeWith.addRef (safe : SafeWith extra state) {id : ℕ}
    (live : ∃ cell, state.heap.cells id = some cell) :
    SafeWith (id :: extra) (state.addRef id) := by
  rw [addRef_eq state live]
  obtain ⟨cell, found⟩ := live
  refine safe.setHeap (addRef_sound safe.sound found fun target => ?_) fun other _ _ => ?_
  · rw [List.count_append, List.count_append, count_cons_single]
    omega
  · exact moduleRefAt_congr (contentAt_addRef id)

theorem SafeWith.release {pointers : List ℕ} (safe : SafeWith (pointers ++ extra) state) :
    ∃ later, state.releaseRefs pointers = { state with heap := later } ∧
      SafeWith extra { state with heap := later } ∧ Shrinks counted state.heap later := by
  obtain ⟨later, released, sound, shrinks⟩ :=
    releaseRefs_eq state pointers (fun id => (state.references ++ extra).count id) safe.sound
      fun id => by
        simp only [List.count_append]
        omega
  refine ⟨later, released, safe.setHeap sound fun id live _ => ?_, shrinks⟩
  exact moduleRefAt_congr (contentAt_of_shrinks shrinks live)

end Rules

section Leaving

variable {extra : List ℕ} {state : ThreadState} {frame caller : Frame} {rest : List Frame}
  {record : Suspension} {earlier : List Suspension}

/-- A frame goes with its data and the module reference that it has saved. -/
theorem popFrame_eq (state : ThreadState) {others : ℕ → ℕ} (after : ℕ → ℕ)
    (isTop : state.frames = frame :: rest)
    (linked : frame.prevFrame.isSome = true ∨ rest = [])
    (sound : Sound counted.toLayout state.heap others)
    (dropped : ∀ id, after id + (frame.prevModuleRef.toList ++ frame.pointers).count id =
      others id) :
    ∃ later, state.popFrame = { state with
        heap := later
        frames := rest
        allocated := none
        abandoned := (state.allocated.map Frame.pointers).getD [] ++ state.abandoned
        suspended := state.suspended.tail } ∧
      Sound counted.toLayout later after ∧ Shrinks counted state.heap later := by
  have remaining : (if frame.prevFrame.isSome then rest else []) = rest := by
    rcases linked with isSome | isLast
    · rw [if_pos isSome]
    · rw [isLast, ite_self]
  unfold popFrame
  rw [isTop]
  dsimp only
  rw [remaining]
  let popped : ThreadState := { state with
    frames := rest
    allocated := none
    abandoned := (state.allocated.map Frame.pointers).getD [] ++ state.abandoned
    suspended := state.suspended.tail }
  obtain ⟨middle, isMiddle, middleSound, first⟩ := releaseRefs_eq popped
    frame.prevModuleRef.toList (fun id => after id + frame.pointers.count id) sound fun id => by
      have balance := dropped id
      rw [List.count_append] at balance
      omega
  obtain ⟨later, isLater, laterSound, second⟩ :=
    releaseRefs_eq { popped with heap := middle } frame.pointers after middleSound fun id => rfl
  refine ⟨later, ?_, laterSound, first.trans second⟩
  show (popped.releaseRefs frame.prevModuleRef.toList).releaseRefs frame.pointers = _
  rw [isMiddle, isLater]

/-- The registers are those of a saved module reference again. -/
theorem leaveModule_eq (state : ThreadState) {others : ℕ → ℕ} (after : ℕ → ℕ) {saved : ℕ}
    (isTop : state.frames = frame :: rest)
    (isSaved : frame.prevModuleRef = some saved)
    (sound : Sound counted.toLayout state.heap others)
    (dropped : ∀ id, after id + (state.moduleRef :: state.mpBase.toList).count id = others id)
    (referenced : 0 < after saved) :
    ∃ later, state.leaveModule = { state with
        heap := later
        moduleRef := saved
        mpBase := mpBaseOf later saved
        frames := { frame with prevModuleRef := none } :: rest } ∧
      Sound counted.toLayout later after ∧ Shrinks counted state.heap later := by
  obtain ⟨middle, isMiddle, middleSound, first⟩ := releaseRefs_eq state
    [state.moduleRef] (fun id => after id + state.mpBase.toList.count id) sound fun id => by
      have balance := dropped id
      rw [count_cons_single] at balance
      rw [count_cons_single, List.count_nil]
      omega
  let restored : ThreadState := { state with
    heap := middle
    moduleRef := saved
    frames := { frame with prevModuleRef := none } :: rest }
  obtain ⟨later, isLater, laterSound, second⟩ := releaseRefs_eq restored
    state.mpBase.toList after middleSound fun id => rfl
  refine ⟨later, ?_, laterSound, first.trans second⟩
  obtain ⟨cell, live⟩ := laterSound.live_of_outside referenced
  have isReleased : state.decRefCountAndFree (some state.moduleRef) =
      { state with heap := middle } := isMiddle
  have isRestored : ({ ({ state with heap := middle } : ThreadState).modifyTop
      (fun frame => { frame with prevModuleRef := none }) with moduleRef := saved } :
        ThreadState) = restored := by
    simp only [modifyTop, isTop, List.modifyHead_cons, restored]
  have isDropped : restored.decRefCountAndFree state.mpBase =
      { restored with heap := later } := isLater
  unfold leaveModule
  rw [isTop, List.head?_cons, Option.bind_some, isSaved]
  dsimp only
  rw [isReleased, isRestored]
  show ({ (restored.decRefCountAndFree state.mpBase).touch saved with
    mpBase := mpBaseOf (restored.decRefCountAndFree state.mpBase).heap saved } :
      ThreadState) = _
  rw [isDropped]
  unfold touch
  rw [if_pos (by rw [live]; rfl)]

/-- The first frame has no caller. -/
theorem leave_first (safe : SafeWith extra state) (isTop : state.frames = [frame])
    (nothing : state.allocated = none) :
    ∃ later, state.leaveModule.popFrame =
        { state with heap := later, frames := [], allocated := none } ∧
      SafeWith extra { state with heap := later, frames := [], allocated := none } ∧
      Shrinks counted state.heap later := by
  obtain ⟨isRecords, -, prevModuleRef⟩ := Chained.ofFirst (isTop ▸ safe.chained)
  have stays : state.leaveModule = state := by
    unfold leaveModule
    rw [isTop, List.head?_cons, Option.bind_some, prevModuleRef]
  let left : ThreadState := { state with frames := [], allocated := none }
  obtain ⟨later, popped, sound, shrinks⟩ := popFrame_eq state
    (fun id => (left.references ++ extra).count id) isTop (Or.inr rfl) safe.sound fun id => by
      simp only [references, frameRefs, left, isTop, nothing, prevModuleRef,
        Option.toList_none, List.nil_append, List.flatMap_cons, List.flatMap_nil,
        List.append_nil, List.count_append]
      omega
  have isPopped : state.leaveModule.popFrame = { left with heap := later } := by
    rw [stays, popped, nothing, isRecords]
    simp only [left]
    rfl
  have isLeft : SafeWith extra { left with heap := later } := {
    sound := sound
    chained := by
      show Chained state.moduleRef state.mpBase [] state.suspended
      rw [isRecords]
      exact Chained.empty _ _
    modules := modules_of_shrinks safe.modules shrinks fun pair member =>
      sound.live_of_outside (List.count_pos_iff.mpr (List.mem_append_left _
        (List.mem_append_right _ (safe.chained.mem_modules member))))
    allocatedAddress := fun _ member => absurd member (Option.not_mem_none _)
    untouched := safe.untouched
    kept := safe.kept }
  exact ⟨later, isPopped, isLeft, shrinks⟩

/-- The caller of the top frame has its registers back. -/
theorem leave_called (safe : SafeWith extra state) (isTop : state.frames = frame :: caller :: rest)
    (isRecord : state.suspended = record :: earlier) (nothing : state.allocated = none) :
    ∃ later, state.leaveModule.popFrame = { state with
        heap := later
        moduleRef := record.moduleRef
        mpBase := record.mpBase
        frames := caller :: rest
        allocated := none
        suspended := earlier } ∧
      SafeWith extra { state with
        heap := later
        moduleRef := record.moduleRef
        mpBase := record.mpBase
        frames := caller :: rest
        allocated := none
        suspended := earlier } ∧
      Shrinks counted state.heap later := by
  have chained := safe.chained
  rw [isTop, isRecord] at chained
  obtain ⟨found, others, isFound, records, same, below⟩ := chained.ofCalled
  cases isFound
  have linked : frame.prevFrame.isSome = true := by
    rw [records.prevFrame]
    rfl
  let left : ThreadState := { state with
    moduleRef := record.moduleRef
    mpBase := record.mpBase
    frames := caller :: rest
    allocated := none
    suspended := earlier }
  have ownModules : ∀ pair ∈ left.modules, pair ∈ state.modules := by
    intro pair member
    unfold ThreadState.modules
    rw [isRecord, List.map_cons]
    exact List.mem_cons_of_mem _ member
  suffices popped : ∃ later, state.leaveModule.popFrame = { left with heap := later } ∧
      Sound counted.toLayout later (fun id => (left.references ++ extra).count id) ∧
      Shrinks counted state.heap later by
    obtain ⟨later, isPopped, sound, shrinks⟩ := popped
    refine ⟨later, isPopped, ?_, shrinks⟩
    exact {
      sound := sound
      chained := below
      modules := modules_of_shrinks (fun pair member => safe.modules pair (ownModules pair member))
        shrinks fun pair member =>
          sound.live_of_outside (List.count_pos_iff.mpr (List.mem_append_left _
            (List.mem_append_right _ (below.mem_modules member))))
      allocatedAddress := fun _ member => absurd member (Option.not_mem_none _)
      untouched := safe.untouched
      kept := safe.kept }
  cases isCrossed : record.crossed with
  | false =>
      obtain ⟨isRef, isBase⟩ := same isCrossed
      have prevModuleRef : frame.prevModuleRef = none := by
        rw [records.prevModuleRef, isCrossed, if_neg Bool.false_ne_true]
      have stays : state.leaveModule = state := by
        unfold leaveModule
        rw [isTop, List.head?_cons, Option.bind_some, prevModuleRef]
      obtain ⟨later, popped, sound, shrinks⟩ := popFrame_eq state
        (fun id => (left.references ++ extra).count id) isTop (Or.inl linked) safe.sound
        fun id => by
          simp only [references, frameRefs, registerRefs, left, isTop, isRecord, nothing,
            prevModuleRef, isRef, isBase, Suspension.saved, isCrossed, Option.toList_none,
            List.nil_append, List.flatMap_cons, List.count_append, Bool.false_eq_true,
            if_false]
          omega
      refine ⟨later, ?_, sound, shrinks⟩
      rw [stays, popped, nothing, isRecord, List.tail_cons]
      simp only [left, isRef, isBase]
      rfl
  | true =>
      have prevModuleRef : frame.prevModuleRef = some record.moduleRef := by
        rw [records.prevModuleRef, isCrossed, if_pos rfl]
      obtain ⟨middle, isLeft, middleSound, first⟩ := leaveModule_eq state
        (fun id => (left.references ++ extra).count id + frame.pointers.count id) isTop
        prevModuleRef safe.sound (fun id => by
          simp only [references, frameRefs, registerRefs, left, isTop, isRecord, nothing,
            Suspension.saved, isCrossed, Option.toList_none, List.nil_append,
            List.flatMap_cons, List.count_append, if_true]
          omega)
        (Nat.lt_of_lt_of_le (List.count_pos_iff.mpr (List.mem_append_left _
          (List.mem_append_right _ List.mem_cons_self))) (Nat.le_add_right _ _))
      obtain ⟨later, popped, sound, second⟩ := popFrame_eq
        { state with
          heap := middle
          moduleRef := record.moduleRef
          mpBase := mpBaseOf middle record.moduleRef
          frames := { frame with prevModuleRef := none } :: caller :: rest }
        (fun id => (left.references ++ extra).count id) rfl (Or.inl linked) middleSound
        fun id => rfl
      have isBase : mpBaseOf middle record.moduleRef = record.mpBase := by
        have found := safe.modules (record.moduleRef, record.mpBase)
          (ownModules _ List.mem_cons_self)
        have referenced : 0 < (left.references ++ extra).count record.moduleRef +
            frame.pointers.count record.moduleRef :=
          Nat.lt_of_lt_of_le (List.count_pos_iff.mpr (List.mem_append_left _
            (List.mem_append_right _ List.mem_cons_self))) (Nat.le_add_right _ _)
        have live := middleSound.live_of_outside referenced
        rw [← moduleRefAt_congr (contentAt_of_shrinks first live)] at found
        exact mpBaseOf_eq found
      refine ⟨later, ?_, sound, first.trans second⟩
      rw [isLeft, popped, nothing, isRecord, List.tail_cons, isBase]
      rfl

end Leaving

end Disvm.ModuleCalls
