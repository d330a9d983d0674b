import Disvm.ResumedFrames

/-!
# The end of a thread

The destructor of the registers releases the current module reference and the
current module data, and each frame of the stack then releases its data and the
module reference that it has saved.  What is left are the references that only
the return from a frame would have released.
-/

namespace Disvm.ModuleCalls

open RefCounting ThreadState

/-- The module data that a suspended frame of another module refers to. -/
def Suspension.data (record : Suspension) : List ℕ :=
  if record.crossed then record.mpBase.toList else []

namespace ThreadState

/-- The references that the destructors do not release. -/
def unreleased (state : ThreadState) : List ℕ :=
  state.suspended.flatMap Suspension.data ++ state.allocated.toList.flatMap Frame.pointers ++
    state.abandoned

/-- After the end of the thread the counts are those of the references of the rest
of the program, and no freed allocation has been accessed. -/
def TornDown (state : ThreadState) : Prop :=
  Sound counted.toLayout state.teardown.heap (fun id => state.others.count id) ∧
    state.teardown.touchedFreed = []

/-- No frame that has saved a module reference belongs to a module with data, no
allocated frame that has not been pushed holds a pointer, and no exception of a
built-in function has ended the thread. -/
def Settled (state : ThreadState) : Prop :=
  (∀ frame ∈ state.frames, ∀ saved ∈ frame.prevModuleRef, mpBaseOf state.heap saved = none) ∧
    (∀ frame ∈ state.allocated, frame.pointers = []) ∧ state.abandoned = []

end ThreadState

section Teardown

variable {moduleRef : ℕ} {mpBase : Option ℕ} {frames : List Frame}
  {suspended : List Suspension} {state : ThreadState}

/-- What the records stand for is saved in the frames, module data apart. -/
theorem Chained.count_saved (chained : Chained moduleRef mpBase frames suspended) (id : ℕ) :
    (suspended.flatMap Suspension.saved).count id =
      (frames.flatMap fun frame => frame.prevModuleRef.toList).count id +
        (suspended.flatMap Suspension.data).count id := by
  induction chained with
  | empty => rfl
  | first _ _ _ _ prevModuleRef =>
      rw [List.flatMap_cons, prevModuleRef]
      rfl
  | @called _ _ callee caller frames record earlier _ records _ below ih =>
      have isSaved : record.saved =
          if record.crossed then record.moduleRef :: record.mpBase.toList else [] := rfl
      have isData : record.data = if record.crossed then record.mpBase.toList else [] := rfl
      simp only [List.flatMap_cons, List.count_append] at ih ⊢
      rw [records.prevModuleRef, isSaved, isData]
      cases record.crossed with
      | false =>
          simp only [Bool.false_eq_true, if_false, Option.toList_none, List.count_nil]
          omega
      | true =>
          simp only [if_true, Option.toList_some, count_cons_single, List.count_nil]
          omega

/-- The frames go one after the other. -/
theorem popFrames_spec (state : ThreadState) (after : ℕ → ℕ)
    (chained : Chained moduleRef mpBase frames suspended) (isTop : state.frames = frames)
    {others : ℕ → ℕ}
    (sound : Sound counted.toLayout state.heap others)
    (dropped : ∀ id, after id + ((frames.flatMap fun frame => frame.prevModuleRef.toList).count id +
      (frames.flatMap Frame.pointers).count id) = others id) :
    Sound counted.toLayout
        ((fun popped : ThreadState => popped.popFrame)^[frames.length] state).heap after ∧
      ((fun popped : ThreadState => popped.popFrame)^[frames.length] state).touchedFreed =
        state.touchedFreed := by
  induction chained generalizing state others with
  | empty => exact ⟨sound.congr fun id => dropped id, rfl⟩
  | @first _ _ frame _ _ _ =>
      obtain ⟨later, popped, isSound, -⟩ := popFrame_eq state after isTop (Or.inr rfl) sound
        fun id => by
          have balance := dropped id
          simp only [List.flatMap_cons, List.flatMap_nil, List.append_nil] at balance
          rw [List.count_append]
          omega
      simp only [List.length_singleton, Function.iterate_one]
      rw [popped]
      exact ⟨isSound, rfl⟩
  | @called _ _ callee caller frames record earlier _ records _ below ih =>
      have linked : callee.prevFrame.isSome = true := by
        rw [records.prevFrame]
        rfl
      obtain ⟨later, popped, isSound, -⟩ := popFrame_eq state
        (fun id => after id +
          (((caller :: frames).flatMap fun frame => frame.prevModuleRef.toList).count id +
            ((caller :: frames).flatMap Frame.pointers).count id)) isTop (Or.inl linked) sound
        fun id => by
          have balance := dropped id
          rw [List.flatMap_cons, List.count_append, List.flatMap_cons (f := Frame.pointers),
            List.count_append] at balance
          rw [List.count_append]
          omega
      rw [List.length_cons, Function.iterate_succ_apply]
      have isBelow : state.popFrame.frames = caller :: frames := by rw [popped]
      have rest := ih state.popFrame isBelow (by rw [popped]; exact isSound) fun id => rfl
      refine ⟨rest.1, rest.2.trans ?_⟩
      rw [popped]

theorem teardown_spec (safe : SafeWith [] state) :
    Sound counted.toLayout state.teardown.heap
        (fun id => (state.others ++ state.unreleased).count id) ∧
      state.teardown.touchedFreed = [] := by
  obtain ⟨middle, isMiddle, middleSound, -⟩ := releaseRefs_eq state state.mpBase.toList
    (fun id => (state.frameRefs ++ state.others ++ state.abandoned ++
      (state.moduleRef :: state.suspended.flatMap Suspension.saved)).count id)
    safe.sound fun id => by
      simp only [references, registerRefs, List.append_nil, List.count_append,
        count_cons_single]
      omega
  obtain ⟨later, isLater, laterSound, -⟩ := releaseRefs_eq { state with heap := middle }
    [state.moduleRef]
    (fun id => (state.frameRefs ++ state.others ++ state.abandoned ++
      state.suspended.flatMap Suspension.saved).count id)
    middleSound fun id => by
      simp only [List.count_append, count_cons_single, List.count_nil]
      omega
  have isReleased : (state.decRefCountAndFree state.mpBase).decRefCountAndFree
      (some state.moduleRef) = { state with heap := later } := by
    show (state.releaseRefs state.mpBase.toList).releaseRefs [state.moduleRef] = _
    rw [isMiddle, isLater]
  have isTeardown : state.teardown =
      (fun popped : ThreadState => popped.popFrame)^[state.frames.length]
        { state with heap := later } := by
    rw [← isReleased]
    rfl
  rw [isTeardown]
  obtain ⟨isSound, untouched⟩ := popFrames_spec { state with heap := later }
    (fun id => (state.others ++ state.unreleased).count id) safe.chained rfl laterSound
    fun id => by
      have saved := safe.chained.count_saved id
      simp only [unreleased, frameRefs, List.flatMap_append, List.count_append]
      omega
  exact ⟨isSound, untouched.trans safe.untouched⟩

/-- What suspended frames leave is the data of the modules that they have saved. -/
theorem Chained.data_eq_nil_iff {heap : VmHeap}
    (chained : Chained moduleRef mpBase frames suspended)
    (modules : ∀ record ∈ suspended,
      (moduleRefAt heap record.moduleRef).map ModuleRef.mpBase = some record.mpBase) :
    suspended.flatMap Suspension.data = [] ↔
      ∀ frame ∈ frames, ∀ saved ∈ frame.prevModuleRef, mpBaseOf heap saved = none := by
  induction chained with
  | empty => simp
  | first _ _ _ _ prevModuleRef =>
      refine iff_of_true rfl fun frame member saved isSaved => ?_
      cases List.mem_singleton.mp member
      rw [prevModuleRef] at isSaved
      cases isSaved
  | @called _ _ callee caller frames record earlier _ records _ below ih =>
      have isData : record.data = if record.crossed then record.mpBase.toList else [] := rfl
      have isBase := mpBaseOf_eq (modules record List.mem_cons_self)
      have rest := ih fun other member => modules other (List.mem_cons_of_mem _ member)
      have isCons : (∀ frame ∈ callee :: caller :: frames, ∀ saved ∈ frame.prevModuleRef,
          mpBaseOf heap saved = none) ↔ (∀ saved ∈ callee.prevModuleRef,
            mpBaseOf heap saved = none) ∧ ∀ frame ∈ caller :: frames,
              ∀ saved ∈ frame.prevModuleRef, mpBaseOf heap saved = none := List.forall_mem_cons
      rw [List.flatMap_cons, List.append_eq_nil_iff, rest, isCons, isData,
        records.prevModuleRef]
      refine and_congr_left fun _ => ?_
      cases record.crossed with
      | false => simp
      | true =>
          simp only [if_true, Option.toList_eq_nil_iff, Option.mem_def, Option.some.injEq,
            forall_eq']
          rw [isBase]

theorem unreleased_eq_nil_iff (safe : SafeWith [] state) :
    state.unreleased = [] ↔ state.Settled := by
  have isData := safe.chained.data_eq_nil_iff fun record member =>
    safe.modules (record.moduleRef, record.mpBase)
      (List.mem_cons_of_mem _ (List.mem_map.mpr ⟨record, member, rfl⟩))
  unfold unreleased Settled
  rw [List.append_eq_nil_iff, List.append_eq_nil_iff, isData, and_assoc]
  refine and_congr_right fun _ => and_congr_left fun _ => ?_
  rw [List.flatMap_eq_nil_iff]
  simp only [Option.mem_toList, Option.mem_def]

/-- In runs that neither lose an allocated frame nor overwrite saved links, the
destructors release everything if and only if nothing is left that only a return
or a handler would have released. -/
theorem tornDown_iff (reached : state.Reached) : state.TornDown ↔ state.Settled := by
  have safe := (safe_of_reached reached).safeWith
  obtain ⟨isSound, untouched⟩ := teardown_spec safe
  rw [← unreleased_eq_nil_iff safe]
  constructor
  · rintro ⟨others, -⟩
    rw [List.eq_nil_iff_forall_not_mem]
    intro id member
    have withAll := (isSound id).symm.trans (others id)
    have counted' := List.count_pos_iff.mpr member
    simp only [List.count_append] at withAll
    omega
  · intro nothing
    rw [nothing, List.append_nil] at isSound
    exact ⟨isSound, untouched⟩

end Teardown

theorem step_exit {state : ThreadState} (running : state.control = .running) :
    state.step .exit = some state.stop := by
  unfold step
  rw [running]
  rfl

/-- A module with data that can call itself as another module. -/
def withData : ModuleRef where
  module :=
    { builtin := false, originalMp := some 0, typeSection := [onePointer], handlerSection := [],
      builtinWithoutData := fun builtin => absurd builtin Bool.false_ne_true }
  functionRefs := [{ entryPc := 3, frameType := 0 }]
  mpBase := some 0
  builtinWithoutData := fun builtin => absurd builtin Bool.false_ne_true

/-- Its thread is started with the module reference in the first frame. -/
def withDataThread : ThreadState :=
  start ((Heap.empty.allocate ⟨1, .data []⟩).allocate ⟨1, .moduleRef withData⟩) [1] 1 onePointer
    (fun _ => some 1) 0

/-- The module reference is the only one to the data. -/
theorem withData_sound : Sound counted.toLayout
    ((Heap.empty.allocate (⟨1, .data []⟩ : VmAlloc)).allocate ⟨1, .moduleRef withData⟩)
    fun id => [1].count id := by
  have first : Sound counted.toLayout (Heap.empty.allocate (⟨1, .data []⟩ : VmAlloc))
      fun id => [0].count id :=
    Sound.allocateFirst rfl rfl
  refine first.allocateWith rfl fun id => ?_
  show [1].count id + [0].count id = [0].count id + single 1 id
  rw [count_cons_single [] id, List.count_nil]
  omega

theorem initial_withDataThread : withDataThread.Initial := by
  refine ⟨_, [1], 1, withData, onePointer, fun _ => some 1, 0, withData_sound, rfl, ?_, rfl⟩
  intro offset _ id isSlot
  cases isSlot
  exact ⟨⟨1, .moduleRef withData⟩, rfl⟩

/-- A module without data, whose frames have one pointer. -/
def withoutData : ModuleRef :=
  guardedRef none

/-- Its thread has the other module reference in the first frame. -/
def withoutDataThread : ThreadState :=
  start (((Heap.empty.allocate ⟨1, .data []⟩).allocate ⟨1, .moduleRef withData⟩).allocate
    ⟨1, .moduleRef withoutData⟩) [1, 2] 2 onePointer (fun _ => some 1) 0

theorem initial_withoutDataThread : withoutDataThread.Initial := by
  refine ⟨_, [1, 2], 2, withoutData, onePointer, fun _ => some 1, 0, ?_, rfl, ?_, rfl⟩
  · apply Sound.congr (withData_sound.allocateNext rfl rfl)
    exact (List.Perm.swap 2 1 []).count_eq
  · intro offset _ id isSlot
    cases isSlot
    exact ⟨⟨1, .moduleRef withData⟩, rfl⟩

/-- A thread that ends in a function of another module, with a string in the frame
of that function. -/
theorem tornDown_acrossModules :
    ∃ state : ThreadState, state.Reached ∧ state.control = .ended ∧
      state.frames.map Frame.prevModuleRef = [some 2, none] ∧
      state.frames.map Frame.pointers = [[3], [1]] ∧ state.TornDown := by
  let prepared := (withoutDataThread.step (.mframe (.slot 0 4) 0)).get (by decide)
  let called := (prepared.step (.mcall (.slot 0 4) 0)).get (by decide)
  let stored := (called.step (.store (.string [0x61]) (.slot 0 4))).get (by decide)
  have isPending : prepared.allocated.isSome = true := by decide
  have isTarget : prepared.targetModule (.slot 0 4) = some (some (1, withData)) := rfl
  have reachedPrepared : prepared.Reached :=
    (Transition.Reachable.start initial_withoutDataThread).next
      ⟨.mframe (.slot 0 4) 0, rfl, (Option.some_get _).symm⟩
  have permitted : prepared.Permitted (.mcall (.slot 0 4) 0) := by
    refine ⟨isPending, fun id ref found _ => ?_⟩
    rw [isTarget] at found
    cases found
    rfl
  have reachedCalled : called.Reached :=
    reachedPrepared.next ⟨.mcall (.slot 0 4) 0, permitted, (Option.some_get _).symm⟩
  have reachedStored : stored.Reached :=
    reachedCalled.next ⟨.store (.string [0x61]) (.slot 0 4), trivial, (Option.some_get _).symm⟩
  have isStopped : stored.step .exit = some stored.stop := step_exit (by decide)
  have reachedStopped : stored.stop.Reached := reachedStored.next ⟨.exit, trivial, isStopped⟩
  refine ⟨stored.stop, reachedStopped, rfl, by decide, by decide,
    (tornDown_iff reachedStopped).mpr ⟨?_, by decide, by decide⟩⟩
  have isSaved : ∀ frame ∈ stored.stop.frames, ∀ saved ∈ frame.prevModuleRef, saved = 2 := by
    decide
  intro frame member saved found
  rw [isSaved frame member saved found]
  rfl

/-- A thread that ends in a function of another module keeps the data of its own. -/
theorem data_kept_after_exit :
    ∃ state : ThreadState, state.Reached ∧ state.control = .ended ∧ ¬ state.TornDown := by
  let prepared := (withDataThread.step (.mframe (.slot 0 4) 0)).get (by decide)
  let called := (prepared.step (.mcall (.slot 0 4) 0)).get (by decide)
  have isPending : prepared.allocated.isSome = true := by decide
  have isTarget : prepared.targetModule (.slot 0 4) = some (some (1, withData)) := rfl
  have reachedPrepared : prepared.Reached :=
    (Transition.Reachable.start initial_withDataThread).next
      ⟨.mframe (.slot 0 4) 0, rfl, (Option.some_get _).symm⟩
  have permitted : prepared.Permitted (.mcall (.slot 0 4) 0) := by
    refine ⟨isPending, fun id ref found _ => ?_⟩
    rw [isTarget] at found
    cases found
    rfl
  have reachedCalled : called.Reached :=
    reachedPrepared.next ⟨.mcall (.slot 0 4) 0, permitted, (Option.some_get _).symm⟩
  have isStopped : called.step .exit = some called.stop := step_exit (by decide)
  have reachedStopped : called.stop.Reached := reachedCalled.next ⟨.exit, trivial, isStopped⟩
  refine ⟨called.stop, reachedStopped, rfl, fun tornDown => ?_⟩
  obtain ⟨isSound, -⟩ := teardown_spec (safe_of_reached reachedStopped).safeWith
  have balance := (isSound 0).symm.trans (tornDown.1 0)
  have isLeft : called.stop.unreleased.count 0 = 1 := by decide
  simp only [List.count_append, isLeft] at balance
  omega

end Disvm.ModuleCalls
