import Disvm.GarbageCollector
import Disvm.SlotReferences

/-!
# Reference counts and the collector are safe together

The collector is one more holder of a counted reference to every allocation
that it tracks.  With its references and those being released counted, every
step moves references only, so the heap stays sound and nothing that a step
reads has been freed.
-/

namespace Disvm.GarbageCollector

open RefCounting GcState

variable {mutators : ℕ}

theorem total_update (lists : Fin mutators → List ℕ) (mutator : Fin mutators)
    (list : List ℕ) (id : ℕ) :
    total (Function.update lists mutator list) id + (lists mutator).count id =
      total lists id + list.count id := by
  have changed := sum_update (fun other => (lists other).count id) mutator (list.count id)
  have same : (fun other => (Function.update lists mutator list other).count id) =
      Function.update (fun other => (lists other).count id) mutator (list.count id) := by
    funext other
    by_cases isOne : other = mutator
    · subst isOne
      rw [Function.update_self, Function.update_self]
    · rw [Function.update_of_ne isOne, Function.update_of_ne isOne]
  unfold total
  rw [same]
  exact changed

theorem total_pos {lists : Fin mutators → List ℕ} {mutator : Fin mutators} {id : ℕ}
    (member : id ∈ lists mutator) : 0 < total lists id := by
  have counted : 0 < (lists mutator).count id := List.count_pos_iff.mpr member
  exact Nat.lt_of_lt_of_le counted
    (Finset.single_le_sum (f := fun other => (lists other).count id)
      (fun _ _ => Nat.zero_le _) (Finset.mem_univ mutator))

theorem count_erase_single {list : List ℕ} {id : ℕ} (member : id ∈ list) (target : ℕ) :
    (list.erase id).count target + single id target = list.count target := by
  have split := (List.perm_cons_erase member).count_eq target
  rw [count_cons_single] at split
  exact split.symm

theorem count_without {list : List ℕ} {value : Option ℕ} (holds : ∀ id ∈ value, id ∈ list)
    (target : ℕ) :
    (without list value).count target + value.toList.count target = list.count target := by
  cases value with
  | none => rfl
  | some id =>
      have erased := count_erase_single (holds id rfl) target
      rw [Option.toList_some, count_cons_single, List.count_nil, Nat.zero_add]
      exact erased

/-- All references from outside the heap, those of the collector included. -/
def outside (state : GcState mutators) (id : ℕ) : ℕ :=
  total state.held id + total state.releasing id + state.sweepReleasing.count id +
    state.tracked.count id

/-- A pointer is nil or designates an allocation in the heap. -/
def Live (heap : VmHeap) (pointer : Option ℕ) : Prop :=
  ∀ id ∈ pointer, (heap.cells id).isSome = true

structure Safe (state : GcState mutators) : Prop where
  sound : Sound layout state.heap (outside state)
  nodup : state.tracked.Nodup
  marking : ∀ stack, state.phase = .marking stack →
    ∀ entry ∈ stack, Live state.heap entry
  untouched : state.touchedFreed = false

namespace Safe

variable {state after : GcState mutators}

theorem start : Safe (init : GcState mutators) where
  sound := by
    refine Sound.empty.congr fun id => ?_
    simp [outside, init, total, sweepReleasing, tracked]
  nodup := List.nodup_nil
  marking := by simp [init]
  untouched := rfl

theorem refCount (safe : Safe state) {id : ℕ} {alloc : VmAlloc}
    (live : state.heap.cells id = some alloc) :
    alloc.refCount = state.references id + if id ∈ state.tracked then 1 else 0 := by
  have counted : alloc.refCount = _ := safe.sound.refCount live
  have once : state.tracked.count id = if id ∈ state.tracked then 1 else 0 := by
    split
    · rename_i member
      exact List.count_eq_one_of_mem safe.nodup member
    · rename_i absent
      exact List.count_eq_zero.mpr absent
  rw [counted, ← once, outside, references]
  omega

theorem live_of_references (safe : Safe state) {id : ℕ}
    (referenced : 0 < state.references id) :
    ∃ alloc, state.heap.cells id = some alloc := by
  refine safe.sound.live ?_
  unfold references at referenced
  unfold outside
  omega

theorem live_of_tracked (safe : Safe state) {id : ℕ} (member : id ∈ state.tracked) :
    ∃ alloc, state.heap.cells id = some alloc := by
  refine safe.sound.live_of_outside ?_
  have counted : 0 < state.tracked.count id := List.count_pos_iff.mpr member
  unfold outside
  omega

end Safe

theorem outside_idle {state : GcState mutators} (idle : state.phase = .idle) (id : ℕ) :
    outside state id =
      total state.held id + total state.releasing id + state.trackingAllocs.count id := by
  simp [outside, sweepReleasing, tracked, idle]

theorem nodup_of_idle {state : GcState mutators} (safe : Safe state)
    (idle : state.phase = .idle) : state.trackingAllocs.Nodup := by
  have nodup := safe.nodup
  rwa [tracked, idle] at nodup

/-- A step between collections keeps the invariant when it moves references
soundly. -/
theorem safe_of_idle {before after : GcState mutators} (safe : Safe before)
    (idle : before.phase = .idle) (same : after.phase = before.phase)
    (touched : after.touchedFreed = before.touchedFreed)
    (nodup : before.trackingAllocs.Nodup → after.trackingAllocs.Nodup)
    (sound : Sound layout after.heap fun id =>
      total after.held id + total after.releasing id + after.trackingAllocs.count id) :
    Safe after where
  sound := sound.congr (outside_idle (same.trans idle))
  nodup := by
    rw [tracked, same, idle]
    exact nodup (nodup_of_idle safe idle)
  marking stack marks := by
    rw [same, idle] at marks
    cases marks
  untouched := touched.trans safe.untouched

/-- The next reference is released: the allocation stays, or its own
references are released next. -/
theorem decRefCountAndFree_spec {heap : VmHeap} {others : ℕ → ℕ} {id : ℕ}
    (sound : Sound layout heap others) (held : 0 < others id) (rest : List ℕ) :
    ∃ later releasing, decRefCountAndFree heap id rest = some (later, releasing) ∧
      ∀ after : ℕ → ℕ, (∀ target, after target + (id :: rest).count target =
        others target + releasing.count target) → Sound layout later after := by
  obtain ⟨alloc, live⟩ := sound.live_of_outside held
  have counted : alloc.refCount = incoming layout heap id + others id := sound.refCount live
  by_cases last : alloc.refCount = 1
  · refine ⟨heap.erase id, alloc.pointers ++ rest, by simp [decRefCountAndFree, live, last],
      fun after moved => sound.free live last fun target => ?_⟩
    have balance := moved target
    rw [count_cons_single, List.count_append] at balance
    simp only [layout]
    omega
  · refine ⟨heap.modify id VmAlloc.release, rest, by simp [decRefCountAndFree, live, last],
      fun after moved => sound.dropRef live ?_ rfl fun target => ?_⟩
    · simp only [layout, VmAlloc.release]
      omega
    · have balance := moved target
      rw [count_cons_single] at balance
      omega

section Mutators

variable {before : GcState mutators} {mutator : Fin mutators}

theorem safe_allocate (safe : Safe before) (idle : before.phase = .idle)
    (kind : AllocKind) (slotCount : ℕ) :
    Safe (before.allocate mutator kind slotCount) := by
  refine safe_of_idle safe idle rfl rfl (fun nodup => nodup) ?_
  refine safe.sound.allocate rfl ?_ fun target => ?_
  · simp [layout, VmAlloc.pointers, VmAlloc.create, List.reduceOption_replicate_none]
  · have moved := total_update before.held mutator
      (before.heap.limit :: before.held mutator) target
    rw [count_cons_single] at moved
    rw [outside_idle idle]
    simp only [GcState.allocate, hold]
    omega

theorem safe_addRef (safe : Safe before) (idle : before.phase = .idle) {id : ℕ}
    (referenced : 0 < before.references id) : Safe (before.addRef mutator id) := by
  obtain ⟨alloc, live⟩ := safe.live_of_references referenced
  simp only [GcState.addRef, live]
  refine safe_of_idle safe idle rfl rfl (fun nodup => nodup) ?_
  refine safe.sound.addRef live rfl rfl fun target => ?_
  have moved := total_update before.held mutator (id :: before.held mutator) target
  rw [count_cons_single] at moved
  rw [outside_idle idle]
  simp only [hold]
  omega

theorem safe_removeRef (safe : Safe before) (idle : before.phase = .idle) {id : ℕ}
    (holds : id ∈ before.held mutator) : Safe (before.removeRef mutator id) := by
  refine safe_of_idle safe idle rfl rfl (fun nodup => nodup) ?_
  refine safe.sound.congr fun target => ?_
  have given := total_update before.held mutator ((before.held mutator).erase id) target
  have taken := total_update before.releasing mutator (id :: before.releasing mutator) target
  have erased := count_erase_single holds target
  rw [count_cons_single] at taken
  rw [outside_idle idle]
  simp only [removeRef, hold]
  omega

theorem safe_releaseNext (safe : Safe before) (idle : before.phase = .idle) {id : ℕ}
    {rest : List ℕ} (next : before.releasing mutator = id :: rest) :
    Safe (before.releaseNext mutator id rest) := by
  have held : 0 < outside before id := by
    have counted : 0 < total before.releasing id :=
      total_pos (by rw [next]; exact List.mem_cons_self)
    rw [outside_idle idle]
    omega
  obtain ⟨heap, releasing, decremented, sound⟩ := decRefCountAndFree_spec safe.sound held rest
  simp only [GcState.releaseNext, decremented]
  refine safe_of_idle safe idle rfl rfl (fun nodup => nodup) ?_
  refine sound _ fun target => ?_
  have moved := total_update before.releasing mutator releasing target
  rw [outside_idle idle, ← next]
  dsimp only
  omega

theorem safe_swapSlot (safe : Safe before) (idle : before.phase = .idle)
    {owner index : ℕ} {value : Option ℕ} (referenced : 0 < before.references owner)
    (holds : ∀ id ∈ value, id ∈ before.held mutator)
    (inside : ∀ alloc ∈ before.heap.cells owner, index < alloc.slots.length) :
    Safe (before.swapSlot mutator owner index value) := by
  obtain ⟨alloc, live⟩ := safe.live_of_references referenced
  simp only [GcState.swapSlot, live]
  refine safe_of_idle safe idle rfl rfl (fun nodup => nodup) ?_
  refine safe.sound.modify live _ fun target => ?_
  have moved := count_reduceOption_set (inside alloc live) value target
  have left := count_without holds target
  have given := total_update before.held mutator
    ((alloc.slots[index]?.join).toList ++ without (before.held mutator) value) target
  rw [outside_idle idle]
  simp only [layout, VmAlloc.pointers, VmAlloc.setSlot, hold, List.count_append] at given moved ⊢
  omega

theorem safe_trackAllocation (safe : Safe before) (idle : before.phase = .idle) {id : ℕ}
    (referenced : 0 < before.references id) (untracked : id ∉ before.trackingAllocs) :
    Safe (before.trackAllocation id) := by
  obtain ⟨alloc, live⟩ := safe.live_of_references referenced
  simp only [GcState.trackAllocation, live]
  refine safe_of_idle safe idle rfl rfl
    (fun nodup => List.nodup_cons.mpr ⟨untracked, nodup⟩) ?_
  refine safe.sound.addRef live rfl rfl fun target => ?_
  rw [outside_idle idle, count_cons_single]
  dsimp only
  omega

theorem safe_mutate (safe : Safe before) (idle : before.phase = .idle)
    {mutation : Mutation} {after : GcState mutators}
    (mutated : before.mutate mutator mutation = some after) : Safe after := by
  cases mutation with
  | allocate kind slotCount =>
      cases mutated
      exact safe_allocate safe idle kind slotCount
  | addRef id =>
      simp only [mutate, Option.ite_none_right_eq_some, Option.some.injEq] at mutated
      obtain ⟨referenced, rfl⟩ := mutated
      exact safe_addRef safe idle referenced
  | removeRef id =>
      simp only [mutate, Option.ite_none_right_eq_some, Option.some.injEq] at mutated
      obtain ⟨holds, rfl⟩ := mutated
      exact safe_removeRef safe idle holds
  | releaseNext =>
      simp only [mutate] at mutated
      cases next : before.releasing mutator with
      | nil => simp [next] at mutated
      | cons id rest =>
          simp only [next, Option.some.injEq] at mutated
          exact mutated ▸ safe_releaseNext safe idle next
  | swapSlot owner index value =>
      simp only [mutate, Option.ite_none_right_eq_some, Option.some.injEq] at mutated
      obtain ⟨⟨referenced, holds, inside⟩, rfl⟩ := mutated
      exact safe_swapSlot safe idle referenced holds inside
  | trackAllocation id =>
      simp only [mutate, Option.ite_none_right_eq_some, Option.some.injEq] at mutated
      obtain ⟨⟨referenced, untracked⟩, rfl⟩ := mutated
      exact safe_trackAllocation safe idle referenced untracked

end Mutators

theorem live_of_mem_reduceOption {heap : VmHeap} {pointers : List (Option ℕ)}
    (live : ∀ id ∈ pointers.reduceOption, (heap.cells id).isSome = true) :
    ∀ pointer ∈ pointers, Live heap pointer := by
  rintro _ member id rfl
  exact live id (List.reduceOption_mem_iff.mpr member)

theorem markPointerMaybe_spec {heap : VmHeap} {stack : MarkStack} {pointer : Option ℕ}
    (colour : GcColour) (stackLive : ∀ entry ∈ stack, Live heap entry)
    (live : Live heap pointer) :
    ∃ pushed, markPointerMaybe heap colour stack pointer = some pushed ∧
      ∀ entry ∈ pushed, Live heap entry := by
  cases pointer with
  | none => exact ⟨stack, rfl, stackLive⟩
  | some id =>
      obtain ⟨alloc, found⟩ := Option.isSome_iff_exists.mp (live id rfl)
      simp only [markPointerMaybe, found]
      split
      · refine ⟨some id :: stack, rfl, fun entry member => ?_⟩
        rcases List.mem_cons.mp member with rfl | below
        · exact live
        · exact stackLive entry below
      · exact ⟨stack, rfl, stackLive⟩

/-- A fold of partial steps keeps what every step keeps. -/
theorem foldlM_spec {Item State : Type*} {keeps : State → Prop}
    {advance : State → Item → Option State} {items : List Item} {start : State}
    (established : keeps start)
    (preserved : ∀ state item, item ∈ items → keeps state →
      ∃ next, advance state item = some next ∧ keeps next) :
    ∃ last, items.foldlM advance start = some last ∧ keeps last := by
  induction items generalizing start with
  | nil => exact ⟨start, rfl, established⟩
  | cons item items ih =>
      obtain ⟨next, advanced, kept⟩ := preserved start item List.mem_cons_self established
      obtain ⟨last, folded, final⟩ := ih kept fun state other member =>
        preserved state other (List.mem_cons_of_mem item member)
      refine ⟨last, ?_, final⟩
      rw [List.foldlM_cons, advanced]
      exact folded

theorem markPointerFields_spec {heap : VmHeap} {stack : MarkStack}
    {fields : List (Option ℕ)} (colour : GcColour)
    (stackLive : ∀ entry ∈ stack, Live heap entry)
    (live : ∀ pointer ∈ fields, Live heap pointer) :
    ∃ pushed, markPointerFields heap colour stack fields = some pushed ∧
      ∀ entry ∈ pushed, Live heap entry :=
  foldlM_spec stackLive fun _ pointer member kept =>
    markPointerMaybe_spec colour kept (live pointer member)

theorem markThread_spec {heap : VmHeap} {stack : MarkStack} {thread : ThreadRoots}
    (colour : GcColour) (stackLive : ∀ entry ∈ stack, Live heap entry)
    (live : ∀ pointer ∈ thread.pointers, Live heap pointer) :
    ∃ pushed, markThread heap colour stack thread = some pushed ∧
      ∀ entry ∈ pushed, Live heap entry := by
  refine foldlM_spec ?_ fun middle frame member middleLive => ?_
  · intro entry member
    rcases List.mem_cons.mp member with rfl | below
    · exact live _ List.mem_cons_self
    · exact stackLive entry below
  · have frameLive : ∀ pointer ∈ frame.prevModuleData.toList ++ frame.pointers,
        Live heap pointer := fun pointer inFrame =>
      live pointer (List.mem_cons_of_mem _ (List.mem_flatMap.mpr ⟨frame, member, inFrame⟩))
    refine markPointerFields_spec colour ?_ fun pointer inFields =>
      frameLive pointer (List.mem_append_right _ inFields)
    intro entry inStack
    rcases List.mem_append.mp inStack with isSaved | below
    · exact frameLive entry (List.mem_append_left _ isSaved)
    · exact middleLive entry below

theorem markThreads_spec {heap : VmHeap} {threads : List ThreadRoots} (colour : GcColour)
    (live : ∀ thread ∈ threads, ∀ pointer ∈ thread.pointers, Live heap pointer) :
    ∃ pushed, markThreads heap colour threads = some pushed ∧
      ∀ entry ∈ pushed, Live heap entry :=
  foldlM_spec (by simp) fun _ thread member kept =>
    markThread_spec colour kept (live thread member)

section Collector

variable {before : GcState mutators}

theorem safe_startCollect (safe : Safe before) (idle : before.phase = .idle)
    {threads : List ThreadRoots}
    (referenced : ∀ thread ∈ threads, ∀ id ∈ thread.pointers.reduceOption,
      0 < before.references id) :
    Safe (before.startCollect threads) := by
  unfold GcState.startCollect
  split
  · exact safe
  · have live : ∀ thread ∈ threads, ∀ pointer ∈ thread.pointers,
        Live before.heap pointer := by
      intro thread member
      refine live_of_mem_reduceOption fun id designated => ?_
      exact Option.isSome_iff_exists.mpr
        (safe.live_of_references (referenced thread member id designated))
    obtain ⟨stack, marked, stackLive⟩ := markThreads_spec
      (getCurrentColour before.collectionEpoch) live
    have nodup := nodup_of_idle safe idle
    rw [marked]
    refine ⟨safe.sound.congr fun id => ?_, ?_, ?_, safe.untouched⟩
    · rw [outside_idle idle]
      simp [outside, sweepReleasing, tracked]
    · exact nodup
    · rintro _ ⟨⟩
      exact stackLive

theorem safe_markNext (safe : Safe before) {current : Option ℕ} {stack : MarkStack}
    (marking : before.phase = .marking (current :: stack)) :
    Safe (before.markNext current stack) := by
  have stackLive := safe.marking _ marking
  have nodup := safe.nodup
  rw [tracked, marking] at nodup
  cases current with
  | none =>
      refine ⟨safe.sound.congr fun id => ?_, nodup, (by rintro _ ⟨⟩), safe.untouched⟩
      simp [outside, sweepReleasing, tracked, marking, GcState.markNext]
  | some id =>
      obtain ⟨alloc, live⟩ :=
        Option.isSome_iff_exists.mp (stackLive _ List.mem_cons_self id rfl)
      let colour := getCurrentColour before.collectionEpoch
      let coloured := before.heap.modify id (VmAlloc.setGcColour colour)
      have still : ∀ pointer, Live before.heap pointer → Live coloured pointer := by
        intro pointer earlier other isPointer
        rw [Heap.modify_isSome]
        exact earlier other isPointer
      have fieldsLive : ∀ pointer ∈ alloc.mappedFields, Live before.heap pointer := by
        rintro _ member other rfl
        refine Option.isSome_iff_exists.mpr (safe.sound.live_of_refs live
          (List.reduceOption_mem_iff.mpr ?_))
        revert member
        unfold VmAlloc.mappedFields
        split <;> simp
      obtain ⟨pushed, marked, pushedLive⟩ := markPointerFields_spec colour
        (fun entry member => still entry (stackLive entry (List.mem_cons_of_mem _ member)))
        (fun pointer member => still pointer (fieldsLive pointer member))
      unfold GcState.markNext
      simp only [live]
      rw [marked]
      refine ⟨(safe.sound.keep live rfl rfl).congr fun other => ?_, nodup, ?_, safe.untouched⟩
      · simp [outside, sweepReleasing, tracked, marking]
      · rintro _ ⟨⟩
        exact pushedLive

theorem safe_startSweep (safe : Safe before) (marking : before.phase = .marking []) :
    Safe { before with phase := .sweeping [] before.trackingAllocs [] } where
  sound := safe.sound.congr fun id => by
    simp [outside, sweepReleasing, tracked, marking]
  nodup := by
    have nodup := safe.nodup
    rwa [tracked, marking] at nodup
  marking _ marks := by cases marks
  untouched := safe.untouched

theorem safe_sweepNext (safe : Safe before) {kept remaining : List ℕ} {id : ℕ}
    (sweeping : before.phase = .sweeping kept (id :: remaining) []) :
    Safe (before.sweepNext kept id remaining) := by
  have member : id ∈ before.tracked := by simp [tracked, sweeping]
  obtain ⟨alloc, live⟩ := safe.live_of_tracked member
  have nodup : (kept ++ id :: remaining).Nodup := by
    have nodup := safe.nodup
    rwa [tracked, sweeping] at nodup
  simp only [GcState.sweepNext, live]
  split
  · refine ⟨safe.sound.congr fun target => ?_, ?_, (by simp), safe.untouched⟩
    · simp only [outside, sweepReleasing, tracked, sweeping, List.count_append,
        count_cons_single, List.count_nil]
      omega
    · exact nodup.sublist ((List.sublist_cons_self id remaining).append_left kept)
  · refine ⟨safe.sound.congr fun target => ?_, ?_, (by simp), safe.untouched⟩
    · simp only [outside, sweepReleasing, tracked, sweeping, List.count_append,
        count_cons_single, List.count_nil]
      omega
    · simpa only [tracked, List.append_assoc, List.singleton_append] using nodup

theorem safe_sweepRelease (safe : Safe before) {kept remaining rest : List ℕ} {id : ℕ}
    (sweeping : before.phase = .sweeping kept remaining (id :: rest)) :
    Safe (before.sweepRelease kept remaining id rest) := by
  have held : 0 < outside before id := by
    simp [outside, sweepReleasing, sweeping]
  obtain ⟨heap, releasing, decremented, sound⟩ := decRefCountAndFree_spec safe.sound held rest
  have nodup := safe.nodup
  rw [tracked, sweeping] at nodup
  simp only [GcState.sweepRelease, decremented]
  refine ⟨sound _ fun target => ?_, nodup, (by simp), safe.untouched⟩
  simp only [outside, sweepReleasing, tracked, sweeping]
  omega

theorem safe_endCollect (safe : Safe before) {kept : List ℕ}
    (sweeping : before.phase = .sweeping kept [] []) : Safe (before.endCollect kept) where
  sound := safe.sound.congr fun id => by
    simp [outside, sweepReleasing, tracked, sweeping, endCollect]
  nodup := by
    have nodup : (kept ++ []).Nodup := by
      have nodup := safe.nodup
      rwa [tracked, sweeping] at nodup
    rwa [List.append_nil] at nodup
  marking _ marks := by cases marks
  untouched := safe.untouched

theorem safe_collectNext (safe : Safe before) {after : GcState mutators}
    (collected : before.collectNext = some after) : Safe after := by
  unfold GcState.collectNext at collected
  cases phase : before.phase with
  | idle | crashed => simp [phase] at collected
  | marking stack =>
      cases stack with
      | nil =>
          simp only [phase, Option.some.injEq] at collected
          exact collected ▸ safe_startSweep safe phase
      | cons current stack =>
          simp only [phase, Option.some.injEq] at collected
          exact collected ▸ safe_markNext safe phase
  | sweeping kept remaining releasing =>
      cases releasing with
      | cons id rest =>
          simp only [phase, Option.some.injEq] at collected
          exact collected ▸ safe_sweepRelease safe phase
      | nil =>
          cases remaining with
          | cons id remaining =>
              simp only [phase, Option.some.injEq] at collected
              exact collected ▸ safe_sweepNext safe phase
          | nil =>
              simp only [phase, Option.some.injEq] at collected
              exact collected ▸ safe_endCollect safe phase

end Collector

theorem safe_step {before after : GcState mutators} (safe : Safe before)
    {action : Action mutators} (stepped : before.step action = some after) : Safe after := by
  cases action with
  | mutate mutator mutation =>
      simp only [step, Option.ite_none_right_eq_some] at stepped
      exact safe_mutate safe stepped.1 stepped.2
  | startCollect threads =>
      simp only [step, Option.ite_none_right_eq_some, Option.some.injEq] at stepped
      obtain ⟨⟨idle, _, referenced⟩, rfl⟩ := stepped
      exact safe_startCollect safe idle referenced
  | collectNext => exact safe_collectNext safe stepped

/-- The states of mutators and collector in any run. -/
def Reached : GcState mutators → Prop :=
  Transition.Reachable (· = init) (Transition.StepsBy (fun _ _ => True) step)

theorem safe_of_reached {state : GcState mutators} (reached : Reached state) :
    Safe state := by
  refine Transition.Reachable.invariant Safe ?_ ?_ reached
  · rintro first rfl
    exact Safe.start
  · rintro before after _ safe ⟨action, -, stepped⟩
    exact safe_step safe stepped

theorem reached_of_replay {actions : List (Action mutators)} {last : GcState mutators}
    (replayed : Transition.execute step init actions = some last) : Reached last :=
  Transition.reachable_of_execute (Transition.Reachable.start rfl)
    (fun _ _ _ => trivial) replayed

/-- In every state of every run each count is the number of counted references
and one more for a tracked allocation, whatever is referenced is in the heap,
so is the allocation that the sweep examines or releases next, and nothing
freed has been touched. -/
theorem counts_exact {state : GcState mutators} (reached : Reached state) :
    (∀ id alloc, state.heap.cells id = some alloc →
      alloc.refCount = state.references id + if id ∈ state.tracked then 1 else 0) ∧
    (∀ id, 0 < state.references id → ∃ alloc, state.heap.cells id = some alloc) ∧
    (∀ kept id remaining, state.phase = .sweeping kept (id :: remaining) [] →
      ∃ alloc, state.heap.cells id = some alloc) ∧
    (∀ kept remaining id rest, state.phase = .sweeping kept remaining (id :: rest) →
      ∃ alloc, state.heap.cells id = some alloc) ∧
    state.touchedFreed = false := by
  have safe := safe_of_reached reached
  refine ⟨fun id alloc live => safe.refCount live, fun id => safe.live_of_references,
    fun kept id remaining sweeping => ?_, fun kept remaining id rest sweeping => ?_,
    safe.untouched⟩
  · exact safe.live_of_tracked (by simp [tracked, sweeping])
  · refine safe.live_of_references ?_
    simp [references, sweepReleasing, sweeping]

/-- Two tracked allocations, the first of which holds the only reference to the
second, are left by their mutator; the third collection has swept the second
while the first is still to be examined. -/
def nestedSweep : List (Action 1) :=
  let collect : List (Action 1) :=
    [.startCollect [], .collectNext, .collectNext, .collectNext, .collectNext]
  [.mutate 0 (.allocate .adt 1), .mutate 0 (.trackAllocation 0),
    .mutate 0 (.allocate .adt 0), .mutate 0 (.swapSlot 0 0 (some 1)),
    .mutate 0 (.trackAllocation 1), .mutate 0 (.removeRef 0), .mutate 0 .releaseNext] ++
  collect ++ [.startCollect [], .collectNext, .collectNext, .collectNext, .collectNext] ++
  [.startCollect [], .collectNext, .collectNext, .collectNext]

/-- A mutation in a system with one mutator. -/
def solely (mutation : Mutation) : Action 1 :=
  .mutate 0 mutation

theorem counts_exact_nestedSweep :
    ∃ state : GcState 1, Transition.execute step init nestedSweep = some state ∧
      state.phase = .sweeping [] [0] [] ∧ state.touchedFreed = false := by
  refine ⟨(Transition.execute step init nestedSweep).get (by decide),
    (Option.some_get _).symm, by decide, ?_⟩
  exact (counts_exact (reached_of_replay (Option.some_get _).symm)).2.2.2.2

end Disvm.GarbageCollector
