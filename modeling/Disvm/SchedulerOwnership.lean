import Disvm.SchedulerRuns

/-!
# Where the VM threads are

Every VM thread that has not ended is in the runnable queue, in the blocked
collection or with one worker.  The collections together with the workers are
a custody of threads, and every step of the scheduler is one of its transfers.
-/

namespace Disvm.Scheduler

open SchedulerState
open Custody (Change Transfer)

variable {workers : ℕ}

namespace SchedulerState

/-- The collections and the threads that the workers hold. -/
def custody (scheduler : SchedulerState workers) : Custody (Fin workers) ThreadId where
  queue := scheduler.runnableVmThreadIds
  parked := scheduler.blockedVmThreadIds
  held worker := (scheduler.control worker).held

/-- A thread that has crashed and that its worker has given up. -/
def Ended (scheduler : SchedulerState workers) (thread : ThreadId) : Prop :=
  scheduler.currentThreadState thread = .broken ∧
    ∀ worker, (scheduler.control worker).held ≠ some thread

end SchedulerState

theorem held_update (control : Fin workers → Control) (worker : Fin workers)
    (next : Control) :
    (fun other => (Function.update control worker next other).held) =
      Function.update (fun other => (control other).held) worker next.held := by
  funext other
  by_cases same : other = worker
  · simp [same]
  · simp [same]

theorem held_update_same {control : Fin workers → Control} {worker : Fin workers}
    {next : Control} (same : next.held = (control worker).held) :
    (fun other => (Function.update control worker next other).held) =
      fun other => (control other).held := by
  rw [held_update, same]
  exact Function.update_eq_self worker fun other => (control other).held

theorem held_startWorker (control : Control) : (startWorker control).held = control.held := by
  cases control <;> rfl

theorem Control.held_of_isFree {control : Control} (free : control.isFree = true) :
    control.held = none := by
  cases control <;> first | rfl | cases free

/-- The states that the thread of a worker can have. -/
def Control.fits : Control → VmThreadState → Bool
  | .acquiring _, state => state ≠ .broken
  | .executing _, state | .crashed _, state => state = .running
  | .requesting _, state | .unblocking _ _ _, state => state.isBlocked
  | .returning _, state =>
      state.isBlocked || [.ready, .debug, .exiting, .emptyStack, .broken].contains state
  | _, _ => true

theorem fits_startWorker (control : Control) (state : VmThreadState) :
    (startWorker control).fits state = control.fits state := by
  cases control <;> rfl

/-- How threads are distributed, and what their states tell about it. -/
structure Placed (scheduler : SchedulerState workers) : Prop where
  counted : scheduler.runningVmThreadCount = (Custody.busy scheduler.custody.held).card
  inside : ∀ thread ∈ scheduler.allVmThreads,
    scheduler.custody.places thread = 1 ∨
      scheduler.custody.places thread = 0 ∧ scheduler.currentThreadState thread = .broken
  outside : ∀ thread, thread ∉ scheduler.allVmThreads →
    scheduler.custody.places thread = 0
  known : scheduler.allVmThreads ⊆ scheduler.scheduled
  fits : ∀ worker thread, (scheduler.control worker).held = some thread →
    (scheduler.control worker).fits (scheduler.currentThreadState thread) = true
  queued : ∀ thread ∈ scheduler.runnableVmThreadIds,
    scheduler.currentThreadState thread ≠ .broken
  parked : ∀ thread ∈ scheduler.blockedVmThreadIds,
    (scheduler.currentThreadState thread).isBlocked = true
  crashed : ∀ thread, scheduler.currentThreadState thread = .broken →
    thread ∈ scheduler.scheduled

namespace Placed

variable {before after scheduler : SchedulerState workers}

theorem atMostOnce (placed : Placed scheduler) (thread : ThreadId) :
    scheduler.custody.places thread ≤ 1 := by
  by_cases member : thread ∈ scheduler.allVmThreads
  · rcases placed.inside thread member with once | ⟨absent, _⟩ <;> omega
  · have absent := placed.outside thread member
    omega

theorem mem_of_held (placed : Placed scheduler) {worker : Fin workers}
    {thread : ThreadId} (holds : (scheduler.control worker).held = some thread) :
    thread ∈ scheduler.allVmThreads := by
  by_contra outside
  exact (Custody.places_eq_zero.mp (placed.outside thread outside)).2.2 worker holds

/-- A thread that a worker holds is nowhere else. -/
theorem alone (placed : Placed scheduler) {worker : Fin workers} {thread : ThreadId}
    (holds : (scheduler.control worker).held = some thread) :
    thread ∉ scheduler.runnableVmThreadIds ∧ thread ∉ scheduler.blockedVmThreadIds ∧
      ∀ other, (scheduler.control other).held = some thread → other = worker :=
  Custody.of_held (placed.atMostOnce thread) holds

theorem running_pos (placed : Placed scheduler) {worker : Fin workers}
    {thread : ThreadId} (holds : (scheduler.control worker).held = some thread) :
    0 < scheduler.runningVmThreadCount := by
  rw [placed.counted, Finset.card_pos]
  exact ⟨worker, Custody.mem_busy.mpr (by simp [custody, holds])⟩

end Placed

/-- A step is a transfer of threads; a crashed thread that is dropped stays in
`_all_vm_threads`. -/
structure Handoff (before after : SchedulerState workers) (change : Change ThreadId) :
    Prop where
  transfer : Transfer before.custody change after.custody
  counted : after.runningVmThreadCount + change.returned =
    before.runningVmThreadCount + change.taken
  members : ∀ thread, thread ∈ after.allVmThreads ↔
    thread ∈ before.allVmThreads ∧
        (change.dropped thread = 1 → after.currentThreadState thread = .broken) ∨
      change.arrived thread = 1
  fresh : ∀ thread, change.arrived thread = 1 → thread ∉ before.allVmThreads

theorem handoff_keep {before after : SchedulerState workers}
    (custody : after.custody = before.custody)
    (running : after.runningVmThreadCount = before.runningVmThreadCount)
    (members : after.allVmThreads = before.allVmThreads) :
    Handoff before after .keep where
  transfer := custody ▸ .keep
  counted := by rw [running]; rfl
  members := by simp [members, Change.dropped, Change.arrived]
  fresh := by simp [Change.arrived]

/-- A worker that keeps its thread, or has none, moves no thread. -/
theorem handoff_control {before after : SchedulerState workers} {worker : Fin workers}
    {next : Control} {held : Option ThreadId}
    (control : after.control = Function.update before.control worker next)
    (holds : (before.control worker).held = held) (still : next.held = held)
    (queue : after.runnableVmThreadIds = before.runnableVmThreadIds)
    (parked : after.blockedVmThreadIds = before.blockedVmThreadIds)
    (running : after.runningVmThreadCount = before.runningVmThreadCount)
    (members : after.allVmThreads = before.allVmThreads) :
    Handoff before after .keep := by
  refine handoff_keep ?_ running members
  simp only [custody, queue, parked, control]
  rw [held_update_same (still.trans holds.symm)]

/-- A worker gives its thread up to some collection. -/
theorem handoff_giveBack {before after : SchedulerState workers} {worker : Fin workers}
    {thread : ThreadId} {next : Control} {change : Change ThreadId}
    (placed : Placed before) (holds : (before.control worker).held = some thread)
    (idle : next.held = none)
    (control : after.control = Function.update before.control worker next)
    (transfer : Transfer before.custody change
      { queue := after.runnableVmThreadIds
        parked := after.blockedVmThreadIds
        held := Function.update before.custody.held worker none })
    (returned : change.returned = 1) (taken : change.taken = 0)
    (running : after.runningVmThreadCount = before.runningVmThreadCount - 1)
    (arrived : ∀ other, change.arrived other = 0)
    (members : ∀ other, other ∈ after.allVmThreads ↔ other ∈ before.allVmThreads ∧
      (change.dropped other = 1 → after.currentThreadState other = .broken)) :
    Handoff before after change where
  transfer := by
    have moved : after.custody =
        { queue := after.runnableVmThreadIds
          parked := after.blockedVmThreadIds
          held := Function.update before.custody.held worker none } := by
      simp only [custody, control]
      rw [held_update, idle]
    exact moved ▸ transfer
  counted := by
    have positive := placed.running_pos holds
    omega
  members other := by simp [members other, arrived other]
  fresh other isArrived := by simp [arrived other] at isArrived

theorem handoff_of_advance {before after : SchedulerState workers} {worker : Fin workers}
    (placed : Placed before) (advanced : Advance before worker after) :
    ∃ change, Handoff before after change := by
  cases advanced with
  | wait next gcComplete free nextFree =>
      exact ⟨.keep, handoff_control rfl (Control.held_of_isFree free)
        (Control.held_of_isFree nextFree) rfl rfl rfl rfl⟩
  | startCollect control lockFree noneRunning =>
      have same : (before.control worker).held = none := by rw [control]; rfl
      exact ⟨.keep, handoff_control rfl same rfl rfl rfl rfl rfl⟩
  | startPicking free lockFree =>
      have same := Control.held_of_isFree free
      exact ⟨.keep, handoff_control rfl same rfl rfl rfl rfl rfl⟩
  | finishCollect threads control =>
      have same : (before.control worker).held = none := by rw [control]; rfl
      exact ⟨.keep, handoff_control rfl same rfl rfl rfl rfl rfl⟩
  | pick thread rest control front =>
      have idle : before.custody.held worker = none := by simp [custody, control, Control.held]
      refine ⟨.take thread, ?_, rfl, fun other => ?_, fun other isArrived => ?_⟩
      · simp only [custody, setControl, held_update]
        exact .take worker thread rest idle front
      · simp [setControl, Change.dropped, Change.arrived]
      · simp [Change.arrived] at isArrived
  | pickNone next control nextFree =>
      have same : (before.control worker).held = none := by rw [control]; rfl
      exact ⟨.keep, handoff_control rfl same (Control.held_of_isFree nextFree)
        rfl rfl rfl rfl⟩
  | takeOwnership thread control free =>
      have same : (before.control worker).held = some thread := by rw [control]; rfl
      exact ⟨.keep, handoff_control rfl same rfl rfl rfl rfl rfl⟩
  | found thread peer control known =>
      have same : (before.control worker).held = some thread := by rw [control]; rfl
      exact ⟨.keep, handoff_control rfl same rfl rfl rfl rfl rfl⟩
  | notFound thread peer control unknown =>
      have same : (before.control worker).held = some thread := by rw [control]; rfl
      exact ⟨.keep, handoff_control rfl same rfl rfl rfl rfl rfl⟩
  | unblock thread peer control lockFree free isBlocked =>
      refine ⟨.keep, ?_, rfl, fun other => ?_, fun other isArrived => ?_⟩
      · have same : (Control.unblocking thread peer .notifying).held =
            (before.control worker).held := by rw [control]; rfl
        simp only [custody, setControl, setOwnership, held_update_same same]
        exact .unpark peer isBlocked
      · simp [setControl, setOwnership, Change.dropped, Change.arrived]
      · simp [Change.arrived] at isArrived
  | notBlocked thread peer control lockFree free notBlocked =>
      have same : (before.control worker).held = some thread := by rw [control]; rfl
      exact ⟨.keep, handoff_control rfl same rfl rfl rfl rfl rfl⟩
  | notified thread peer control =>
      have same : (before.control worker).held = some thread := by rw [control]; rfl
      exact ⟨.keep, handoff_control rfl same rfl rfl rfl rfl rfl⟩
  | enqueueRunnable thread control lockFree state =>
      have holds : (before.control worker).held = some thread := by rw [control]; rfl
      refine ⟨.giveBack thread, handoff_giveBack placed holds rfl rfl
        (.requeue worker thread holds) rfl rfl rfl (fun _ => rfl) fun other => ?_⟩
      simp [setControl, Change.dropped]
  | enqueueBlocked thread control lockFree isBlocked =>
      have holds : (before.control worker).held = some thread := by rw [control]; rfl
      refine ⟨.giveBack thread, handoff_giveBack placed holds rfl rfl
        (.park worker thread holds (placed.alone holds).2.1) rfl rfl rfl
        (fun _ => rfl) fun other => ?_⟩
      simp [setControl, Change.dropped]
  | removeThread thread control lockFree state =>
      have holds : (before.control worker).held = some thread := by rw [control]; rfl
      refine ⟨.drop thread, handoff_giveBack placed holds rfl rfl
        (.drop worker thread holds) rfl rfl rfl (fun _ => rfl) fun other => ?_⟩
      have notBroken : before.currentThreadState thread ≠ .broken := by
        rintro broken
        simp [broken] at state
      by_cases same : other = thread
      · simp [setControl, Change.dropped, same, notBroken]
      · simp [setControl, Change.dropped, same]
  | enqueueThrows thread control lockFree state =>
      have holds : (before.control worker).held = some thread := by rw [control]; rfl
      refine ⟨.drop thread, handoff_giveBack placed holds rfl rfl
        (.drop worker thread holds) rfl rfl rfl (fun _ => rfl) fun other => ?_⟩
      have fits := placed.fits worker thread holds
      have broken : before.currentThreadState thread = .broken := by
        cases found : before.currentThreadState thread <;>
          simp_all [Control.fits, VmThreadState.isBlocked]
      by_cases same : other = thread
      · simp [setControl, Change.dropped, same, broken]
      · simp [setControl, Change.dropped, same]
  | release thread control =>
      have same : (before.control worker).held = none := by rw [control]; rfl
      exact ⟨.keep, handoff_control rfl same rfl rfl rfl rfl rfl⟩
  | unwind thread control =>
      have same : (before.control worker).held = none := by rw [control]; rfl
      exact ⟨.keep, handoff_control rfl same rfl rfl rfl rfl rfl⟩

theorem handoff_of_executes {before after : SchedulerState workers} {worker : Fin workers}
    (executed : Executes before worker after) : Handoff before after .keep := by
  cases executed with
  | beginRequest thread _ control | finish thread _ control | crash thread control
  | settle thread control | claimPeer thread _ control | suspend thread control
  | throwException thread control =>
      have same : (before.control worker).held = some thread := by rw [control]; rfl
      exact handoff_control rfl same rfl rfl rfl rfl rfl

theorem handoff_of_edge {before after : SchedulerState workers} (placed : Placed before)
    (edge : Edge before after) : ∃ change, Handoff before after change := by
  cases edge with
  | schedule thread lockFree fresh =>
      refine ⟨.arrive thread, ?_, rfl, fun other => ?_, fun other isArrived => ?_⟩
      · simp only [custody, held_startWorker]
        exact .arrive thread
      · by_cases same : other = thread
        · simp [Change.arrived, same]
        · simp [Change.arrived, Change.dropped, same]
      · have same : other = thread := by simpa [Change.arrived] using isArrived
        exact fun member => fresh (placed.known (same ▸ member))
  | refuse => exact ⟨.keep, handoff_keep rfl rfl rfl⟩
  | advance worker advanced => exact handoff_of_advance placed advanced
  | execute worker executed => exact ⟨.keep, handoff_of_executes executed⟩

namespace Handoff

variable {before after : SchedulerState workers} {change : Change ThreadId}

theorem inside (handoff : Handoff before after change) (placed : Placed before)
    (kept : ∀ thread ∈ before.allVmThreads, before.custody.places thread = 0 →
      after.currentThreadState thread = before.currentThreadState thread)
    {thread : ThreadId} (member : thread ∈ after.allVmThreads) :
    after.custody.places thread = 1 ∨
      after.custody.places thread = 0 ∧ after.currentThreadState thread = .broken := by
  have moved := handoff.transfer.places thread
  have small := change.dropped_add_arrived_le thread
  rcases (handoff.members thread).mp member with ⟨earlier, ended⟩ | arrived
  · have notArrived : change.arrived thread ≠ 1 := fun arrived =>
      handoff.fresh thread arrived earlier
    have most := placed.atMostOnce thread
    by_cases dropped : change.dropped thread = 1
    · exact Or.inr ⟨by omega, ended dropped⟩
    · rcases placed.inside thread earlier with once | ⟨absent, broken⟩
      · exact Or.inl (by omega)
      · exact Or.inr ⟨by omega, (kept thread earlier absent).trans broken⟩
  · have absent := placed.outside thread (handoff.fresh thread arrived)
    exact Or.inl (by omega)

theorem outside (handoff : Handoff before after change) (placed : Placed before)
    {thread : ThreadId} (gone : thread ∉ after.allVmThreads) :
    after.custody.places thread = 0 := by
  have moved := handoff.transfer.places thread
  have small := change.dropped_add_arrived_le thread
  have notMember := fun member => gone ((handoff.members thread).mpr member)
  have notArrived : change.arrived thread ≠ 1 := fun arrived =>
    notMember (Or.inr arrived)
  by_cases earlier : thread ∈ before.allVmThreads
  · have dropped : change.dropped thread = 1 := by
      by_contra notDropped
      exact notMember (Or.inl ⟨earlier, fun dropped => absurd dropped notDropped⟩)
    have most := placed.atMostOnce thread
    omega
  · have absent := placed.outside thread earlier
    omega

theorem counts (handoff : Handoff before after change) (placed : Placed before) :
    after.runningVmThreadCount = (Custody.busy after.custody.held).card := by
  have moved := handoff.transfer.busy
  have counted := handoff.counted
  have earlier := placed.counted
  omega

end Handoff

/-- Only a thread that is being returned can have crashed. -/
theorem Placed.notBroken {scheduler : SchedulerState workers} (placed : Placed scheduler)
    {worker : Fin workers} {thread : ThreadId}
    (holds : (scheduler.control worker).held = some thread)
    (notReturning : scheduler.control worker ≠ .returning thread) :
    scheduler.currentThreadState thread ≠ .broken := by
  intro broken
  have fits := placed.fits worker thread holds
  rw [broken] at fits
  cases control : scheduler.control worker <;>
    simp_all [Control.fits, Control.held, VmThreadState.isBlocked]

/-- A step of a worker changes the state of its own thread only. -/
structure Local (before after : SchedulerState workers) (worker : Fin workers) : Prop where
  control : ∀ other, other ≠ worker → after.control other = before.control other
  states : ∀ thread, (before.control worker).held ≠ some thread →
    after.currentThreadState thread = before.currentThreadState thread
  fits : ∀ thread, (after.control worker).held = some thread →
    (after.control worker).fits (after.currentThreadState thread) = true
  queued : ∀ thread ∈ after.runnableVmThreadIds, thread ∈ before.runnableVmThreadIds ∨
    after.currentThreadState thread ≠ .broken
  parked : ∀ thread ∈ after.blockedVmThreadIds, thread ∈ before.blockedVmThreadIds ∨
    (after.currentThreadState thread).isBlocked = true
  scheduled : after.scheduled = before.scheduled
  shrinks : after.allVmThreads ⊆ before.allVmThreads
  broken : ∀ thread, before.currentThreadState thread = .broken →
    after.currentThreadState thread = .broken

theorem local_of_control {before after : SchedulerState workers} {worker : Fin workers}
    {next : Control} (control : after.control = Function.update before.control worker next)
    (states : after.currentThreadState = before.currentThreadState)
    (fits : ∀ thread, next.held = some thread →
      next.fits (after.currentThreadState thread) = true)
    (queue : after.runnableVmThreadIds = before.runnableVmThreadIds)
    (parked : after.blockedVmThreadIds = before.blockedVmThreadIds)
    (scheduled : after.scheduled = before.scheduled)
    (members : after.allVmThreads = before.allVmThreads) :
    Local before after worker where
  control other isOther := by rw [control, Function.update_of_ne isOther]
  states thread _ := by rw [states]
  fits := by
    rw [control, Function.update_self]
    exact fits
  queued thread member := Or.inl (queue ▸ member)
  parked thread member := Or.inl (parked ▸ member)
  scheduled := scheduled
  shrinks := members ▸ Finset.Subset.refl _
  broken thread isBroken := by rw [states, isBroken]

theorem fits_of_held_none {next : Control} (idle : next.held = none)
    (states : ThreadId → VmThreadState) (thread : ThreadId)
    (holds : next.held = some thread) : next.fits (states thread) = true := by
  rw [idle] at holds
  cases holds

/-- A worker sets the state of the thread it holds. -/
theorem local_of_setState {before after : SchedulerState workers} {worker : Fin workers}
    {own : ThreadId} {state : VmThreadState} {next : Control}
    (placed : Placed before) (holds : (before.control worker).held = some own)
    (notReturning : before.control worker ≠ .returning own)
    (control : after.control = Function.update before.control worker next)
    (states : after.currentThreadState =
      Function.update before.currentThreadState own state)
    (still : next.held = some own) (fits : next.fits state = true)
    (queue : after.runnableVmThreadIds = before.runnableVmThreadIds)
    (parked : after.blockedVmThreadIds = before.blockedVmThreadIds)
    (scheduled : after.scheduled = before.scheduled)
    (members : after.allVmThreads = before.allVmThreads) :
    Local before after worker := by
  have frame : ∀ thread, thread ≠ own →
      after.currentThreadState thread = before.currentThreadState thread := by
    intro thread isOther
    rw [states, Function.update_of_ne isOther]
  refine ⟨?_, ?_, ?_, fun thread => queue ▸ Or.inl, fun thread => parked ▸ Or.inl,
    scheduled, members ▸ Finset.Subset.refl _, ?_⟩
  · intro other isOther
    rw [control, Function.update_of_ne isOther]
  · intro thread notOwn
    refine frame thread ?_
    rintro rfl
    exact notOwn holds
  · intro thread held
    rw [control, Function.update_self] at held ⊢
    rw [still] at held
    cases held
    rw [states, Function.update_self]
    exact fits
  · intro thread isBroken
    rw [frame thread, isBroken]
    rintro rfl
    exact placed.notBroken holds notReturning isBroken

/-- A worker keeps the state of its thread and adds it to a collection. -/
theorem local_of_enqueue {before after : SchedulerState workers} {worker : Fin workers}
    {next : Control} (idle : next.held = none)
    (control : after.control = Function.update before.control worker next)
    (states : after.currentThreadState = before.currentThreadState)
    (queued : ∀ thread ∈ after.runnableVmThreadIds, thread ∈ before.runnableVmThreadIds ∨
      before.currentThreadState thread ≠ .broken)
    (parked : ∀ thread ∈ after.blockedVmThreadIds, thread ∈ before.blockedVmThreadIds ∨
      (before.currentThreadState thread).isBlocked = true)
    (scheduled : after.scheduled = before.scheduled)
    (shrinks : after.allVmThreads ⊆ before.allVmThreads) :
    Local before after worker where
  control other isOther := by rw [control, Function.update_of_ne isOther]
  states thread _ := by rw [states]
  fits := by
    rw [control, Function.update_self]
    exact fits_of_held_none idle _
  queued := states ▸ queued
  parked := states ▸ parked
  scheduled := scheduled
  shrinks := shrinks
  broken thread isBroken := by rw [states, isBroken]

theorem local_of_advance {before after : SchedulerState workers} {worker : Fin workers}
    (placed : Placed before) (advanced : Advance before worker after) :
    Local before after worker := by
  cases advanced with
  | wait next gcComplete free nextFree =>
      exact local_of_control rfl rfl
        (fits_of_held_none (Control.held_of_isFree nextFree) _) rfl rfl rfl rfl
  | startCollect control | startPicking free | finishCollect threads control
  | release thread control | unwind thread control =>
      exact local_of_control rfl rfl (fits_of_held_none rfl _) rfl rfl rfl rfl
  | pickNone next control nextFree =>
      exact local_of_control rfl rfl
        (fits_of_held_none (Control.held_of_isFree nextFree) _) rfl rfl rfl rfl
  | pick thread rest control front =>
      have member : thread ∈ before.runnableVmThreadIds := by simp [front]
      refine ⟨fun other isOther => Function.update_of_ne isOther _ _, fun _ _ => rfl,
        ?_, ?_, fun _ => Or.inl, rfl, Finset.Subset.refl _, fun _ => id⟩
      · simp only [setControl, Function.update_self]
        rintro other ⟨⟩
        simpa [Control.fits] using placed.queued thread member
      · intro other later
        exact Or.inl (front ▸ List.mem_cons_of_mem thread later)
  | takeOwnership thread control | notFound thread _ control
  | notBlocked thread _ control | notified thread _ control =>
      have holds : (before.control worker).held = some thread := by rw [control]; rfl
      exact local_of_setState placed holds (by simp [control]) rfl rfl rfl rfl rfl rfl rfl rfl
  | found thread peer control =>
      have fits := placed.fits worker
      rw [control] at fits
      exact local_of_control rfl rfl fits rfl rfl rfl rfl
  | unblock thread peer control lockFree free isBlocked =>
      refine ⟨fun other isOther => Function.update_of_ne isOther _ _, fun _ _ => rfl,
        ?_, ?_, fun other later => Or.inl (Finset.mem_of_mem_erase later), rfl,
        Finset.Subset.refl _, fun _ => id⟩
      · have fits := placed.fits worker
        rw [control] at fits
        simp only [setControl, Function.update_self]
        exact fits
      · intro other later
        rcases List.mem_append.mp later with earlier | isPeer
        · exact Or.inl earlier
        · refine Or.inr fun broken => ?_
          have blocked := placed.parked peer isBlocked
          rw [← List.mem_singleton.mp isPeer] at blocked
          simp only [setControl, setOwnership] at broken
          simp [broken, VmThreadState.isBlocked] at blocked
  | enqueueRunnable thread control lockFree state =>
      refine local_of_enqueue rfl rfl rfl ?_ (fun _ => Or.inl) rfl (Finset.Subset.refl _)
      intro other later
      rcases List.mem_append.mp later with earlier | isOwn
      · exact Or.inl earlier
      · refine Or.inr fun broken => ?_
        rw [List.mem_singleton.mp isOwn] at broken
        simp [broken] at state
  | enqueueBlocked thread control lockFree isBlocked =>
      refine local_of_enqueue rfl rfl rfl (fun _ => Or.inl) ?_ rfl (Finset.Subset.refl _)
      intro other later
      rcases Finset.mem_insert.mp later with rfl | earlier
      · exact Or.inr isBlocked
      · exact Or.inl earlier
  | removeThread thread control lockFree state =>
      exact local_of_enqueue rfl rfl rfl (fun _ => Or.inl) (fun _ => Or.inl) rfl
        (Finset.erase_subset _ _)
  | enqueueThrows thread control lockFree state =>
      exact local_of_control rfl rfl (fits_of_held_none rfl _) rfl rfl rfl rfl

theorem local_of_executes {before after : SchedulerState workers} {worker : Fin workers}
    (placed : Placed before) (executed : Executes before worker after) :
    Local before after worker := by
  cases executed with
  | beginRequest thread state control isBlocked =>
      have holds : (before.control worker).held = some thread := by rw [control]; rfl
      exact local_of_setState placed holds (by simp [control]) rfl rfl rfl isBlocked rfl rfl rfl rfl
  | finish thread state control ended =>
      have holds : (before.control worker).held = some thread := by rw [control]; rfl
      refine local_of_setState placed holds (by simp [control]) rfl rfl rfl ?_ rfl rfl rfl rfl
      simp only [Control.fits, Bool.or_eq_true, List.contains_iff_mem]
      exact Or.inr ended
  | crash thread control =>
      have fits := placed.fits worker
      rw [control] at fits
      exact local_of_control rfl rfl fits rfl rfl rfl rfl
  | settle thread control | throwException thread control =>
      have holds : (before.control worker).held = some thread := by rw [control]; rfl
      exact local_of_setState placed holds (by simp [control]) rfl rfl rfl rfl rfl rfl rfl rfl
  | claimPeer thread peer control =>
      have fits := placed.fits worker
      rw [control] at fits
      exact local_of_control rfl rfl fits rfl rfl rfl rfl
  | suspend thread control =>
      have fits := placed.fits worker
      rw [control] at fits
      refine local_of_control rfl rfl ?_ rfl rfl rfl rfl
      intro other held
      have blocked := fits other held
      simp only [Control.fits] at blocked ⊢
      simp [setControl, blocked]

/-- The state of a thread that no worker holds is left alone. -/
theorem Local.kept {before after : SchedulerState workers} {worker : Fin workers}
    (islocal : Local before after worker) {thread : ThreadId}
    (free : ∀ other, (before.control other).held ≠ some thread) :
    after.currentThreadState thread = before.currentThreadState thread :=
  islocal.states thread (free worker)

theorem Placed.local {before after : SchedulerState workers} {worker : Fin workers}
    {change : Change ThreadId} (placed : Placed before)
    (handoff : Handoff before after change) (islocal : Local before after worker) :
    Placed after where
  counted := handoff.counts placed
  inside thread := by
    refine handoff.inside placed fun other _ absent => ?_
    exact islocal.kept (Custody.places_eq_zero.mp absent).2.2
  outside thread := handoff.outside placed
  known := by
    rw [islocal.scheduled]
    exact islocal.shrinks.trans placed.known
  fits other thread holds := by
    by_cases same : other = worker
    · subst same
      exact islocal.fits thread holds
    · rw [islocal.control other same] at holds ⊢
      rw [islocal.states thread]
      · exact placed.fits other thread holds
      · intro own
        exact same ((placed.alone own).2.2 other holds)
  queued thread member := by
    rcases islocal.queued thread member with earlier | notBroken
    · rw [islocal.states thread fun own => (placed.alone own).1 earlier]
      exact placed.queued thread earlier
    · exact notBroken
  parked thread member := by
    rcases islocal.parked thread member with earlier | isBlocked
    · rw [islocal.states thread fun own => (placed.alone own).2.1 earlier]
      exact placed.parked thread earlier
    · exact isBlocked
  crashed thread broken := by
    rw [islocal.scheduled]
    by_cases own : (before.control worker).held = some thread
    · exact placed.known (placed.mem_of_held own)
    · exact placed.crashed thread (islocal.states thread own ▸ broken)

theorem Placed.start : Placed (init : SchedulerState workers) where
  counted := by simp [init, custody, Custody.busy, Control.held]
  inside := by simp [init]
  outside thread _ := Custody.places_eq_zero.mpr (by simp [init, custody, Control.held])
  known := Finset.Subset.refl _
  fits := by simp [init, Control.held]
  queued := by simp [init]
  parked := by simp [init]
  crashed := by simp [init]

theorem Placed.edge {before after : SchedulerState workers} (placed : Placed before)
    (edge : Edge before after) : Placed after := by
  obtain ⟨change, handoff⟩ := handoff_of_edge placed edge
  cases edge with
  | schedule thread lockFree fresh =>
      have absent := placed.outside thread fun member => fresh (placed.known member)
      obtain ⟨notQueued, notParked, notHeld⟩ := Custody.places_eq_zero.mp absent
      refine ⟨handoff.counts placed, fun other => handoff.inside placed ?_,
        fun other => handoff.outside placed, Finset.insert_subset_insert _ placed.known,
        ?_, ?_, ?_, ?_⟩
      · intro other member _
        refine Function.update_of_ne ?_ _ _
        rintro rfl
        exact fresh (placed.known member)
      · intro worker other holds
        rw [held_startWorker] at holds
        have isOther : other ≠ thread := by
          rintro rfl
          exact notHeld worker holds
        dsimp only
        rw [fits_startWorker, Function.update_of_ne isOther]
        exact placed.fits worker other holds
      · intro other member
        rcases List.mem_append.mp member with earlier | isNew
        · have isOther : other ≠ thread := by
            rintro rfl
            exact notQueued earlier
          dsimp only
          rw [Function.update_of_ne isOther]
          exact placed.queued other earlier
        · simp [List.mem_singleton.mp isNew]
      · intro other member
        have isOther : other ≠ thread := by
          rintro rfl
          exact notParked member
        dsimp only
        rw [Function.update_of_ne isOther]
        exact placed.parked other member
      · intro other broken
        by_cases same : other = thread
        · exact same ▸ Finset.mem_insert_self _ _
        · dsimp only at broken
          rw [Function.update_of_ne same] at broken
          exact Finset.mem_insert_of_mem (placed.crashed other broken)
  | refuse => exact placed
  | advance worker advanced => exact placed.local handoff (local_of_advance placed advanced)
  | execute worker executed => exact placed.local handoff (local_of_executes placed executed)

/-- Every state of every run has its threads in order. -/
theorem placed_of_reached {scheduler : SchedulerState workers}
    (reached : Reached scheduler) : Placed scheduler :=
  reached.invariant Placed .start fun _ _ _ placed edge => placed.edge edge

end Disvm.Scheduler
