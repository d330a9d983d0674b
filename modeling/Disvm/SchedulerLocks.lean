import Disvm.SchedulerOwnership

/-!
# The locks of the scheduler

`_vm_threads_lock` and the ownership mutex of every thread are held by the
worker whose control point says so, and a collection runs while no worker has a
VM thread.
-/

namespace Disvm.Scheduler

open SchedulerState

variable {workers : ℕ}

structure Locked (scheduler : SchedulerState workers) : Prop where
  threadsLock : ∀ worker, scheduler.vmThreadsLock = some worker ↔
    (scheduler.control worker).hasThreadsLock = true
  ownership : ∀ worker thread, scheduler.systemThreadOwnership thread = some worker ↔
    thread ∈ (scheduler.control worker).owned
  collecting : ∀ worker threads, scheduler.control worker = .collecting threads →
    scheduler.runningVmThreadCount = 0
  peers : ∀ worker thread peer stage,
    scheduler.control worker = .unblocking thread peer stage → peer ≠ thread

section Updates

variable {before after : SchedulerState workers} {worker : Fin workers} {next : Control}

/-- What a step of a worker may do to `_vm_threads_lock`. -/
inductive ThreadsLockChange (before after : SchedulerState workers) (worker : Fin workers)
    (next : Control) : Prop
  | keep (same : after.vmThreadsLock = before.vmThreadsLock)
      (control : next.hasThreadsLock = (before.control worker).hasThreadsLock)
  | take (free : before.vmThreadsLock = none) (taken : after.vmThreadsLock = some worker)
      (control : next.hasThreadsLock = true)
  | give (holds : (before.control worker).hasThreadsLock = true)
      (given : after.vmThreadsLock = none) (control : next.hasThreadsLock = false)

/-- What a step of a worker may do to the ownership mutexes. -/
inductive OwnershipChange (before after : SchedulerState workers) (worker : Fin workers)
    (next : Control) : Prop
  | keep (same : after.systemThreadOwnership = before.systemThreadOwnership)
      (control : next.owned = (before.control worker).owned)
  | take (thread : ThreadId) (free : before.systemThreadOwnership thread = none)
      (taken : after.systemThreadOwnership =
        Function.update before.systemThreadOwnership thread (some worker))
      (control : ∀ other, other ∈ next.owned ↔
        other = thread ∨ other ∈ (before.control worker).owned)
  | give (thread : ThreadId) (holds : thread ∈ (before.control worker).owned)
      (given : after.systemThreadOwnership =
        Function.update before.systemThreadOwnership thread none)
      (control : ∀ other, other ∈ next.owned ↔
        other ≠ thread ∧ other ∈ (before.control worker).owned)

theorem threadsLock_step (locked : Locked before)
    (control : after.control = Function.update before.control worker next)
    (change : ThreadsLockChange before after worker next) (other : Fin workers) :
    after.vmThreadsLock = some other ↔ (after.control other).hasThreadsLock = true := by
  have earlier := locked.threadsLock other
  rw [control]
  by_cases same : other = worker
  · subst same
    rw [Function.update_self]
    cases change with
    | keep unchanged control => rw [unchanged, control, earlier]
    | take free taken control => simp [taken, control]
    | give holds given control => simp [given, control]
  · rw [Function.update_of_ne same]
    cases change with
    | keep unchanged control => rw [unchanged, earlier]
    | take free taken control =>
        rw [← earlier, taken, free]
        simp [Ne.symm same]
    | give holds given control =>
        have holder := (locked.threadsLock worker).mpr holds
        rw [← earlier, given, holder]
        simp [Ne.symm same]

theorem ownership_step (locked : Locked before)
    (control : after.control = Function.update before.control worker next)
    (change : OwnershipChange before after worker next) (other : Fin workers)
    (thread : ThreadId) :
    after.systemThreadOwnership thread = some other ↔
      thread ∈ (after.control other).owned := by
  have earlier := locked.ownership other thread
  rw [control]
  by_cases same : other = worker
  · subst same
    rw [Function.update_self]
    cases change with
    | keep unchanged control => rw [unchanged, control, earlier]
    | take taken free owner control =>
        rw [owner, control, ← earlier]
        by_cases own : thread = taken
        · simp [own]
        · simp [own]
    | give given holds owner control =>
        rw [owner, control, ← earlier]
        by_cases own : thread = given
        · simp [own]
        · simp [own]
  · rw [Function.update_of_ne same, ← earlier]
    cases change with
    | keep unchanged control => rw [unchanged]
    | take taken free owner control =>
        rw [owner]
        by_cases own : thread = taken
        · subst own
          simp [free, Ne.symm same]
        · simp [own]
    | give given holds owner control =>
        rw [owner]
        by_cases own : thread = given
        · subst own
          have holder := (locked.ownership worker thread).mpr holds
          simp [holder, Ne.symm same]
        · simp [own]

theorem locked_step (locked : Locked before)
    (control : after.control = Function.update before.control worker next)
    (lockChange : ThreadsLockChange before after worker next)
    (ownershipChange : OwnershipChange before after worker next)
    (peers : ∀ thread peer stage, next = .unblocking thread peer stage → peer ≠ thread)
    (running : after.runningVmThreadCount = before.runningVmThreadCount ∨
      ∀ other threads, after.control other ≠ .collecting threads)
    (collecting : ∀ threads, next = .collecting threads →
      before.runningVmThreadCount = 0) :
    Locked after where
  threadsLock := threadsLock_step locked control lockChange
  ownership := ownership_step locked control ownershipChange
  collecting other threads isCollecting := by
    rcases running with unchanged | noneCollects
    · rw [unchanged]
      rw [control] at isCollecting
      by_cases same : other = worker
      · subst same
        rw [Function.update_self] at isCollecting
        exact collecting threads isCollecting
      · rw [Function.update_of_ne same] at isCollecting
        exact locked.collecting other threads isCollecting
    · exact absurd isCollecting (noneCollects other threads)
  peers other thread peer stage isUnblocking := by
    rw [control] at isUnblocking
    by_cases same : other = worker
    · subst same
      rw [Function.update_self] at isUnblocking
      exact peers thread peer stage isUnblocking
    · rw [Function.update_of_ne same] at isUnblocking
      exact locked.peers other thread peer stage isUnblocking

/-- While the lock is free or with this worker, no other worker collects. -/
theorem noneCollects (locked : Locked before)
    (control : after.control = Function.update before.control worker next)
    (mine : before.vmThreadsLock = none ∨ before.vmThreadsLock = some worker)
    (notCollecting : ∀ threads, next ≠ .collecting threads) (other : Fin workers)
    (threads : Finset ThreadId) : after.control other ≠ .collecting threads := by
  rw [control]
  by_cases same : other = worker
  · subst same
    rw [Function.update_self]
    exact notCollecting threads
  · rw [Function.update_of_ne same]
    intro isCollecting
    have holder : before.vmThreadsLock = some other :=
      (locked.threadsLock other).mpr (by rw [isCollecting]; rfl)
    rcases mine with free | own
    · simp [free] at holder
    · rw [own] at holder
      exact same (Option.some.inj holder).symm

end Updates

theorem Control.unlocked_of_isFree {control : Control} (free : control.isFree = true) :
    control.hasThreadsLock = false := by
  cases control <;> first | rfl | cases free

theorem Control.owned_of_isFree {control : Control} (free : control.isFree = true) :
    control.owned = [] := by
  cases control <;> first | rfl | cases free

theorem Control.isFree_ne_unblocking {control : Control} (free : control.isFree = true)
    (thread peer : ThreadId) (stage : CallbackStage)
    (same : control = .unblocking thread peer stage) : peer ≠ thread := by
  rw [same] at free
  cases free

theorem Control.isFree_ne_collecting {control : Control} (free : control.isFree = true)
    (threads : Finset ThreadId) : control ≠ .collecting threads := by
  rintro rfl
  cases free

theorem locked_advance {before after : SchedulerState workers} {worker : Fin workers}
    (locked : Locked before) (advanced : Advance before worker after) : Locked after := by
  cases advanced with
  | wait next gcComplete free nextFree =>
      refine locked_step locked rfl (.keep rfl ?_) (.keep rfl ?_)
        (Control.isFree_ne_unblocking nextFree) (Or.inl rfl)
        fun threads isCollecting => absurd isCollecting
          (Control.isFree_ne_collecting nextFree threads)
      · rw [Control.unlocked_of_isFree free, Control.unlocked_of_isFree nextFree]
      · rw [Control.owned_of_isFree free, Control.owned_of_isFree nextFree]
  | startCollect control lockFree noneRunning =>
      exact locked_step locked rfl (.take lockFree rfl rfl) (.keep rfl (by rw [control]; rfl))
        (by simp) (Or.inl rfl) fun _ _ => noneRunning
  | startPicking free lockFree =>
      exact locked_step locked rfl (.take lockFree rfl rfl)
        (.keep rfl (by rw [Control.owned_of_isFree free]; rfl)) (by simp) (Or.inl rfl) (by simp)
  | finishCollect threads control =>
      exact locked_step locked rfl (.keep rfl (by rw [control]; rfl))
        (.keep rfl (by rw [control]; rfl)) (by simp) (Or.inl rfl) (by simp)
  | pick thread rest control front =>
      have mine := (locked.threadsLock worker).mpr (by rw [control]; rfl)
      exact locked_step locked rfl (.keep rfl (by rw [control]; rfl))
        (.keep rfl (by rw [control]; rfl)) (by simp)
        (Or.inr (noneCollects locked rfl (Or.inr mine) (by simp))) (by simp)
  | pickNone next control nextFree =>
      refine locked_step locked rfl (.give (by rw [control]; rfl) rfl
        (Control.unlocked_of_isFree nextFree)) (.keep rfl ?_)
        (Control.isFree_ne_unblocking nextFree) (Or.inl rfl)
        fun threads isCollecting => absurd isCollecting
          (Control.isFree_ne_collecting nextFree threads)
      rw [control, Control.owned_of_isFree nextFree]
      rfl
  | takeOwnership thread control free =>
      exact locked_step locked rfl (.give (by rw [control]; rfl) rfl rfl)
        (.take thread free rfl (by simp [control, Control.owned])) (by simp) (Or.inl rfl)
        (by simp)
  | found thread peer control known =>
      refine locked_step locked rfl (.keep rfl (by rw [control]; rfl))
        (.keep rfl (by rw [control]; rfl)) ?_ (Or.inl rfl) (by simp)
      rintro _ _ _ ⟨⟩
      exact locked.peers worker thread peer _ control
  | notFound thread peer control | notBlocked thread peer control =>
      exact locked_step locked rfl (.keep rfl (by rw [control]; rfl))
        (.keep rfl (by rw [control]; rfl)) (by simp) (Or.inl rfl) (by simp)
  | unblock thread peer control lockFree free isBlocked =>
      refine locked_step locked rfl (.keep rfl (by rw [control]; rfl))
        (.take peer free rfl ?_) ?_ (Or.inl rfl) (by simp)
      · intro other
        simp [control, Control.owned, or_comm]
      · rintro _ _ _ ⟨⟩
        exact locked.peers worker thread peer _ control
  | notified thread peer control =>
      have different := locked.peers worker thread peer _ control
      refine locked_step locked rfl (.keep rfl (by rw [control]; rfl))
        (.give peer (by simp [control, Control.owned]) rfl ?_) (by simp) (Or.inl rfl) (by simp)
      intro other
      simp only [control, Control.owned, List.mem_cons, List.not_mem_nil, or_false]
      constructor
      · rintro rfl
        exact ⟨Ne.symm different, Or.inl rfl⟩
      · rintro ⟨notPeer, own | isPeer⟩
        · exact own
        · exact absurd isPeer notPeer
  | enqueueRunnable thread control lockFree | enqueueBlocked thread control lockFree
  | removeThread thread control lockFree | enqueueThrows thread control lockFree =>
      exact locked_step locked rfl (.keep rfl (by rw [control]; rfl))
        (.keep rfl (by rw [control]; rfl)) (by simp)
        (Or.inr (noneCollects locked rfl (Or.inl lockFree) (by simp))) (by simp)
  | release thread control | unwind thread control =>
      exact locked_step locked rfl (.keep rfl (by rw [control]; rfl))
        (.give thread (by simp [control, Control.owned]) rfl
          (by simp [control, Control.owned])) (by simp) (Or.inl rfl) (by simp)

theorem locked_executes {before after : SchedulerState workers} {worker : Fin workers}
    (locked : Locked before) (executed : Executes before worker after) : Locked after := by
  cases executed with
  | beginRequest thread _ control | finish thread _ control | crash thread control
  | settle thread control | suspend thread control | throwException thread control =>
      exact locked_step locked rfl (.keep rfl (by rw [control]; rfl))
        (.keep rfl (by rw [control]; rfl)) (by simp) (Or.inl rfl) (by simp)
  | claimPeer thread peer control pending peerPending other =>
      refine locked_step locked rfl (.keep rfl (by rw [control]; rfl))
        (.keep rfl (by rw [control]; rfl)) ?_ (Or.inl rfl) (by simp)
      rintro _ _ _ ⟨⟩
      exact other

/-- Creating the worker pool does not touch a worker that has started. -/
theorem eq_of_startWorker {control next : Control} (started : startWorker control = next)
    (notLooking : next ≠ .looking) : control = next := by
  cases control with
  | unstarted => exact absurd started.symm notLooking
  | _ => exact started

theorem hasThreadsLock_startWorker (control : Control) :
    (startWorker control).hasThreadsLock = control.hasThreadsLock := by
  cases control <;> rfl

theorem owned_startWorker (control : Control) :
    (startWorker control).owned = control.owned := by
  cases control <;> rfl

theorem locked_of_reached {scheduler : SchedulerState workers}
    (reached : Reached scheduler) : Locked scheduler := by
  refine reached.invariant Locked ?_ ?_
  · exact ⟨by simp [init, Control.hasThreadsLock], by simp [init, Control.owned],
      by simp [init], by simp [init]⟩
  · intro before after _ locked edge
    cases edge with
    | schedule thread lockFree fresh =>
        refine ⟨fun worker => ?_, fun worker other => ?_, fun worker threads isCollecting => ?_,
          fun worker other peer stage isUnblocking => ?_⟩
        · rw [hasThreadsLock_startWorker]
          exact locked.threadsLock worker
        · rw [owned_startWorker]
          exact locked.ownership worker other
        · exact locked.collecting worker threads (eq_of_startWorker isCollecting (by simp))
        · exact locked.peers worker other peer stage (eq_of_startWorker isUnblocking (by simp))
    | refuse => exact locked
    | advance worker advanced => exact locked_advance locked advanced
    | execute worker executed => exact locked_executes locked executed

theorem owned_of_held {control : Control} {thread : ThreadId}
    (holds : control.held = some thread) (notAcquiring : control ≠ .acquiring thread) :
    thread ∈ control.owned := by
  cases control with
  | acquiring own =>
      cases holds
      exact absurd rfl notAcquiring
  | unblocking own peer stage =>
      cases holds
      cases stage <;> simp [Control.owned]
  | executing _ | requesting _ | returning _ | crashed _ =>
      cases holds
      exact List.mem_singleton_self thread
  | _ => cases holds

/-- Nobody holds a VM thread while the collector runs. -/
theorem idle_of_collecting {scheduler : SchedulerState workers}
    (placed : Placed scheduler) (locked : Locked scheduler) {worker : Fin workers}
    {threads : Finset ThreadId} (collecting : scheduler.control worker = .collecting threads)
    (other : Fin workers) : (scheduler.control other).held = none := by
  have noneRunning := locked.collecting worker threads collecting
  rw [placed.counted, Finset.card_eq_zero] at noneRunning
  by_contra holds
  have member : other ∈ Custody.busy scheduler.custody.held := Custody.mem_busy.mpr holds
  simp [noneRunning] at member

end Disvm.Scheduler
