import Disvm.Custody
import Disvm.Scheduler

/-!
# Steps and runs of the scheduler

What a step of the scheduler can do, one constructor for each branch of the
step function, and the transfer of VM threads that each of them performs.
-/

namespace Disvm.Scheduler

open SchedulerState

variable {workers : ℕ}

/-- Control points at which a worker neither holds a VM thread nor a lock. -/
def Control.isFree : Control → Bool
  | .looking | .awaitingGc | .relocking | .sleeping | .stopped => true
  | _ => false

/-- The branches of the scheduler code that a worker can take. -/
inductive Advance (scheduler : SchedulerState workers) (worker : Fin workers) :
    SchedulerState workers → Prop
  /-- Waiting starts or ends without a lock. -/
  | wait (next : Control) (gcComplete : Bool)
      (free : (scheduler.control worker).isFree = true) (nextFree : next.isFree = true) :
      Advance scheduler worker
        { scheduler.setControl worker next with gcComplete := gcComplete }
  | startCollect (control : scheduler.control worker = .looking)
      (lockFree : scheduler.vmThreadsLock = none)
      (noneRunning : scheduler.runningVmThreadCount = 0) :
      Advance scheduler worker
        ((scheduler.setThreadsLock (some worker)).setControl worker
          (.collecting (scheduler.allVmThreads.filter
            fun thread => scheduler.currentThreadState thread ≠ .broken)))
  | startPicking (free : (scheduler.control worker).isFree = true)
      (lockFree : scheduler.vmThreadsLock = none) :
      Advance scheduler worker
        ((scheduler.setThreadsLock (some worker)).setControl worker .picking)
  | finishCollect (threads : Finset ThreadId)
      (control : scheduler.control worker = .collecting threads) :
      Advance scheduler worker (scheduler.finishCollect worker)
  | pick (thread : ThreadId) (rest : List ThreadId)
      (control : scheduler.control worker = .picking)
      (front : scheduler.runnableVmThreadIds = thread :: rest) :
      Advance scheduler worker
        { scheduler.setControl worker (.acquiring thread) with
          runnableVmThreadIds := rest
          runningVmThreadCount := scheduler.runningVmThreadCount + 1
          gcCounter := scheduler.gcCounter + 1 }
  | pickNone (next : Control) (control : scheduler.control worker = .picking)
      (nextFree : next.isFree = true) :
      Advance scheduler worker ((scheduler.setThreadsLock none).setControl worker next)
  | takeOwnership (thread : ThreadId)
      (control : scheduler.control worker = .acquiring thread)
      (free : scheduler.systemThreadOwnership thread = none) :
      Advance scheduler worker (scheduler.takeOwnership worker thread)
  | found (thread peer : ThreadId)
      (control : scheduler.control worker = .unblocking thread peer .finding)
      (known : peer ∈ scheduler.allVmThreads) :
      Advance scheduler worker
        (scheduler.setControl worker (.unblocking thread peer .locking))
  | notFound (thread peer : ThreadId)
      (control : scheduler.control worker = .unblocking thread peer .finding)
      (unknown : peer ∉ scheduler.allVmThreads) :
      Advance scheduler worker (scheduler.endCallback worker thread)
  | unblock (thread peer : ThreadId)
      (control : scheduler.control worker = .unblocking thread peer .locking)
      (lockFree : scheduler.vmThreadsLock = none)
      (free : scheduler.systemThreadOwnership peer = none)
      (isBlocked : peer ∈ scheduler.blockedVmThreadIds) :
      Advance scheduler worker
        { (scheduler.setOwnership peer (some worker)).setControl worker
            (.unblocking thread peer .notifying) with
          blockedVmThreadIds := scheduler.blockedVmThreadIds.erase peer
          runnableVmThreadIds := scheduler.runnableVmThreadIds ++ [peer] }
  | notBlocked (thread peer : ThreadId)
      (control : scheduler.control worker = .unblocking thread peer .locking)
      (lockFree : scheduler.vmThreadsLock = none)
      (free : scheduler.systemThreadOwnership peer = none)
      (notBlocked : peer ∉ scheduler.blockedVmThreadIds) :
      Advance scheduler worker (scheduler.endCallback worker thread)
  | notified (thread peer : ThreadId)
      (control : scheduler.control worker = .unblocking thread peer .notifying) :
      Advance scheduler worker
        ((scheduler.setOwnership peer none).endCallback worker thread)
  | enqueueRunnable (thread : ThreadId)
      (control : scheduler.control worker = .returning thread)
      (lockFree : scheduler.vmThreadsLock = none)
      (state : scheduler.currentThreadState thread ∈ [.ready, .debug]) :
      Advance scheduler worker
        { scheduler.setControl worker (.releasing thread) with
          runningVmThreadCount := scheduler.runningVmThreadCount - 1
          runnableVmThreadIds := scheduler.runnableVmThreadIds ++ [thread] }
  | enqueueBlocked (thread : ThreadId)
      (control : scheduler.control worker = .returning thread)
      (lockFree : scheduler.vmThreadsLock = none)
      (isBlocked : (scheduler.currentThreadState thread).isBlocked = true) :
      Advance scheduler worker
        { scheduler.setControl worker (.releasing thread) with
          runningVmThreadCount := scheduler.runningVmThreadCount - 1
          blockedVmThreadIds := insert thread scheduler.blockedVmThreadIds }
  | removeThread (thread : ThreadId)
      (control : scheduler.control worker = .returning thread)
      (lockFree : scheduler.vmThreadsLock = none)
      (state : scheduler.currentThreadState thread ∈ [.emptyStack, .exiting]) :
      Advance scheduler worker
        { scheduler.setControl worker (.releasing thread) with
          runningVmThreadCount := scheduler.runningVmThreadCount - 1
          allVmThreads := scheduler.allVmThreads.erase thread }
  | enqueueThrows (thread : ThreadId)
      (control : scheduler.control worker = .returning thread)
      (lockFree : scheduler.vmThreadsLock = none)
      (state : scheduler.currentThreadState thread ∈
        [.broken, .unknown, .running, .release]) :
      Advance scheduler worker
        { scheduler.setControl worker (.unwinding thread) with
          runningVmThreadCount := scheduler.runningVmThreadCount - 1 }
  | release (thread : ThreadId)
      (control : scheduler.control worker = .releasing thread) :
      Advance scheduler worker (scheduler.releaseOwnership worker thread)
  | unwind (thread : ThreadId)
      (control : scheduler.control worker = .unwinding thread) :
      Advance scheduler worker (scheduler.unwind worker thread)

theorem advance_enqueuePrevious {scheduler : SchedulerState workers}
    {worker : Fin workers} {thread : ThreadId}
    (control : scheduler.control worker = .returning thread)
    (lockFree : scheduler.vmThreadsLock = none) :
    Advance scheduler worker (scheduler.enqueuePrevious worker thread) := by
  cases state : scheduler.currentThreadState thread with
  | ready | debug =>
      simp only [enqueuePrevious, state, enqueueThreadUnsafe]
      exact .enqueueRunnable thread control lockFree (by simp [state])
  | blockedInAlt | blockedSending | blockedReceiving =>
      simp only [enqueuePrevious, state, enqueueThreadUnsafe]
      exact .enqueueBlocked thread control lockFree
        (by simp [state, VmThreadState.isBlocked])
  | emptyStack | exiting =>
      simp only [enqueuePrevious, state, enqueueThreadUnsafe]
      exact .removeThread thread control lockFree (by simp [state])
  | broken | unknown | running | release =>
      simp only [enqueuePrevious, state, enqueueThreadUnsafe]
      exact .enqueueThrows thread control lockFree (by simp [state])

theorem advance_lookForThread {scheduler : SchedulerState workers}
    {worker : Fin workers} (control : scheduler.control worker = .looking)
    (lockFree : scheduler.vmThreadsLock = none) :
    Advance scheduler worker (scheduler.lookForThread worker) := by
  have free : (scheduler.control worker).isFree = true := by
    rw [control]
    rfl
  unfold lookForThread performGc
  split
  · split
    · rename_i noneRunning
      exact .startCollect control lockFree noneRunning
    · exact .wait .awaitingGc false free rfl
  · exact .startPicking free lockFree

theorem advance_pickThread {scheduler : SchedulerState workers}
    {worker : Fin workers} (control : scheduler.control worker = .picking) :
    Advance scheduler worker (scheduler.pickThread worker) := by
  unfold pickThread
  split
  · rename_i thread rest front
    exact .pick thread rest control front
  · split
    · exact .pickNone .stopped control rfl
    · exact .pickNone .sleeping control rfl

theorem advance_unblockThread {scheduler : SchedulerState workers}
    {worker : Fin workers} {thread peer : ThreadId}
    (control : scheduler.control worker = .unblocking thread peer .locking)
    (lockFree : scheduler.vmThreadsLock = none)
    (free : scheduler.systemThreadOwnership peer = none) :
    Advance scheduler worker (scheduler.unblockThread worker thread peer) := by
  unfold unblockThread
  split
  · rename_i isBlocked
    exact .unblock thread peer control lockFree free isBlocked
  · rename_i notBlocked
    exact .notBlocked thread peer control lockFree free notBlocked

theorem advance_cases {scheduler after : SchedulerState workers} {worker : Fin workers}
    (stepped : scheduler.advance worker = some after) :
    Advance scheduler worker after := by
  unfold SchedulerState.advance at stepped
  cases control : scheduler.control worker with
  | looking =>
      simp only [control, Option.ite_none_right_eq_some, Option.some.injEq] at stepped
      obtain ⟨lockFree, rfl⟩ := stepped
      exact advance_lookForThread control lockFree
  | collecting threads =>
      simp only [control, Option.some.injEq] at stepped
      exact stepped ▸ .finishCollect threads control
  | picking =>
      simp only [control, Option.some.injEq] at stepped
      exact stepped ▸ advance_pickThread control
  | awaitingGc =>
      simp only [control, Option.ite_none_right_eq_some, Option.some.injEq] at stepped
      obtain ⟨_, rfl⟩ := stepped
      exact .wait .relocking scheduler.gcComplete (by simp [control, Control.isFree]) rfl
  | relocking =>
      simp only [control, Option.ite_none_right_eq_some, Option.some.injEq] at stepped
      obtain ⟨lockFree, rfl⟩ := stepped
      exact .startPicking (by simp [control, Control.isFree]) lockFree
  | sleeping =>
      simp only [control, Option.ite_none_right_eq_some, Option.some.injEq] at stepped
      obtain ⟨_, rfl⟩ := stepped
      have free : (scheduler.control worker).isFree = true := by
        simp [control, Control.isFree]
      unfold wakeUp
      split
      · exact .wait .stopped scheduler.gcComplete free rfl
      · exact .wait .looking scheduler.gcComplete free rfl
  | acquiring thread =>
      simp only [control, Option.ite_none_right_eq_some, Option.some.injEq] at stepped
      obtain ⟨free, rfl⟩ := stepped
      exact .takeOwnership thread control free
  | unblocking thread peer stage =>
      cases stage with
      | finding =>
          simp only [control, Option.ite_none_right_eq_some, Option.some.injEq] at stepped
          obtain ⟨_, rfl⟩ := stepped
          unfold findThread
          split
          · rename_i known
            exact .found thread peer control known
          · rename_i unknown
            exact .notFound thread peer control unknown
      | locking =>
          simp only [control, Option.ite_none_right_eq_some, Option.some.injEq] at stepped
          obtain ⟨⟨lockFree, free⟩, rfl⟩ := stepped
          exact advance_unblockThread control lockFree free
      | notifying =>
          simp only [control, Option.some.injEq] at stepped
          exact stepped ▸ .notified thread peer control
  | returning thread =>
      simp only [control, Option.ite_none_right_eq_some, Option.some.injEq] at stepped
      obtain ⟨lockFree, rfl⟩ := stepped
      exact advance_enqueuePrevious control lockFree
  | releasing thread =>
      simp only [control, Option.some.injEq] at stepped
      exact stepped ▸ .release thread control
  | unwinding thread =>
      simp only [control, Option.some.injEq] at stepped
      exact stepped ▸ .unwind thread control
  | unstarted | executing thread | requesting thread | crashed thread | stopped =>
      simp [control] at stepped

/-- The branches of the execution of a VM thread. -/
inductive Executes (scheduler : SchedulerState workers) (worker : Fin workers) :
    SchedulerState workers → Prop
  | beginRequest (thread : ThreadId) (state : VmThreadState)
      (control : scheduler.control worker = .executing thread)
      (isBlocked : state.isBlocked = true) :
      Executes scheduler worker
        (((scheduler.setPending thread true).setThreadState thread state).setControl
          worker (.requesting thread))
  | finish (thread : ThreadId) (state : VmThreadState)
      (control : scheduler.control worker = .executing thread)
      (ended : state ∈ [.ready, .debug, .exiting, .emptyStack, .broken]) :
      Executes scheduler worker
        ((scheduler.setThreadState thread state).setControl worker (.returning thread))
  | crash (thread : ThreadId) (control : scheduler.control worker = .executing thread) :
      Executes scheduler worker
        { scheduler.setControl worker (.crashed thread) with terminating := true }
  | settle (thread : ThreadId) (control : scheduler.control worker = .requesting thread)
      (pending : scheduler.pendingRequest thread = true) :
      Executes scheduler worker
        ((scheduler.setPending thread false).endCallback worker thread)
  | claimPeer (thread peer : ThreadId)
      (control : scheduler.control worker = .requesting thread)
      (pending : scheduler.pendingRequest thread = true)
      (peerPending : scheduler.pendingRequest peer = true) (other : peer ≠ thread) :
      Executes scheduler worker
        (((scheduler.setPending thread false).setPending peer false).setControl
          worker (.unblocking thread peer .finding))
  | suspend (thread : ThreadId)
      (control : scheduler.control worker = .requesting thread) :
      Executes scheduler worker (scheduler.setControl worker (.returning thread))
  | throwException (thread : ThreadId)
      (control : scheduler.control worker = .requesting thread) :
      Executes scheduler worker
        ((scheduler.setThreadState thread .broken).setControl worker
          (.returning thread))

theorem execute_cases {scheduler after : SchedulerState workers} {worker : Fin workers}
    {event : ThreadEvent} (stepped : scheduler.execute worker event = some after) :
    Executes scheduler worker after := by
  unfold SchedulerState.execute at stepped
  split at stepped
  · rename_i thread state control
    simp only [Option.ite_none_right_eq_some, Option.some.injEq] at stepped
    obtain ⟨isBlocked, rfl⟩ := stepped
    exact .beginRequest thread state control isBlocked
  · rename_i thread state hasTool control
    simp only [Option.ite_none_right_eq_some, Option.some.injEq] at stepped
    obtain ⟨ended, rfl⟩ := stepped
    refine .finish thread _ control ?_
    cases state <;> cases hasTool <;>
      simp_all [VmThreadState.afterExecute, VmThreadState.endsExecution]
  · rename_i thread control
    cases stepped
    exact .crash thread control
  · rename_i thread control
    simp only [Option.ite_none_right_eq_some, Option.some.injEq] at stepped
    obtain ⟨pending, rfl⟩ := stepped
    exact .settle thread control pending
  · rename_i thread peer control
    simp only [Option.ite_none_right_eq_some, Option.some.injEq] at stepped
    obtain ⟨⟨pending, peerPending, other⟩, rfl⟩ := stepped
    exact .claimPeer thread peer control pending peerPending other
  · rename_i thread control
    cases stepped
    exact .suspend thread control
  · rename_i thread control
    cases stepped
    exact .throwException thread control
  · cases stepped

inductive Edge (scheduler : SchedulerState workers) : SchedulerState workers → Prop
  | schedule (thread : ThreadId) (lockFree : scheduler.vmThreadsLock = none)
      (fresh : thread ∉ scheduler.scheduled) :
      Edge scheduler
        { scheduler with
          control := fun worker => startWorker (scheduler.control worker)
          allVmThreads := insert thread scheduler.allVmThreads
          runnableVmThreadIds := scheduler.runnableVmThreadIds ++ [thread]
          currentThreadState :=
            Function.update scheduler.currentThreadState thread .ready
          scheduled := insert thread scheduler.scheduled }
  | refuse : Edge scheduler scheduler
  | advance (worker : Fin workers) {after : SchedulerState workers}
      (advanced : Advance scheduler worker after) : Edge scheduler after
  | execute (worker : Fin workers) {after : SchedulerState workers}
      (executed : Executes scheduler worker after) : Edge scheduler after

theorem edge_of_step {scheduler after : SchedulerState workers} {action : Action workers}
    (stepped : scheduler.step action = some after) : Edge scheduler after := by
  cases action with
  | schedule thread state =>
      simp only [step, Option.ite_none_right_eq_some] at stepped
      obtain ⟨⟨lockFree, fresh⟩, arrived⟩ := stepped
      by_cases isReady : state = .ready
      · simp only [scheduleThread, isReady, ne_eq, not_true_eq_false, if_false,
          Option.some.injEq] at arrived
        exact arrived ▸ .schedule thread lockFree fresh
      · simp only [scheduleThread, isReady, ne_eq, not_false_eq_true, if_true,
          Option.some.injEq] at arrived
        exact arrived ▸ .refuse
  | advance worker => exact .advance worker (advance_cases stepped)
  | execute worker event => exact .execute worker (execute_cases stepped)

/-- The states of the scheduler in any run. -/
def Reached : SchedulerState workers → Prop :=
  Transition.Reachable (· = init) (Transition.StepsBy (fun _ _ => True) step)

/-- The run rule of the scheduler. -/
theorem Reached.invariant (property : SchedulerState workers → Prop)
    (established : property init)
    (preserved : ∀ before after, Reached before → property before →
      Edge before after → property after)
    {scheduler : SchedulerState workers} (reached : Reached scheduler) :
    property scheduler := by
  refine Transition.Reachable.invariant property ?_ ?_ reached
  · rintro first rfl
    exact established
  · rintro before after earlier holds ⟨action, -, stepped⟩
    exact preserved before after earlier holds (edge_of_step stepped)

theorem reached_of_replay {actions : List (Action workers)}
    {last : SchedulerState workers}
    (replayed : Transition.execute step init actions = some last) : Reached last :=
  Transition.reachable_of_execute (Transition.Reachable.start rfl)
    (fun _ _ _ => trivial) replayed

end Disvm.Scheduler
