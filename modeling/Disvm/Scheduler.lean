import Disvm.RuntimeTypes
import Disvm.TransitionRuns
import Mathlib.Data.Finset.Card
import Mathlib.Data.Fintype.Basic
import Mathlib.Logic.Function.Basic

/-!
# The default scheduler

Worker threads that take VM threads from a queue, execute them and return
them.  A critical section under `_vm_threads_lock` is one step unless it waits
inside: a worker then keeps the lock in its control point.  Condition variables
may wake a worker at any time, so notifications leave no trace.  Assertions are
compiled out.
-/

namespace Disvm

/-- `vm_thread_state_t`. -/
inductive VmThreadState where
  | unknown
  | blockedInAlt
  | blockedSending
  | blockedReceiving
  | debug
  | ready
  | running
  | release
  | exiting
  | emptyStack
  | broken
  deriving DecidableEq, Repr

namespace VmThreadState

def isBlocked : VmThreadState → Bool
  | .blockedInAlt | .blockedSending | .blockedReceiving => true
  | _ => false

/-- States in which the interpreter loop of `vm_thread_t::execute` is left by
an instruction that did not block, or by a caught exception. -/
def endsExecution : VmThreadState → Bool
  | .running | .exiting | .emptyStack | .broken => true
  | _ => false

/-- The final switch of `vm_thread_t::execute`. -/
def afterExecute (state : VmThreadState) (hasTool : Bool) : VmThreadState :=
  match state with
  | .running => if hasTool then .debug else .ready
  | other => other

end VmThreadState

namespace Scheduler

/-- Progress of one call of `enqueue_blocked_thread`: before the lookup, before
`std::lock`, and after the collections have been unlocked. -/
inductive CallbackStage where
  | finding
  | locking
  | notifying
  deriving DecidableEq, Repr

/-- Where a worker stands in `worker_main`. -/
inductive Control where
  /-- The worker pool has not been created. -/
  | unstarted
  /-- About to enter the loop of `next_thread`. -/
  | looking
  /-- Inside `collect`, with the threads passed to it. -/
  | collecting (threads : Finset ThreadId)
  /-- Past the collection check, with `_vm_threads_lock`. -/
  | picking
  /-- Waiting for `_gc_complete`. -/
  | awaitingGc
  /-- Taking `_vm_threads_lock` back after a collection. -/
  | relocking
  /-- Waiting on `_worker_event`. -/
  | sleeping
  /-- Has taken a thread from the queue and waits for its ownership, with
  `_vm_threads_lock`. -/
  | acquiring (thread : ThreadId)
  | executing (thread : ThreadId)
  /-- Inside a channel instruction of the thread. -/
  | requesting (thread : ThreadId)
  /-- The channel instruction of the thread has matched a peer and runs the
  callback of the peer. -/
  | unblocking (thread peer : ThreadId) (stage : CallbackStage)
  /-- In `next_thread` with the previous thread, not yet enqueued. -/
  | returning (thread : ThreadId)
  /-- The previous thread is enqueued but its ownership is still held. -/
  | releasing (thread : ThreadId)
  /-- An exception leaves `next_thread`. -/
  | unwinding (thread : ThreadId)
  /-- An exception has left `execute`. -/
  | crashed (thread : ThreadId)
  | stopped
  deriving DecidableEq

namespace Control

/-- The VM thread that a worker has taken and not yet given back. -/
def held : Control → Option ThreadId
  | .acquiring thread | .executing thread | .requesting thread
  | .unblocking thread _ _ | .returning thread | .crashed thread => some thread
  | _ => none

/-- The ownership mutexes that a worker has locked. -/
def owned : Control → List ThreadId
  | .unblocking thread peer .notifying => [thread, peer]
  | .executing thread | .requesting thread | .unblocking thread _ _
  | .returning thread | .releasing thread | .unwinding thread
  | .crashed thread => [thread]
  | _ => []

/-- Whether a worker stands inside a critical section of `_vm_threads_lock`. -/
def hasThreadsLock : Control → Bool
  | .collecting _ | .picking | .acquiring _ => true
  | _ => false

/-- The thread for which a callback has been fired and not yet served. -/
def waking : Control → Option ThreadId
  | .unblocking _ peer .finding | .unblocking _ peer .locking => some peer
  | _ => none

end Control

inductive SchedulerException where
  | vmTermRequest
  | vmSystemException (message : String)
  deriving DecidableEq, Repr

/-- `default_scheduler_t` with the registers of the VM threads that it reads.
A VM thread and its `thread_instance_t` are identified with the thread id. -/
structure SchedulerState (workers : ℕ) where
  terminating : Bool
  vmThreadsLock : Option (Fin workers)
  runnableVmThreadIds : List ThreadId
  runningVmThreadCount : ℕ
  gcComplete : Bool
  gcCounter : ℕ
  blockedVmThreadIds : Finset ThreadId
  allVmThreads : Finset ThreadId
  systemThreadOwnership : ThreadId → Option (Fin workers)
  currentThreadState : ThreadId → VmThreadState
  pendingRequest : ThreadId → Bool
  control : Fin workers → Control
  /-- The ids given to `schedule_thread` so far; the code does not have it. -/
  scheduled : Finset ThreadId

namespace SchedulerState

variable {workers : ℕ}

def init : SchedulerState workers where
  terminating := false
  vmThreadsLock := none
  runnableVmThreadIds := []
  runningVmThreadCount := 0
  gcComplete := true
  gcCounter := 1
  blockedVmThreadIds := ∅
  allVmThreads := ∅
  systemThreadOwnership := fun _ => none
  currentThreadState := fun _ => .unknown
  pendingRequest := fun _ => false
  control := fun _ => .unstarted
  scheduled := ∅

def setControl (scheduler : SchedulerState workers) (worker : Fin workers)
    (next : Control) : SchedulerState workers :=
  { scheduler with control := Function.update scheduler.control worker next }

@[simp]
theorem setControl_self (scheduler : SchedulerState workers) (worker : Fin workers)
    (next : Control) : (scheduler.setControl worker next).control worker = next := by
  simp [setControl]

def setThreadState (scheduler : SchedulerState workers) (thread : ThreadId)
    (state : VmThreadState) : SchedulerState workers :=
  { scheduler with
    currentThreadState := Function.update scheduler.currentThreadState thread state }

def setPending (scheduler : SchedulerState workers) (thread : ThreadId)
    (pending : Bool) : SchedulerState workers :=
  { scheduler with
    pendingRequest := Function.update scheduler.pendingRequest thread pending }

def setOwnership (scheduler : SchedulerState workers) (thread : ThreadId)
    (owner : Option (Fin workers)) : SchedulerState workers :=
  { scheduler with
    systemThreadOwnership :=
      Function.update scheduler.systemThreadOwnership thread owner }

def setThreadsLock (scheduler : SchedulerState workers)
    (holder : Option (Fin workers)) : SchedulerState workers :=
  { scheduler with vmThreadsLock := holder }

/-- The pool is created with the first thread. -/
def startWorker : Control → Control
  | .unstarted => .looking
  | other => other

def scheduleThread (scheduler : SchedulerState workers) (thread : ThreadId)
    (state : VmThreadState) : Except SchedulerException (SchedulerState workers) :=
  if state ≠ .ready then
    .error (.vmSystemException "Scheduled thread in invalid state")
  else
    .ok { scheduler with
      control := fun worker => startWorker (scheduler.control worker)
      allVmThreads := insert thread scheduler.allVmThreads
      runnableVmThreadIds := scheduler.runnableVmThreadIds ++ [thread]
      currentThreadState := Function.update scheduler.currentThreadState thread state
      scheduled := insert thread scheduler.scheduled }

/-- The flag says that the runnable queue has been updated. -/
def enqueueThreadUnsafe (scheduler : SchedulerState workers) (thread : ThreadId) :
    VmThreadState → Except SchedulerException (SchedulerState workers × Bool)
  | .ready | .debug =>
      .ok ({ scheduler with
        runnableVmThreadIds := scheduler.runnableVmThreadIds ++ [thread] }, true)
  | .blockedInAlt | .blockedSending | .blockedReceiving =>
      .ok ({ scheduler with
        blockedVmThreadIds := insert thread scheduler.blockedVmThreadIds }, false)
  | .emptyStack | .exiting =>
      .ok ({ scheduler with
        allVmThreads := scheduler.allVmThreads.erase thread }, false)
  | .broken => .error .vmTermRequest
  | .unknown | .running | .release =>
      .error (.vmSystemException "Unexpected thread state")

/-- The previous thread goes back under `_vm_threads_lock`. -/
def enqueuePrevious (scheduler : SchedulerState workers) (worker : Fin workers)
    (thread : ThreadId) : SchedulerState workers :=
  let counted :=
    { scheduler with runningVmThreadCount := scheduler.runningVmThreadCount - 1 }
  match counted.enqueueThreadUnsafe thread (counted.currentThreadState thread) with
  | .ok (after, _) => after.setControl worker (.releasing thread)
  | .error _ => counted.setControl worker (.unwinding thread)

def releaseOwnership (scheduler : SchedulerState workers) (worker : Fin workers)
    (thread : ThreadId) : SchedulerState workers :=
  (scheduler.setOwnership thread none).setControl worker .looking

/-- `worker_main` ends with the exception. -/
def unwind (scheduler : SchedulerState workers) (worker : Fin workers)
    (thread : ThreadId) : SchedulerState workers :=
  { (scheduler.setOwnership thread none).setControl worker .stopped with
    terminating := true }

/-- `perform_gc`, up to the call of `collect` or to the wait for another
worker that collects. -/
def performGc (scheduler : SchedulerState workers) (worker : Fin workers) :
    SchedulerState workers :=
  if scheduler.runningVmThreadCount = 0 then
    (scheduler.setThreadsLock (some worker)).setControl worker
      (.collecting (scheduler.allVmThreads.filter
        fun thread => scheduler.currentThreadState thread ≠ .broken))
  else
    { scheduler.setControl worker .awaitingGc with gcComplete := false }

/-- A worker takes `_vm_threads_lock` and checks for a collection. -/
def lookForThread (scheduler : SchedulerState workers) (worker : Fin workers) :
    SchedulerState workers :=
  if scheduler.gcCounter % 256 = 0 then
    scheduler.performGc worker
  else
    (scheduler.setThreadsLock (some worker)).setControl worker .picking

def finishCollect (scheduler : SchedulerState workers) (worker : Fin workers) :
    SchedulerState workers :=
  { scheduler.setControl worker .picking with gcComplete := true }

def relock (scheduler : SchedulerState workers) (worker : Fin workers) :
    SchedulerState workers :=
  (scheduler.setThreadsLock (some worker)).setControl worker .picking

/-- The front of the queue is taken; without one the worker stops or sleeps. -/
def pickThread (scheduler : SchedulerState workers) (worker : Fin workers) :
    SchedulerState workers :=
  match scheduler.runnableVmThreadIds with
  | thread :: rest =>
      { scheduler.setControl worker (.acquiring thread) with
        runnableVmThreadIds := rest
        runningVmThreadCount := scheduler.runningVmThreadCount + 1
        gcCounter := scheduler.gcCounter + 1 }
  | [] =>
      if scheduler.terminating then
        (scheduler.setThreadsLock none).setControl worker .stopped
      else
        (scheduler.setThreadsLock none).setControl worker .sleeping

/-- `next_thread` returns and `execute` sets the state of the thread. -/
def takeOwnership (scheduler : SchedulerState workers) (worker : Fin workers)
    (thread : ThreadId) : SchedulerState workers :=
  (((scheduler.setOwnership thread (some worker)).setThreadsLock none).setThreadState
    thread .running).setControl worker (.executing thread)

def wakeUp (scheduler : SchedulerState workers) (worker : Fin workers) :
    SchedulerState workers :=
  if scheduler.terminating then
    scheduler.setControl worker .stopped
  else
    scheduler.setControl worker .looking

/-- The callback returns to the channel instruction, which was handled. -/
def endCallback (scheduler : SchedulerState workers) (worker : Fin workers)
    (thread : ThreadId) : SchedulerState workers :=
  (scheduler.setThreadState thread .running).setControl worker (.executing thread)

def findThread (scheduler : SchedulerState workers) (worker : Fin workers)
    (thread peer : ThreadId) : SchedulerState workers :=
  if peer ∈ scheduler.allVmThreads then
    scheduler.setControl worker (.unblocking thread peer .locking)
  else
    scheduler.endCallback worker thread

/-- The section under both locks, up to the release of `_vm_threads_lock`. -/
def unblockThread (scheduler : SchedulerState workers) (worker : Fin workers)
    (thread peer : ThreadId) : SchedulerState workers :=
  if peer ∈ scheduler.blockedVmThreadIds then
    let erased :=
      { scheduler with blockedVmThreadIds := scheduler.blockedVmThreadIds.erase peer }
    match erased.enqueueThreadUnsafe peer .ready with
    | .ok (after, true) =>
        (after.setOwnership peer (some worker)).setControl worker
          (.unblocking thread peer .notifying)
    | .ok (after, false) => after.endCallback worker thread
    | .error _ => erased.setControl worker (.crashed thread)
  else
    scheduler.endCallback worker thread

/-- What a worker does next while it runs code of the scheduler. -/
def advance (scheduler : SchedulerState workers) (worker : Fin workers) :
    Option (SchedulerState workers) :=
  match scheduler.control worker with
  | .looking =>
      if scheduler.vmThreadsLock = none then
        some (scheduler.lookForThread worker)
      else none
  | .collecting _ => some (scheduler.finishCollect worker)
  | .picking => some (scheduler.pickThread worker)
  | .awaitingGc =>
      if scheduler.gcComplete then
        some (scheduler.setControl worker .relocking)
      else none
  | .relocking =>
      if scheduler.vmThreadsLock = none then
        some (scheduler.relock worker)
      else none
  | .sleeping =>
      if scheduler.vmThreadsLock = none then
        some (scheduler.wakeUp worker)
      else none
  | .acquiring thread =>
      if scheduler.systemThreadOwnership thread = none then
        some (scheduler.takeOwnership worker thread)
      else none
  | .unblocking thread peer .finding =>
      if scheduler.vmThreadsLock = none then
        some (scheduler.findThread worker thread peer)
      else none
  | .unblocking thread peer .locking =>
      if scheduler.vmThreadsLock = none ∧
          scheduler.systemThreadOwnership peer = none then
        some (scheduler.unblockThread worker thread peer)
      else none
  | .unblocking thread peer .notifying =>
      some ((scheduler.setOwnership peer none).endCallback worker thread)
  | .returning thread =>
      if scheduler.vmThreadsLock = none then
        some (scheduler.enqueuePrevious worker thread)
      else none
  | .releasing thread => some (scheduler.releaseOwnership worker thread)
  | .unwinding thread => some (scheduler.unwind worker thread)
  | .unstarted | .executing _ | .requesting _ | .crashed _ | .stopped => none

/-- What the execution of a VM thread can do to the scheduler. -/
inductive ThreadEvent where
  /-- A channel instruction starts. -/
  | beginRequest (state : VmThreadState)
  /-- The request is handled from a buffer or withdrawn. -/
  | settle
  /-- The request and that of a waiting peer are claimed together. -/
  | claimPeer (peer : ThreadId)
  /-- The channel instruction leaves the thread blocked. -/
  | suspend
  /-- The channel instruction throws an exception. -/
  | throwException
  /-- `execute` returns. -/
  | finish (state : VmThreadState) (hasTool : Bool)
  /-- An exception that `execute` does not catch ends the worker. -/
  | crash
  deriving DecidableEq, Repr

def execute (scheduler : SchedulerState workers) (worker : Fin workers)
    (event : ThreadEvent) : Option (SchedulerState workers) :=
  match scheduler.control worker, event with
  | .executing thread, .beginRequest state =>
      if state.isBlocked then
        some (((scheduler.setPending thread true).setThreadState thread state).setControl
          worker (.requesting thread))
      else none
  | .executing thread, .finish state hasTool =>
      if state.endsExecution then
        some ((scheduler.setThreadState thread (state.afterExecute hasTool)).setControl
          worker (.returning thread))
      else none
  | .executing thread, .crash =>
      some { scheduler.setControl worker (.crashed thread) with terminating := true }
  | .requesting thread, .settle =>
      if scheduler.pendingRequest thread then
        some ((scheduler.setPending thread false).endCallback worker thread)
      else none
  | .requesting thread, .claimPeer peer =>
      if scheduler.pendingRequest thread ∧ scheduler.pendingRequest peer ∧
          peer ≠ thread then
        some (((scheduler.setPending thread false).setPending peer false).setControl
          worker (.unblocking thread peer .finding))
      else none
  | .requesting thread, .suspend =>
      some (scheduler.setControl worker (.returning thread))
  | .requesting thread, .throwException =>
      some ((scheduler.setThreadState thread .broken).setControl worker
        (.returning thread))
  | _, _ => none

inductive Action (workers : ℕ) where
  /-- A new thread is scheduled, by the embedding program or by an instruction
  of a running thread. -/
  | schedule (thread : ThreadId) (state : VmThreadState)
  | advance (worker : Fin workers)
  | execute (worker : Fin workers) (event : ThreadEvent)
  deriving DecidableEq, Repr

/-- Thread ids are unique, and a thread that is refused changes nothing. -/
def step (scheduler : SchedulerState workers) :
    Action workers → Option (SchedulerState workers)
  | .schedule thread state =>
      if scheduler.vmThreadsLock = none ∧ thread ∉ scheduler.scheduled then
        match scheduler.scheduleThread thread state with
        | .ok after => some after
        | .error _ => some scheduler
      else none
  | .advance worker => scheduler.advance worker
  | .execute worker event => scheduler.execute worker event

end SchedulerState

end Scheduler

end Disvm
