import Disvm.SchedulerLocks

/-!
# Early wake-ups

A callback may be fired for a thread whose worker has not yet put it into the
blocked collection.  The callback waits for the ownership of the thread, and
the worker gives that up only after the thread is in the collection.
-/

namespace Disvm.Scheduler

open SchedulerState

variable {workers : ℕ}

/-- The thread is blocked, or its worker is about to put it into the blocked
collection. -/
structure Suspending (scheduler : SchedulerState workers) (thread : ThreadId) : Prop where
  state : (scheduler.currentThreadState thread).isBlocked = true
  member : thread ∈ scheduler.allVmThreads
  place : thread ∈ scheduler.blockedVmThreadIds ∨
    ∃ worker, scheduler.control worker = .requesting thread ∨
      scheduler.control worker = .returning thread

/-- The request of the thread can be claimed, or has been claimed by a callback
that is still to be served. -/
def Engaged (scheduler : SchedulerState workers) (thread : ThreadId) : Prop :=
  scheduler.pendingRequest thread = true ∨
    ∃ worker, (scheduler.control worker).waking = some thread

structure WakeupsKept (scheduler : SchedulerState workers) : Prop where
  suspending : ∀ thread, Engaged scheduler thread →
    scheduler.currentThreadState thread = .broken ∨ Suspending scheduler thread
  claimed : ∀ worker thread, (scheduler.control worker).waking = some thread →
    scheduler.pendingRequest thread = false
  single : ∀ first second thread, (scheduler.control first).waking = some thread →
    (scheduler.control second).waking = some thread → first = second

section Steps

variable {before after : SchedulerState workers} {worker : Fin workers}

/-- A step of a worker that is not suspending the thread leaves it suspended. -/
theorem suspending_step (placed : Placed before) (islocal : Local before after worker)
    {thread : ThreadId} (notRequesting : before.control worker ≠ .requesting thread)
    (notReturning : before.control worker ≠ .returning thread)
    (parked : thread ∈ before.blockedVmThreadIds → thread ∈ after.blockedVmThreadIds)
    (members : thread ∈ before.allVmThreads → thread ∈ after.allVmThreads)
    (suspending : Suspending before thread) : Suspending after thread := by
  have notHeld : (before.control worker).held ≠ some thread := by
    intro holds
    rcases suspending.place with isParked | ⟨other, isSuspending⟩
    · exact (placed.alone holds).2.1 isParked
    · have otherHolds : (before.control other).held = some thread := by
        rcases isSuspending with control | control <;> rw [control] <;> rfl
      have same := (placed.alone holds).2.2 other otherHolds
      subst same
      rcases isSuspending with control | control
      · exact notRequesting control
      · exact notReturning control
  refine ⟨?_, members suspending.member, ?_⟩
  · rw [islocal.states thread notHeld]
    exact suspending.state
  · rcases suspending.place with isParked | ⟨other, isSuspending⟩
    · exact Or.inl (parked isParked)
    · refine Or.inr ⟨other, ?_⟩
      have different : other ≠ worker := by
        rintro rfl
        rcases isSuspending with control | control
        · exact notRequesting control
        · exact notReturning control
      rwa [islocal.control other different]

theorem engaged_step (placed : Placed before) (kept : WakeupsKept before)
    (islocal : Local before after worker)
    {thread : ThreadId} (engaged : Engaged before thread)
    (notRequesting : before.control worker ≠ .requesting thread)
    (notReturning : before.control worker ≠ .returning thread)
    (parked : thread ∈ before.blockedVmThreadIds → thread ∈ after.blockedVmThreadIds)
    (members : thread ∈ before.allVmThreads → thread ∈ after.allVmThreads) :
    after.currentThreadState thread = .broken ∨ Suspending after thread := by
  rcases kept.suspending thread engaged with broken | suspending
  · exact Or.inl (islocal.broken thread broken)
  · exact Or.inr (suspending_step placed islocal notRequesting notReturning parked members
      suspending)

/-- A step that engages no thread. -/
theorem kept_of_shrinking (kept : WakeupsKept before)
    (pending : ∀ thread, after.pendingRequest thread = true →
      before.pendingRequest thread = true)
    (waking : ∀ other thread, (after.control other).waking = some thread →
      (before.control other).waking = some thread)
    (suspending : ∀ thread, Engaged before thread → Engaged after thread →
      after.currentThreadState thread = .broken ∨ Suspending after thread) :
    WakeupsKept after where
  suspending thread engaged := by
    refine suspending thread ?_ engaged
    rcases engaged with isPending | ⟨other, isWaking⟩
    · exact Or.inl (pending thread isPending)
    · exact Or.inr ⟨other, waking other thread isWaking⟩
  claimed other thread isWaking := by
    have lowered := kept.claimed other thread (waking other thread isWaking)
    by_contra raised
    rw [pending thread (Bool.eq_true_of_not_eq_false raised)] at lowered
    cases lowered
  single first second thread isFirst isSecond :=
    kept.single first second thread (waking first thread isFirst)
      (waking second thread isSecond)

theorem waking_of_control {next : Control}
    (control : after.control = Function.update before.control worker next)
    (notNew : ∀ thread, next.waking = some thread →
      (before.control worker).waking = some thread)
    (other : Fin workers) (thread : ThreadId)
    (isWaking : (after.control other).waking = some thread) :
    (before.control other).waking = some thread := by
  rw [control] at isWaking
  by_cases same : other = worker
  · subst same
    rw [Function.update_self] at isWaking
    exact notNew thread isWaking
  · rwa [Function.update_of_ne same] at isWaking

/-- A step by which the worker neither suspends its thread nor fires a
callback. -/
theorem kept_of_control {next : Control} (placed : Placed before)
    (kept : WakeupsKept before) (islocal : Local before after worker)
    (control : after.control = Function.update before.control worker next)
    (pending : after.pendingRequest = before.pendingRequest)
    (notNew : ∀ thread, next.waking = some thread →
      (before.control worker).waking = some thread)
    (notSuspending : ∀ thread, before.control worker ≠ .requesting thread ∧
      before.control worker ≠ .returning thread)
    (parked : before.blockedVmThreadIds ⊆ after.blockedVmThreadIds)
    (members : before.allVmThreads ⊆ after.allVmThreads) : WakeupsKept after := by
  refine kept_of_shrinking kept (fun thread => pending ▸ id)
    (waking_of_control control notNew) ?_
  intro thread engaged _
  exact engaged_step placed kept islocal engaged (notSuspending thread).1
    (notSuspending thread).2 (fun isParked => parked isParked)
    (fun isMember => members isMember)

theorem Control.waking_of_isFree {control : Control} (free : control.isFree = true)
    (thread : ThreadId) : control.waking ≠ some thread := by
  intro isWaking
  cases control <;> cases free <;> cases isWaking

theorem Control.isFree_notSuspending {control : Control} (free : control.isFree = true)
    (thread : ThreadId) : control ≠ .requesting thread ∧ control ≠ .returning thread := by
  constructor <;> (rintro rfl; cases free)

/-- The worker returns its thread and the thread is still suspended or ended. -/
theorem kept_of_return {next : Control} {own : ThreadId} (placed : Placed before)
    (kept : WakeupsKept before) (islocal : Local before after worker)
    (control : before.control worker = .returning own)
    (moved : after.control = Function.update before.control worker next)
    (notWaking : next.waking = none)
    (pending : after.pendingRequest = before.pendingRequest)
    (parked : before.blockedVmThreadIds ⊆ after.blockedVmThreadIds)
    (members : ∀ thread, thread ≠ own → thread ∈ before.allVmThreads →
      thread ∈ after.allVmThreads)
    (suspending : before.currentThreadState own = .broken ∨ Suspending before own →
      after.currentThreadState own = .broken ∨ Suspending after own) :
    WakeupsKept after := by
  refine kept_of_shrinking kept (fun thread => pending ▸ id)
    (waking_of_control moved (by simp [notWaking])) ?_
  intro thread engaged _
  by_cases same : thread = own
  · subst same
    exact suspending (kept.suspending thread engaged)
  · refine engaged_step placed kept islocal engaged (by simp [control]) ?_
      (fun isParked => parked isParked) (members thread same)
    rw [control]
    simpa using Ne.symm same

theorem kept_advance (placed : Placed before) (kept : WakeupsKept before)
    (advanced : Advance before worker after) : WakeupsKept after := by
  have islocal := local_of_advance placed advanced
  cases advanced with
  | wait next gcComplete free nextFree =>
      exact kept_of_control placed kept islocal rfl rfl
        (fun thread isWaking => absurd isWaking (Control.waking_of_isFree nextFree thread))
        (Control.isFree_notSuspending free) (Finset.Subset.refl _) (Finset.Subset.refl _)
  | startPicking free =>
      exact kept_of_control placed kept islocal rfl rfl (by simp [Control.waking])
        (Control.isFree_notSuspending free) (Finset.Subset.refl _) (Finset.Subset.refl _)
  | pickNone next control nextFree =>
      exact kept_of_control placed kept islocal rfl rfl
        (fun thread isWaking => absurd isWaking (Control.waking_of_isFree nextFree thread))
        (by simp [control]) (Finset.Subset.refl _) (Finset.Subset.refl _)
  | startCollect control | finishCollect _ control | pick _ _ control
  | takeOwnership _ control | found _ _ control | notFound _ _ control
  | notBlocked _ _ control | notified _ _ control | release _ control
  | unwind _ control =>
      exact kept_of_control placed kept islocal rfl rfl (by simp [Control.waking, control])
        (by simp [control]) (Finset.Subset.refl _) (Finset.Subset.refl _)
  | unblock thread peer control lockFree free isBlocked =>
      have isWaking : (before.control worker).waking = some peer := by rw [control]; rfl
      refine kept_of_shrinking kept (fun _ => id)
        (waking_of_control rfl (by simp [Control.waking])) ?_
      intro other engaged still
      have notPeer : other ≠ peer := by
        rintro rfl
        rcases still with isPending | ⟨waker, later⟩
        · have lowered := kept.claimed worker other isWaking
          rw [show before.pendingRequest other = true from isPending] at lowered
          cases lowered
        · have earlier := waking_of_control rfl (by simp [Control.waking]) waker other later
          have same := kept.single waker worker other earlier isWaking
          subst same
          simp [setControl, Control.waking] at later
      exact engaged_step placed kept islocal engaged (by simp [control]) (by simp [control])
        (fun isParked => Finset.mem_erase.mpr ⟨notPeer, isParked⟩) id
  | enqueueRunnable thread control lockFree state =>
      refine kept_of_return placed kept islocal control rfl rfl rfl (Finset.Subset.refl _)
        (fun _ _ => id) fun earlier => ?_
      rcases earlier with broken | suspending
      · simp [broken] at state
      · have isBlocked := suspending.state
        rcases List.mem_pair.mp state with ready | debug
        · simp [ready, VmThreadState.isBlocked] at isBlocked
        · simp [debug, VmThreadState.isBlocked] at isBlocked
  | enqueueBlocked thread control lockFree isBlocked =>
      refine kept_of_return placed kept islocal control rfl rfl rfl
        (Finset.subset_insert _ _) (fun _ _ => id) fun earlier => ?_
      rcases earlier with broken | suspending
      · exact Or.inl broken
      · exact Or.inr ⟨isBlocked, suspending.member, Or.inl (Finset.mem_insert_self _ _)⟩
  | removeThread thread control lockFree state =>
      refine kept_of_return placed kept islocal control rfl rfl rfl (Finset.Subset.refl _)
        (fun other isOther member => Finset.mem_erase.mpr ⟨isOther, member⟩) fun earlier => ?_
      rcases earlier with broken | suspending
      · simp [broken] at state
      · have isBlocked := suspending.state
        rcases List.mem_pair.mp state with empty | exiting
        · simp [empty, VmThreadState.isBlocked] at isBlocked
        · simp [exiting, VmThreadState.isBlocked] at isBlocked
  | enqueueThrows thread control lockFree state =>
      refine kept_of_return placed kept islocal control rfl rfl rfl (Finset.Subset.refl _)
        (fun _ _ => id) fun earlier => ?_
      rcases earlier with broken | suspending
      · exact Or.inl broken
      · have isBlocked := suspending.state
        cases found : before.currentThreadState thread <;>
          simp_all [VmThreadState.isBlocked]

/-- A thread that executes is not about to be woken. -/
theorem not_engaged_of_executing (placed : Placed before) (kept : WakeupsKept before)
    {thread : ThreadId} (control : before.control worker = .executing thread) :
    ¬ Engaged before thread := by
  have holds : (before.control worker).held = some thread := by rw [control]; rfl
  intro engaged
  rcases kept.suspending thread engaged with broken | suspending
  · exact placed.notBroken holds (by simp [control]) broken
  · rcases suspending.place with isParked | ⟨other, isSuspending⟩
    · exact (placed.alone holds).2.1 isParked
    · have otherHolds : (before.control other).held = some thread := by
        rcases isSuspending with found | found <;> rw [found] <;> rfl
      have same := (placed.alone holds).2.2 other otherHolds
      subst same
      simp [control] at isSuspending

theorem kept_beginRequest (placed : Placed before) (kept : WakeupsKept before)
    (islocal : Local before after worker) {thread : ThreadId}
    (executing : before.control worker = .executing thread)
    (control : after.control = Function.update before.control worker (.requesting thread))
    (pending : after.pendingRequest = Function.update before.pendingRequest thread true)
    (isBlocked : (after.currentThreadState thread).isBlocked = true)
    (parked : before.blockedVmThreadIds ⊆ after.blockedVmThreadIds)
    (members : before.allVmThreads ⊆ after.allVmThreads) : WakeupsKept after := by
  have waking := waking_of_control control (by simp [Control.waking])
  have isNew := not_engaged_of_executing placed kept executing
  have holds : (before.control worker).held = some thread := by rw [executing]; rfl
  refine ⟨fun other engaged => ?_, fun waker other isWaking => ?_,
    fun first second other isFirst isSecond =>
      kept.single first second other (waking first other isFirst)
        (waking second other isSecond)⟩
  · by_cases same : other = thread
    · subst same
      refine Or.inr ⟨isBlocked, members (placed.mem_of_held holds), Or.inr ⟨worker, ?_⟩⟩
      exact Or.inl (by rw [control, Function.update_self])
    · have earlier : Engaged before other := by
        rcases engaged with isPending | ⟨waker, isWaking⟩
        · rw [pending, Function.update_of_ne same] at isPending
          exact Or.inl isPending
        · exact Or.inr ⟨waker, waking waker other isWaking⟩
      exact engaged_step placed kept islocal earlier (by simp [executing])
        (by simp [executing]) (fun isParked => parked isParked)
        (fun isMember => members isMember)
  · have earlier := waking waker other isWaking
    have isOther : other ≠ thread := by
      rintro rfl
      exact isNew (Or.inr ⟨waker, earlier⟩)
    rw [pending, Function.update_of_ne isOther]
    exact kept.claimed waker other earlier

theorem kept_claimPeer (placed : Placed before) (kept : WakeupsKept before)
    (islocal : Local before after worker) {thread peer : ThreadId}
    (requesting : before.control worker = .requesting thread)
    (own : before.pendingRequest thread = true)
    (claimed : before.pendingRequest peer = true) (different : peer ≠ thread)
    (control : after.control =
      Function.update before.control worker (.unblocking thread peer .finding))
    (pending : ∀ other, after.pendingRequest other = true →
      other ≠ thread ∧ other ≠ peer ∧ before.pendingRequest other = true)
    (parked : before.blockedVmThreadIds ⊆ after.blockedVmThreadIds)
    (members : before.allVmThreads ⊆ after.allVmThreads) : WakeupsKept after := by
  have waking : ∀ waker other, (after.control waker).waking = some other →
      waker = worker ∧ other = peer ∨
        waker ≠ worker ∧ (before.control waker).waking = some other := by
    intro waker other isWaking
    rw [control] at isWaking
    by_cases same : waker = worker
    · rw [same, Function.update_self] at isWaking
      exact Or.inl ⟨same, (Option.some.inj isWaking).symm⟩
    · rw [Function.update_of_ne same] at isWaking
      exact Or.inr ⟨same, isWaking⟩
  have unclaimed : ∀ other, before.pendingRequest other = true → ∀ waker,
      (before.control waker).waking ≠ some other := by
    intro other isPending waker isWaking
    rw [kept.claimed waker other isWaking] at isPending
    cases isPending
  refine ⟨fun other engaged => ?_, fun waker other isWaking => ?_,
    fun first second other isFirst isSecond => ?_⟩
  · have earlier : other ≠ thread ∧ Engaged before other := by
      rcases engaged with isPending | ⟨waker, isWaking⟩
      · have facts := pending other isPending
        exact ⟨facts.1, Or.inl facts.2.2⟩
      · rcases waking waker other isWaking with ⟨_, rfl⟩ | ⟨_, was⟩
        · exact ⟨different, Or.inl claimed⟩
        · refine ⟨?_, Or.inr ⟨waker, was⟩⟩
          rintro rfl
          exact unclaimed other own waker was
    exact engaged_step placed kept islocal earlier.2
      (by simp [requesting, Ne.symm earlier.1]) (by simp [requesting])
      (fun isParked => parked isParked) (fun isMember => members isMember)
  · by_contra raised
    have facts := pending other (Bool.eq_true_of_not_eq_false raised)
    rcases waking waker other isWaking with ⟨_, isPeer⟩ | ⟨_, was⟩
    · exact facts.2.1 isPeer
    · exact unclaimed other facts.2.2 waker was
  · rcases waking first other isFirst with ⟨firstIs, rfl⟩ | ⟨_, wasFirst⟩
    · rcases waking second other isSecond with ⟨secondIs, _⟩ | ⟨_, wasSecond⟩
      · exact firstIs.trans secondIs.symm
      · exact absurd wasSecond (unclaimed other claimed second)
    · rcases waking second other isSecond with ⟨_, rfl⟩ | ⟨_, wasSecond⟩
      · exact absurd wasFirst (unclaimed other claimed first)
      · exact kept.single first second other wasFirst wasSecond

theorem kept_executes (placed : Placed before) (kept : WakeupsKept before)
    (executed : Executes before worker after) : WakeupsKept after := by
  have islocal := local_of_executes placed executed
  cases executed with
  | beginRequest thread state control isBlocked =>
      refine kept_beginRequest placed kept islocal control rfl rfl ?_
        (Finset.Subset.refl _) (Finset.Subset.refl _)
      simpa [setThreadState, setControl] using isBlocked
  | claimPeer thread peer control pending peerPending other =>
      refine kept_claimPeer placed kept islocal control pending peerPending other rfl ?_
        (Finset.Subset.refl _) (Finset.Subset.refl _)
      intro candidate isPending
      simp only [setControl, setPending, Function.update_apply] at isPending
      split at isPending
      · cases isPending
      · rename_i notPeer
        split at isPending
        · cases isPending
        · rename_i notOwn
          exact ⟨notOwn, notPeer, isPending⟩
  | finish thread state control | crash thread control =>
      exact kept_of_control placed kept islocal rfl rfl (by simp [Control.waking])
        (by simp [control]) (Finset.Subset.refl _) (Finset.Subset.refl _)
  | settle thread control pending =>
      refine kept_of_shrinking kept ?_ (waking_of_control rfl (by simp [Control.waking])) ?_
      · intro other isPending
        by_cases same : other = thread
        · rwa [same]
        · simpa [endCallback, setPending, setThreadState, setControl, same] using isPending
      · intro other engaged still
        have isOther : other ≠ thread := by
          rintro rfl
          rcases still with isPending | ⟨waker, isWaking⟩
          · simp [endCallback, setPending, setThreadState, setControl] at isPending
          · have was := waking_of_control rfl (by simp [Control.waking]) waker other isWaking
            rw [kept.claimed waker other was] at pending
            cases pending
        exact engaged_step placed kept islocal engaged
          (by simp [control, Ne.symm isOther]) (by simp [control]) id id
  | suspend thread control =>
      refine kept_of_shrinking kept (fun _ => id)
        (waking_of_control rfl (by simp [Control.waking])) ?_
      intro other engaged _
      by_cases same : other = thread
      · subst same
        rcases kept.suspending other engaged with broken | suspending
        · exact Or.inl broken
        · exact Or.inr ⟨suspending.state, suspending.member,
            Or.inr ⟨worker, Or.inr (by simp [setControl])⟩⟩
      · exact engaged_step placed kept islocal engaged (by simp [control, Ne.symm same])
          (by simp [control]) id id
  | throwException thread control =>
      refine kept_of_shrinking kept (fun _ => id)
        (waking_of_control rfl (by simp [Control.waking])) ?_
      intro other engaged _
      by_cases same : other = thread
      · exact Or.inl (by simp [same, setThreadState, setControl])
      · exact engaged_step placed kept islocal engaged (by simp [control, Ne.symm same])
          (by simp [control]) id id

end Steps

theorem kept_schedule {before : SchedulerState workers} (placed : Placed before)
    (kept : WakeupsKept before) {thread : ThreadId} (fresh : thread ∉ before.scheduled) :
    WakeupsKept
      { before with
        control := fun worker => startWorker (before.control worker)
        allVmThreads := insert thread before.allVmThreads
        runnableVmThreadIds := before.runnableVmThreadIds ++ [thread]
        currentThreadState := Function.update before.currentThreadState thread .ready
        scheduled := insert thread before.scheduled } := by
  have waking : ∀ worker, (startWorker (before.control worker)).waking =
      (before.control worker).waking := by
    intro worker
    cases before.control worker <;> rfl
  refine ⟨fun other engaged => ?_, fun worker other isWaking => ?_,
    fun first second other isFirst isSecond => ?_⟩
  · have earlier : Engaged before other := by
      rcases engaged with isPending | ⟨worker, isWaking⟩
      · exact Or.inl isPending
      · exact Or.inr ⟨worker, waking worker ▸ isWaking⟩
    have isOther : other ≠ thread := by
      rintro rfl
      rcases kept.suspending other earlier with broken | suspending
      · exact fresh (placed.crashed other broken)
      · exact fresh (placed.known suspending.member)
    rcases kept.suspending other earlier with broken | suspending
    · left
      dsimp only
      rw [Function.update_of_ne isOther, broken]
    · refine Or.inr ⟨?_, Finset.mem_insert_of_mem suspending.member, ?_⟩
      · dsimp only
        rw [Function.update_of_ne isOther]
        exact suspending.state
      · rcases suspending.place with isParked | ⟨worker, control⟩
        · exact Or.inl isParked
        · refine Or.inr ⟨worker, ?_⟩
          rcases control with found | found <;> simp [found, startWorker]
  · exact kept.claimed worker other (waking worker ▸ isWaking)
  · exact kept.single first second other (waking first ▸ isFirst) (waking second ▸ isSecond)

/-- Every state of every run keeps its callbacks in order. -/
theorem kept_of_reached {scheduler : SchedulerState workers}
    (reached : Reached scheduler) : WakeupsKept scheduler := by
  refine reached.invariant WakeupsKept ?_ ?_
  · exact ⟨by simp [Engaged, init, Control.waking], by simp [init], by simp [init, Control.waking]⟩
  · intro before after earlier kept edge
    have placed := placed_of_reached earlier
    cases edge with
    | schedule thread lockFree fresh => exact kept_schedule placed kept fresh
    | refuse => exact kept
    | advance worker advanced => exact kept_advance placed kept advanced
    | execute worker executed => exact kept_executes placed kept executed

/-- One step of the scheduler or of a thread. -/
def Steps : SchedulerState workers → SchedulerState workers → Prop :=
  Transition.StepsBy (fun _ _ => True) step

theorem steps_of_action {before after : SchedulerState workers} (action : Action workers)
    (stepped : before.step action = some after) : Steps before after :=
  ⟨action, trivial, stepped⟩

theorem edge_of_steps {before after : SchedulerState workers}
    (steps : Steps before after) : Edge before after := by
  obtain ⟨action, -, stepped⟩ := steps
  exact edge_of_step stepped

/-- While the ownership of a suspended thread is free the thread is blocked. -/
theorem parked_of_free {scheduler : SchedulerState workers} (locked : Locked scheduler)
    {thread : ThreadId} (free : scheduler.systemThreadOwnership thread = none)
    (suspending : Suspending scheduler thread) :
    thread ∈ scheduler.blockedVmThreadIds := by
  rcases suspending.place with isParked | ⟨worker, control⟩
  · exact isParked
  · have owner : scheduler.systemThreadOwnership thread = some worker := by
      refine (locked.ownership worker thread).mpr ?_
      rcases control with found | found <;> simp [found, Control.owned]
    rw [free] at owner
    cases owner

theorem waking_advance {before after : SchedulerState workers} {worker : Fin workers}
    {thread : ThreadId} (placed : Placed before) (locked : Locked before)
    (kept : WakeupsKept before)
    (waking : (before.control worker).waking = some thread)
    (advanced : Advance before worker after) :
    (after.control worker).waking = some thread ∨
      thread ∈ after.runnableVmThreadIds ∧ thread ∉ after.blockedVmThreadIds ∨
        after.currentThreadState thread = .broken := by
  have found := kept.suspending thread (Or.inr ⟨worker, waking⟩)
  have islocal := local_of_advance placed advanced
  cases advanced with
  | wait _ _ free | startPicking free =>
      exact absurd waking (Control.waking_of_isFree free thread)
  | startCollect control | finishCollect _ control | pick _ _ control
  | pickNone _ control | takeOwnership _ control | notified _ _ control
  | enqueueRunnable _ control | enqueueBlocked _ control | removeThread _ control
  | enqueueThrows _ control | release _ control | unwind _ control =>
      simp [control, Control.waking] at waking
  | found own peer control known =>
      rw [control] at waking
      cases waking
      exact Or.inl (by simp [setControl, Control.waking])
  | notFound own peer control unknown =>
      rw [control] at waking
      cases waking
      rcases found with broken | suspending
      · exact Or.inr (Or.inr (islocal.broken thread broken))
      · exact absurd suspending.member unknown
  | unblock own peer control lockFree free isBlocked =>
      rw [control] at waking
      cases waking
      exact Or.inr (Or.inl ⟨by simp, by simp⟩)
  | notBlocked own peer control lockFree free notBlocked =>
      rw [control] at waking
      cases waking
      rcases found with broken | suspending
      · exact Or.inr (Or.inr (islocal.broken thread broken))
      · exact absurd (parked_of_free locked free suspending) notBlocked

/-- A fired callback is served only by putting its thread into the runnable
queue, unless the thread has crashed. -/
theorem waking_edge {before after : SchedulerState workers} {worker : Fin workers}
    {thread : ThreadId} (placed : Placed before) (locked : Locked before)
    (kept : WakeupsKept before)
    (waking : (before.control worker).waking = some thread)
    (edge : Edge before after) :
    (after.control worker).waking = some thread ∨
      thread ∈ after.runnableVmThreadIds ∧ thread ∉ after.blockedVmThreadIds ∨
        after.currentThreadState thread = .broken := by
  cases edge with
  | schedule other lockFree fresh =>
      left
      cases control : before.control worker with
      | unstarted => simp [control, Control.waking] at waking
      | _ =>
          dsimp only
          rw [control] at waking
          rw [control]
          exact waking
  | refuse => exact Or.inl waking
  | execute other executed =>
      have islocal := local_of_executes placed executed
      by_cases same : worker = other
      · subst same
        cases executed <;> simp_all [Control.waking]
      · exact Or.inl ((islocal.control worker same).symm ▸ waking)
  | advance other advanced =>
      have islocal := local_of_advance placed advanced
      by_cases same : worker = other
      · subst same
        exact waking_advance placed locked kept waking advanced
      · exact Or.inl ((islocal.control worker same).symm ▸ waking)

/-- A run that the given worker takes no part in and in which no thread
crashes. -/
structure Quiet (worker : Fin workers) (before after : SchedulerState workers) : Prop where
  path : Relation.ReflTransGen Steps before after
  control : after.control worker = before.control worker
  broken : ∀ thread, after.currentThreadState thread = .broken →
    before.currentThreadState thread = .broken

namespace Quiet

variable {worker : Fin workers} {first middle last : SchedulerState workers}

theorem trans (start : Quiet worker first middle) (rest : Quiet worker middle last) :
    Quiet worker first last where
  path := start.path.trans rest.path
  control := rest.control.trans start.control
  broken thread isBroken := start.broken thread (rest.broken thread isBroken)

theorem step (action : Action workers) (stepped : first.step action = some last)
    (control : last.control worker = first.control worker)
    (broken : ∀ thread, last.currentThreadState thread = .broken →
      first.currentThreadState thread = .broken) : Quiet worker first last where
  path := Relation.ReflTransGen.single (steps_of_action action stepped)
  control := control
  broken := broken

theorem reached (quiet : Quiet worker first last) (start : Reached first) :
    Reached last := by
  obtain ⟨origin, isInitial, path⟩ := start
  exact ⟨origin, isInitial, path.trans quiet.path⟩

end Quiet

theorem broken_of_update_running {states : ThreadId → VmThreadState} {own thread : ThreadId}
    (isBroken : Function.update states own .running thread = .broken) :
    states thread = .broken := by
  by_cases same : thread = own
  · simp [same] at isBroken
  · rwa [Function.update_of_ne same] at isBroken

section Progress

variable {scheduler : SchedulerState workers} {worker : Fin workers} {waiting : ThreadId}

/-- A worker with a fired callback is at no other control point. -/
theorem ne_of_waking (other : Fin workers)
    (waking : (scheduler.control worker).waking = some waiting)
    (notWaking : (scheduler.control other).waking = none) : worker ≠ other := by
  rintro rfl
  rw [notWaking] at waking
  cases waking

/-- An owner that no longer holds the thread releases it without waiting. -/
theorem quiet_release (waking : (scheduler.control worker).waking = some waiting)
    {owner : Fin workers} {thread : ThreadId}
    (owns : thread ∈ (scheduler.control owner).owned)
    (notHeld : (scheduler.control owner).held ≠ some thread) :
    ∃ after, Quiet worker scheduler after ∧
      (∀ other, other ≠ owner → after.control other = scheduler.control other) ∧
        after.systemThreadOwnership thread = none ∧
          after.vmThreadsLock = scheduler.vmThreadsLock := by
  cases control : scheduler.control owner with
  | unstarted | looking | collecting _ | picking | awaitingGc | relocking | sleeping
  | acquiring _ | stopped => simp [control, Control.owned] at owns
  | executing own | requesting own | returning own | crashed own =>
      simp only [control, Control.owned, List.mem_singleton] at owns
      simp [control, Control.held, owns] at notHeld
  | releasing own =>
      simp only [control, Control.owned, List.mem_singleton] at owns
      have other := ne_of_waking owner waking (by rw [control]; rfl)
      refine ⟨scheduler.releaseOwnership owner own, .step (.advance owner) ?_ ?_ ?_, ?_, ?_, ?_⟩
      all_goals simp_all [step, advance, releaseOwnership, setControl, setOwnership]
  | unwinding own =>
      simp only [control, Control.owned, List.mem_singleton] at owns
      have other := ne_of_waking owner waking (by rw [control]; rfl)
      refine ⟨scheduler.unwind owner own, .step (.advance owner) ?_ ?_ ?_, ?_, ?_, ?_⟩
      all_goals simp_all [step, advance, unwind, setControl, setOwnership]
  | unblocking own peer stage =>
      cases stage with
      | finding | locking =>
          simp only [control, Control.owned, List.mem_singleton] at owns
          simp [control, Control.held, owns] at notHeld
      | notifying =>
          have isPeer : thread = peer := by
            simp only [control, Control.owned, List.mem_cons, List.not_mem_nil,
              or_false] at owns
            rcases owns with isOwn | isPeer
            · simp [control, Control.held, isOwn] at notHeld
            · exact isPeer
          subst isPeer
          have other := ne_of_waking owner waking (by rw [control]; rfl)
          refine ⟨(scheduler.setOwnership thread none).endCallback owner own,
            .step (.advance owner) ?_ ?_ ?_, ?_, ?_, rfl⟩
          · simp [step, advance, control]
          · simp [endCallback, setControl, setThreadState, setOwnership, other]
          · exact fun _ => broken_of_update_running
          · exact fun candidate isOther => Function.update_of_ne isOther _ _
          · simp [endCallback, setControl, setThreadState, setOwnership]

theorem quiet_acquire (reached : Reached scheduler)
    (waking : (scheduler.control worker).waking = some waiting)
    {taker : Fin workers} {thread : ThreadId}
    (taken : scheduler.control taker = .acquiring thread) :
    ∃ after, Quiet worker scheduler after ∧ after.vmThreadsLock = none := by
  have take : ∀ middle : SchedulerState workers, Quiet worker scheduler middle →
      middle.control taker = .acquiring thread →
        middle.systemThreadOwnership thread = none →
          ∃ after, Quiet worker scheduler after ∧ after.vmThreadsLock = none := by
    intro middle quiet control free
    have other : worker ≠ taker := ne_of_waking taker waking (by rw [taken]; rfl)
    refine ⟨middle.takeOwnership taker thread,
      quiet.trans (.step (.advance taker) ?_ ?_ ?_), rfl⟩
    · simp [step, advance, control, free]
    · simp [takeOwnership, setControl, setThreadState, setThreadsLock, setOwnership, other]
    · exact fun _ => broken_of_update_running
  cases owned : scheduler.systemThreadOwnership thread with
  | none => exact take scheduler ⟨Relation.ReflTransGen.refl, rfl, fun _ => id⟩ taken owned
  | some owner =>
      have owns := ((locked_of_reached reached).ownership owner thread).mp owned
      have takerHolds : (scheduler.control taker).held = some thread := by rw [taken]; rfl
      have different : taker ≠ owner := by
        rintro rfl
        simp [taken, Control.owned] at owns
      have notHeld : (scheduler.control owner).held ≠ some thread := fun holds =>
        different (((placed_of_reached reached).alone holds).2.2 taker takerHolds)
      obtain ⟨middle, quiet, control, free, _⟩ := quiet_release waking owns notHeld
      exact take middle quiet ((control taker different).trans taken) free

theorem quiet_pick (reached : Reached scheduler)
    (waking : (scheduler.control worker).waking = some waiting)
    {picker : Fin workers} (picking : scheduler.control picker = .picking) :
    ∃ after, Quiet worker scheduler after ∧ after.vmThreadsLock = none := by
  have other : worker ≠ picker := ne_of_waking picker waking (by rw [picking]; rfl)
  have picked : Quiet worker scheduler (scheduler.pickThread picker) := by
    refine .step (.advance picker) (by simp [step, advance, picking]) ?_ ?_
    · unfold pickThread
      split
      · simp [setControl, other]
      · split <;> simp [setControl, setThreadsLock, other]
    · unfold pickThread
      split
      · exact fun _ => id
      · split <;> exact fun _ => id
  cases queue : scheduler.runnableVmThreadIds with
  | nil =>
      refine ⟨_, picked, ?_⟩
      simp only [pickThread, queue]
      split <;> rfl
  | cons thread rest =>
      have later := picked.reached reached
      have stillWaking : ((scheduler.pickThread picker).control worker).waking =
          some waiting := by rw [picked.control, waking]
      obtain ⟨after, quiet, unlocked⟩ := quiet_acquire later stillWaking
        (by simp only [pickThread, queue, setControl]; exact Function.update_self _ _ _)
      exact ⟨after, picked.trans quiet, unlocked⟩

/-- Whoever has `_vm_threads_lock` gives it up. -/
theorem quiet_unlock (reached : Reached scheduler)
    (waking : (scheduler.control worker).waking = some waiting) :
    ∃ after, Quiet worker scheduler after ∧ after.vmThreadsLock = none := by
  cases held : scheduler.vmThreadsLock with
  | none => exact ⟨scheduler, ⟨Relation.ReflTransGen.refl, rfl, fun _ => id⟩, held⟩
  | some holder =>
      have inside := ((locked_of_reached reached).threadsLock holder).mp held
      cases control : scheduler.control holder with
      | collecting threads =>
          have other : worker ≠ holder := ne_of_waking holder waking (by rw [control]; rfl)
          have finished : Quiet worker scheduler (scheduler.finishCollect holder) := by
            refine .step (.advance holder) (by simp [step, advance, control]) ?_ fun _ => id
            simp [finishCollect, setControl, other]
          have stillWaking : ((scheduler.finishCollect holder).control worker).waking =
              some waiting := by rw [finished.control, waking]
          have picking : (scheduler.finishCollect holder).control holder = .picking := by
            simp [finishCollect, setControl]
          obtain ⟨after, quiet, unlocked⟩ :=
            quiet_pick (finished.reached reached) stillWaking picking
          exact ⟨after, finished.trans quiet, unlocked⟩
      | picking => exact quiet_pick reached waking control
      | acquiring thread => exact quiet_acquire reached waking control
      | _ =>
          rw [control] at inside
          cases inside

/-- The worker that holds a suspended thread is about to return it. -/
theorem Suspending.holder (placed : Placed scheduler) {thread : ThreadId}
    (suspending : Suspending scheduler thread) {owner : Fin workers}
    (holds : (scheduler.control owner).held = some thread) :
    scheduler.control owner = .requesting thread ∨
      scheduler.control owner = .returning thread := by
  rcases suspending.place with isParked | ⟨other, control⟩
  · exact absurd isParked (placed.alone holds).2.1
  · have otherHolds : (scheduler.control other).held = some thread := by
      rcases control with found | found <;> rw [found] <;> rfl
    exact (placed.alone holds).2.2 other otherHolds ▸ control

theorem quiet_return (waking : (scheduler.control worker).waking = some waiting)
    (unlocked : scheduler.vmThreadsLock = none) {owner : Fin workers}
    (returning : scheduler.control owner = .returning waiting)
    (isBlocked : (scheduler.currentThreadState waiting).isBlocked = true) :
    ∃ after, Quiet worker scheduler after ∧ after.vmThreadsLock = none ∧
      after.systemThreadOwnership waiting = none := by
  have other : worker ≠ owner := ne_of_waking owner waking (by rw [returning]; rfl)
  let middle : SchedulerState workers :=
    { scheduler.setControl owner (.releasing waiting) with
      runningVmThreadCount := scheduler.runningVmThreadCount - 1
      blockedVmThreadIds := insert waiting scheduler.blockedVmThreadIds }
  have enqueued : scheduler.enqueuePrevious owner waiting = middle := by
    cases state : scheduler.currentThreadState waiting with
    | blockedInAlt | blockedSending | blockedReceiving =>
        simp only [enqueuePrevious, state, enqueueThreadUnsafe]
        rfl
    | _ =>
        rw [state] at isBlocked
        cases isBlocked
  have returned : Quiet worker scheduler middle := by
    refine .step (.advance owner) ?_ ?_ fun _ => id
    · simp [step, advance, returning, unlocked, enqueued]
    · simp [middle, setControl, other]
  have stillWaking : (middle.control worker).waking = some waiting := by
    rw [returned.control, waking]
  have releasing : middle.control owner = .releasing waiting := by
    simp [middle, setControl]
  have owns : waiting ∈ (middle.control owner).owned := by simp [releasing, Control.owned]
  obtain ⟨after, quiet, _, free, lock⟩ := quiet_release stillWaking owns
    (by simp [releasing, Control.held])
  exact ⟨after, returned.trans quiet, lock.trans unlocked, free⟩

/-- The owner of a thread that a callback waits for puts it into the blocked
collection and releases it. -/
theorem quiet_suspend (reached : Reached scheduler)
    (waking : (scheduler.control worker).waking = some waiting)
    (notBroken : scheduler.currentThreadState waiting ≠ .broken)
    (unlocked : scheduler.vmThreadsLock = none) :
    ∃ after, Quiet worker scheduler after ∧ after.vmThreadsLock = none ∧
      after.systemThreadOwnership waiting = none := by
  have suspending : Suspending scheduler waiting :=
    ((kept_of_reached reached).suspending waiting (Or.inr ⟨worker, waking⟩)).resolve_left
      notBroken
  cases owned : scheduler.systemThreadOwnership waiting with
  | none => exact ⟨scheduler, ⟨Relation.ReflTransGen.refl, rfl, fun _ => id⟩, unlocked, owned⟩
  | some owner =>
      have owns := ((locked_of_reached reached).ownership owner waiting).mp owned
      by_cases holds : (scheduler.control owner).held = some waiting
      · rcases suspending.holder (placed_of_reached reached) holds with control | control
        · have other : worker ≠ owner := ne_of_waking owner waking (by rw [control]; rfl)
          have suspended : Quiet worker scheduler
              (scheduler.setControl owner (.returning waiting)) := by
            refine .step (.execute owner .suspend) ?_ ?_ fun _ => id
            · simp [step, SchedulerState.execute, control]
            · simp [setControl, other]
          have stillWaking := suspended.control ▸ waking
          obtain ⟨after, quiet, facts⟩ := quiet_return stillWaking unlocked
            (scheduler.setControl_self owner _) suspending.state
          exact ⟨after, suspended.trans quiet, facts⟩
        · exact quiet_return waking unlocked control suspending.state
      · obtain ⟨after, quiet, _, free, lock⟩ := quiet_release waking owns holds
        exact ⟨after, quiet, lock.trans unlocked, free⟩

/-- With the thread blocked and both locks free the callback finishes. -/
theorem serve (reached : Reached scheduler)
    (waking : (scheduler.control worker).waking = some waiting)
    (notBroken : scheduler.currentThreadState waiting ≠ .broken)
    (unlocked : scheduler.vmThreadsLock = none)
    (free : scheduler.systemThreadOwnership waiting = none) :
    ∃ after, Relation.ReflTransGen Steps scheduler after ∧
      waiting ∈ after.runnableVmThreadIds := by
  have suspending : Suspending scheduler waiting :=
    ((kept_of_reached reached).suspending waiting (Or.inr ⟨worker, waking⟩)).resolve_left
      notBroken
  have isParked := parked_of_free (locked_of_reached reached) free suspending
  have unblock : ∀ (middle : SchedulerState workers) (own : ThreadId),
      middle.control worker = .unblocking own waiting .locking →
        middle.vmThreadsLock = none → middle.systemThreadOwnership waiting = none →
          waiting ∈ middle.blockedVmThreadIds →
            ∃ after, Steps middle after ∧ waiting ∈ after.runnableVmThreadIds := by
    intro middle own control lock owner parked
    refine ⟨_, steps_of_action (.advance worker)
      (by simp [step, advance, control, lock, owner]; rfl), ?_⟩
    simp [unblockThread, parked, enqueueThreadUnsafe, setControl, setOwnership]
  cases control : scheduler.control worker with
  | unblocking own peer stage =>
      rw [control] at waking
      cases stage with
      | finding =>
          cases waking
          have found : Steps scheduler
              (scheduler.setControl worker (.unblocking own waiting .locking)) := by
            refine steps_of_action (.advance worker) ?_
            simp [step, advance, control, unlocked, findThread, suspending.member]
          obtain ⟨after, last, runnable⟩ := unblock _ own
            (scheduler.setControl_self worker _) unlocked free isParked
          exact ⟨after, (Relation.ReflTransGen.single found).tail last, runnable⟩
      | locking =>
          cases waking
          obtain ⟨after, last, runnable⟩ := unblock scheduler own control unlocked free isParked
          exact ⟨after, Relation.ReflTransGen.single last, runnable⟩
      | notifying => cases waking
  | _ =>
      rw [control] at waking
      cases waking

/-- From every state a fired callback can be served: no lock that it waits for
is held for good. -/
theorem callback_served (reached : Reached scheduler)
    (waking : (scheduler.control worker).waking = some waiting)
    (notBroken : scheduler.currentThreadState waiting ≠ .broken) :
    ∃ after, Relation.ReflTransGen Steps scheduler after ∧
      waiting ∈ after.runnableVmThreadIds := by
  obtain ⟨first, quietFirst, unlocked⟩ := quiet_unlock reached waking
  obtain ⟨second, quietSecond, stillUnlocked, free⟩ := quiet_suspend
    (quietFirst.reached reached) (by rw [quietFirst.control, waking])
    (fun broken => notBroken (quietFirst.broken waiting broken)) unlocked
  have quiet := quietFirst.trans quietSecond
  obtain ⟨after, path, runnable⟩ := serve (quiet.reached reached)
    (by rw [quiet.control, waking])
    (fun broken => notBroken (quiet.broken waiting broken)) stillUnlocked free
  exact ⟨after, quiet.path.trans path, runnable⟩

end Progress

/-- In every state of every run each thread that has not ended is in exactly one
place, the counter counts the workers that have a thread and those workers own
it, the collector runs while the counter is zero, and a fired callback stays in
flight until its thread is in the runnable queue, which nothing can prevent but
a crash of the thread. -/
theorem scheduler_ownership {scheduler : SchedulerState workers}
    (reached : Reached scheduler) :
    (∀ thread ∈ scheduler.allVmThreads, ¬ scheduler.Ended thread →
      scheduler.custody.ExactlyOnce thread) ∧
    scheduler.runningVmThreadCount =
      (Finset.univ.filter fun worker => (scheduler.control worker).held ≠ none).card ∧
    (∀ worker thread, (scheduler.control worker).held = some thread →
      scheduler.control worker ≠ .acquiring thread →
        scheduler.systemThreadOwnership thread = some worker) ∧
    (∀ worker threads, scheduler.control worker = .collecting threads →
      scheduler.runningVmThreadCount = 0 ∧
        ∀ other, (scheduler.control other).held = none) ∧
    (∀ worker thread, (scheduler.control worker).waking = some thread →
      (∀ after, Steps scheduler after →
        (after.control worker).waking = some thread ∨
          thread ∈ after.runnableVmThreadIds ∧ thread ∉ after.blockedVmThreadIds ∨
            after.currentThreadState thread = .broken) ∧
      (scheduler.currentThreadState thread ≠ .broken →
        ∃ after, Relation.ReflTransGen Steps scheduler after ∧
          thread ∈ after.runnableVmThreadIds)) := by
  have placed := placed_of_reached reached
  have locked := locked_of_reached reached
  have kept := kept_of_reached reached
  refine ⟨fun thread member notEnded => ?_, placed.counted,
    fun worker thread holds notAcquiring => ?_, fun worker threads collecting => ?_,
    fun worker thread waking => ⟨fun after steps => ?_, callback_served reached waking⟩⟩
  · rcases placed.inside thread member with once | ⟨absent, broken⟩
    · exact Custody.exactlyOnce_of_places once
    · exact absurd ⟨broken, (Custody.places_eq_zero.mp absent).2.2⟩ notEnded
  · refine (locked.ownership worker thread).mpr (owned_of_held holds notAcquiring)
  · exact ⟨locked.collecting worker threads collecting,
      idle_of_collecting placed locked collecting⟩
  · exact waking_edge placed locked kept waking (edge_of_steps steps)

/-- Thread 2 has claimed the request of thread 1, whose worker is still inside
the channel instruction. -/
def earlyWakeup : List (Action 2) :=
  [.schedule 1 .ready, .schedule 2 .ready,
    .advance 0, .advance 0, .advance 0, .advance 1, .advance 1, .advance 1,
    .execute 0 (.beginRequest .blockedReceiving),
    .execute 1 (.beginRequest .blockedSending), .execute 1 (.claimPeer 1)]

theorem scheduler_ownership_earlyWakeup :
    ∃ scheduler : SchedulerState 2,
      Transition.execute step init earlyWakeup = some scheduler ∧
        1 ∉ scheduler.blockedVmThreadIds ∧
          ∃ after, Relation.ReflTransGen Steps scheduler after ∧
            1 ∈ after.runnableVmThreadIds := by
  refine ⟨(Transition.execute step init earlyWakeup).get (by decide),
    (Option.some_get _).symm, by decide, ?_⟩
  exact ((scheduler_ownership (reached_of_replay (Option.some_get _).symm)).2.2.2.2
    1 1 (by decide)).2 (by decide)

end Disvm.Scheduler
