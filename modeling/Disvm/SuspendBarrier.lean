import Disvm.TransitionRuns
import Mathlib.Algebra.Order.Ring.Int

/-!
# Suspending all threads

`suspend_all_threads` waits for the other system threads to count themselves as
suspended.  It keeps both locks while it waits, and a thread takes one of them
before it counts itself.
-/

namespace Disvm.SuspendBarrier

/-- Where a thread is: in `block_if_thread_suspended`, in `suspend_all_threads`, in
`resume_all_threads` or in none of them. -/
inductive Control where
  | running
  | sawSuspended
  | counting
  | testing
  | waiting
  | leaving
  | suspending
  | comparing
  | suspended
  | resuming
  | notifying
  deriving DecidableEq, Repr

/-- What the functions share, and where each thread is. -/
structure Barrier where
  threadsSuspended : Bool
  threadsSuspendedCount : ℕ
  threadsSuspendLock : Option ℕ
  threadsResumeLock : Option ℕ
  control : ℕ → Control

inductive Action where
  | blockIfThreadSuspended (thread : ℕ)
  | suspendAllThreads (thread : ℕ)
  | resumeAllThreads (thread : ℕ)
  | advance (thread : ℕ)
  deriving DecidableEq, Repr

namespace Barrier

def setControl (barrier : Barrier) (thread : ℕ) (control : Control) : Barrier :=
  { barrier with control := Function.update barrier.control thread control }

/-- `std::lock` of both locks. -/
def lockBoth (barrier : Barrier) (thread : ℕ) (control : Control) : Option Barrier :=
  if barrier.threadsSuspendLock = none ∧ barrier.threadsResumeLock = none then
    some { barrier.setControl thread control with
      threadsSuspendLock := some thread
      threadsResumeLock := some thread }
  else none

/-- The resume lock, also when a wait for `_threads_resume` ends. -/
def lockResume (barrier : Barrier) (thread : ℕ) (control : Control) : Option Barrier :=
  if barrier.threadsResumeLock = none then
    some { barrier.setControl thread control with threadsResumeLock := some thread }
  else none

/-- The next step of a thread in one of the functions. -/
def advance (barrier : Barrier) (sysThreadCount thread : ℕ) : Option Barrier :=
  match barrier.control thread with
  | .running => none
  | .sawSuspended => barrier.lockResume thread .counting
  | .counting =>
      some { barrier.setControl thread .testing with
        threadsSuspendedCount := barrier.threadsSuspendedCount + 1 }
  | .testing =>
      if barrier.threadsSuspended then
        some { barrier.setControl thread .waiting with threadsResumeLock := none }
      else some (barrier.setControl thread .leaving)
  | .waiting => barrier.lockResume thread .testing
  | .leaving =>
      some { barrier.setControl thread .running with
        threadsSuspendedCount := barrier.threadsSuspendedCount - 1
        threadsResumeLock := none }
  | .suspending =>
      some { barrier.setControl thread .comparing with threadsSuspended := true }
  | .comparing =>
      if barrier.threadsSuspendedCount + 1 < sysThreadCount then some barrier
      else some (barrier.setControl thread .suspended)
  | .suspended =>
      some { barrier.setControl thread .running with
        threadsSuspendLock := none
        threadsResumeLock := none }
  | .resuming =>
      some { barrier.setControl thread .notifying with
        threadsSuspended := false
        threadsResumeLock := none }
  | .notifying =>
      some { barrier.setControl thread .running with threadsSuspendLock := none }

/-- A thread calls one of the functions, or goes on in the one that it is in; the
workers are the threads below their number. -/
def step (sysThreadCount : ℕ) (barrier : Barrier) : Action → Option Barrier
  | .blockIfThreadSuspended thread =>
      if barrier.control thread = .running ∧ thread < sysThreadCount then
        if barrier.threadsSuspended then some (barrier.setControl thread .sawSuspended)
        else some barrier
      else none
  | .suspendAllThreads thread =>
      if barrier.control thread = .running then barrier.lockBoth thread .suspending else none
  | .resumeAllThreads thread =>
      if barrier.control thread = .running then barrier.lockBoth thread .resuming else none
  | .advance thread => barrier.advance sysThreadCount thread

def start : Barrier where
  threadsSuspended := false
  threadsSuspendedCount := 0
  threadsSuspendLock := none
  threadsResumeLock := none
  control _ := .running

/-- One barrier follows another one. -/
def Steps (sysThreadCount : ℕ) (before after : Barrier) : Prop :=
  ∃ action, before.step sysThreadCount action = some after

def Reached (sysThreadCount : ℕ) : Barrier → Prop :=
  Transition.Reachable (fun barrier => barrier = start) (Steps sysThreadCount)

/-- A thread waits for the count while it holds the lock that the others need to
count themselves. -/
def Stuck (sysThreadCount : ℕ) (barrier : Barrier) : Prop :=
  ∃ thread, barrier.control thread = .comparing ∧
    barrier.threadsSuspendedCount + 1 < sysThreadCount ∧
    barrier.threadsResumeLock = some thread

def HoldsSuspend : Control → Prop
  | .suspending | .comparing | .suspended | .resuming | .notifying => True
  | _ => False

def HoldsResume : Control → Prop
  | .counting | .testing | .leaving | .suspending | .comparing | .suspended | .resuming => True
  | _ => False

/-- The locks are held by the threads that are between their acquisition and their
release. -/
structure Locked (barrier : Barrier) : Prop where
  suspend : ∀ thread, HoldsSuspend (barrier.control thread) →
    barrier.threadsSuspendLock = some thread
  resume : ∀ thread, HoldsResume (barrier.control thread) →
    barrier.threadsResumeLock = some thread

section Locks

variable {sysThreadCount thread : ℕ} {barrier after : Barrier} {control : Control}

/-- The place of one thread changes, with the locks that it takes or releases. -/
theorem Locked.move (locked : Locked barrier)
    (isControl : after.control = Function.update barrier.control thread control)
    (suspend : HoldsSuspend control → after.threadsSuspendLock = some thread)
    (resume : HoldsResume control → after.threadsResumeLock = some thread)
    (suspendKept : ∀ other, other ≠ thread → barrier.threadsSuspendLock = some other →
      after.threadsSuspendLock = some other)
    (resumeKept : ∀ other, other ≠ thread → barrier.threadsResumeLock = some other →
      after.threadsResumeLock = some other) : Locked after := by
  constructor
  · intro other holds
    rw [isControl] at holds
    by_cases same : other = thread
    · subst same
      rw [Function.update_self] at holds
      exact suspend holds
    · rw [Function.update_of_ne same] at holds
      exact suspendKept other same (locked.suspend other holds)
  · intro other holds
    rw [isControl] at holds
    by_cases same : other = thread
    · subst same
      rw [Function.update_self] at holds
      exact resume holds
    · rw [Function.update_of_ne same] at holds
      exact resumeKept other same (locked.resume other holds)

theorem locked_lockBoth (locked : Locked barrier)
    (taken : barrier.lockBoth thread control = some after) : Locked after := by
  unfold lockBoth at taken
  split_ifs at taken with free
  cases taken
  refine locked.move rfl (fun _ => rfl) (fun _ => rfl) ?_ ?_
  · intro other _ isHeld
    rw [free.1] at isHeld
    cases isHeld
  · intro other _ isHeld
    rw [free.2] at isHeld
    cases isHeld

theorem locked_lockResume (locked : Locked barrier)
    (taken : barrier.lockResume thread control = some after) (noSuspend : ¬ HoldsSuspend control) :
    Locked after := by
  unfold lockResume at taken
  split_ifs at taken with free
  cases taken
  refine locked.move rfl (fun holds => absurd holds noSuspend) (fun _ => rfl)
    (fun _ _ isHeld => isHeld) ?_
  intro other _ isHeld
  rw [free] at isHeld
  cases isHeld

/-- A thread that goes on without a change of the locks. -/
theorem Locked.goOn (locked : Locked barrier)
    (isControl : after.control = Function.update barrier.control thread control)
    (suspend : HoldsSuspend control → HoldsSuspend (barrier.control thread))
    (resume : HoldsResume control → HoldsResume (barrier.control thread))
    (suspendLock : after.threadsSuspendLock = barrier.threadsSuspendLock)
    (resumeLock : after.threadsResumeLock = barrier.threadsResumeLock) : Locked after := by
  refine locked.move isControl ?_ ?_ ?_ ?_
  · exact fun holds => suspendLock.trans (locked.suspend thread (suspend holds))
  · exact fun holds => resumeLock.trans (locked.resume thread (resume holds))
  · exact fun _ _ isHeld => suspendLock.trans isHeld
  · exact fun _ _ isHeld => resumeLock.trans isHeld

theorem not_other {lock : Option ℕ} {other : ℕ} (held : lock = some thread)
    (different : other ≠ thread) : lock ≠ some other := fun isOther =>
  different (Option.some.inj (isOther.symm.trans held))

theorem locked_advance (locked : Locked barrier)
    (advanced : barrier.advance sysThreadCount thread = some after) : Locked after := by
  have suspendHeld := locked.suspend thread
  have resumeHeld := locked.resume thread
  unfold advance at advanced
  cases isControl : barrier.control thread with
  | running =>
      rw [isControl] at advanced
      cases advanced
  | sawSuspended =>
      rw [isControl] at advanced
      exact locked_lockResume locked advanced fun holds => holds
  | counting =>
      rw [isControl] at advanced
      cases advanced
      refine locked.goOn rfl ?_ ?_ rfl rfl
      · exact fun holds => False.elim holds
      · exact fun _ => isControl ▸ trivial
  | testing =>
      rw [isControl] at advanced resumeHeld
      dsimp only at advanced
      split_ifs at advanced
      · cases advanced
        refine locked.move rfl (fun holds => False.elim holds) (fun holds => False.elim holds)
          (fun _ _ isHeld => isHeld) ?_
        exact fun other different isHeld =>
          absurd isHeld (not_other (resumeHeld trivial) different)
      · cases advanced
        refine locked.goOn rfl ?_ ?_ rfl rfl
        · exact fun holds => False.elim holds
        · exact fun _ => isControl ▸ trivial
  | waiting =>
      rw [isControl] at advanced
      exact locked_lockResume locked advanced fun holds => holds
  | leaving =>
      rw [isControl] at advanced resumeHeld
      cases advanced
      refine locked.move rfl (fun holds => False.elim holds) (fun holds => False.elim holds)
        (fun _ _ isHeld => isHeld) ?_
      exact fun other different isHeld =>
        absurd isHeld (not_other (resumeHeld trivial) different)
  | suspending =>
      rw [isControl] at advanced
      cases advanced
      refine locked.goOn rfl ?_ ?_ rfl rfl
      · exact fun _ => isControl ▸ trivial
      · exact fun _ => isControl ▸ trivial
  | comparing =>
      rw [isControl] at advanced
      dsimp only at advanced
      split_ifs at advanced
      · cases advanced
        exact locked
      · cases advanced
        refine locked.goOn rfl ?_ ?_ rfl rfl
        · exact fun _ => isControl ▸ trivial
        · exact fun _ => isControl ▸ trivial
  | suspended =>
      rw [isControl] at advanced suspendHeld resumeHeld
      cases advanced
      refine locked.move rfl (fun holds => False.elim holds) (fun holds => False.elim holds) ?_ ?_
      · exact fun other different isHeld =>
          absurd isHeld (not_other (suspendHeld trivial) different)
      · exact fun other different isHeld =>
          absurd isHeld (not_other (resumeHeld trivial) different)
  | resuming =>
      rw [isControl] at advanced suspendHeld resumeHeld
      cases advanced
      refine locked.move rfl (fun _ => suspendHeld trivial) (fun holds => False.elim holds)
        (fun _ _ isHeld => isHeld) ?_
      exact fun other different isHeld =>
        absurd isHeld (not_other (resumeHeld trivial) different)
  | notifying =>
      rw [isControl] at advanced suspendHeld
      cases advanced
      refine locked.move rfl (fun holds => False.elim holds) (fun holds => False.elim holds) ?_
        (fun _ _ isHeld => isHeld)
      exact fun other different isHeld =>
        absurd isHeld (not_other (suspendHeld trivial) different)

theorem locked_step (locked : Locked barrier) {action : Action}
    (stepped : barrier.step sysThreadCount action = some after) : Locked after := by
  cases action with
  | blockIfThreadSuspended thread =>
      unfold step at stepped
      dsimp only at stepped
      split_ifs at stepped
      · cases stepped
        exact locked.goOn rfl (fun holds => False.elim holds) (fun holds => False.elim holds)
          rfl rfl
      · cases stepped
        exact locked
  | suspendAllThreads thread =>
      unfold step at stepped
      dsimp only at stepped
      split_ifs at stepped
      exact locked_lockBoth locked stepped
  | resumeAllThreads thread =>
      unfold step at stepped
      dsimp only at stepped
      split_ifs at stepped
      exact locked_lockBoth locked stepped
  | advance thread => exact locked_advance locked stepped

theorem locked_of_reached (reached : Reached sysThreadCount barrier) : Locked barrier := by
  refine Transition.Reachable.invariant Locked ?_ ?_ reached
  · rintro _ rfl
    exact ⟨fun _ holds => False.elim holds, fun _ holds => False.elim holds⟩
  · rintro before after _ locked ⟨action, stepped⟩
    exact locked_step locked stepped

end Locks

section Waiting

variable {sysThreadCount : ℕ} {barrier after : Barrier}

/-- No other thread goes on. -/
theorem advance_blocked (locked : Locked barrier) {thread other : ℕ}
    (isControl : barrier.control thread = .comparing) (different : other ≠ thread) :
    barrier.advance sysThreadCount other = none := by
  have suspendHeld := locked.suspend thread (isControl ▸ trivial)
  have resumeHeld := locked.resume thread (isControl ▸ trivial)
  have noResume : ¬ HoldsResume (barrier.control other) := fun holds =>
    not_other resumeHeld different (locked.resume other holds)
  have noSuspend : ¬ HoldsSuspend (barrier.control other) := fun holds =>
    not_other suspendHeld different (locked.suspend other holds)
  have notFree : ∀ control, barrier.lockResume other control = none := fun control => by
    rw [lockResume, resumeHeld, if_neg (Option.some_ne_none thread)]
  unfold advance
  cases isOther : barrier.control other <;> rw [isOther] at noResume noSuspend
  case sawSuspended => exact notFree _
  case waiting => exact notFree _
  case notifying => exact absurd trivial noSuspend
  all_goals exact absurd trivial noResume

/-- A thread that waits like this does so after every step. -/
theorem stuck_of_step (locked : Locked barrier) (stuck : Stuck sysThreadCount barrier)
    (stepped : Steps sysThreadCount barrier after) : Stuck sysThreadCount after := by
  obtain ⟨thread, isControl, short, isHeld⟩ := stuck
  obtain ⟨action, stepped⟩ := stepped
  have notFree : barrier.threadsResumeLock ≠ none := by
    rw [isHeld]
    exact Option.some_ne_none thread
  cases action with
  | blockIfThreadSuspended other =>
      unfold step at stepped
      dsimp only at stepped
      split_ifs at stepped with enabled
      · cases stepped
        have different : thread ≠ other := fun same => by
          rw [same, enabled.1] at isControl
          cases isControl
        exact ⟨thread, (Function.update_of_ne different _ _).trans isControl, short, isHeld⟩
      · cases stepped
        exact ⟨thread, isControl, short, isHeld⟩
  | suspendAllThreads other =>
      unfold step lockBoth at stepped
      dsimp only at stepped
      split_ifs at stepped with _ free
      exact absurd free.2 notFree
  | resumeAllThreads other =>
      unfold step lockBoth at stepped
      dsimp only at stepped
      split_ifs at stepped with _ free
      exact absurd free.2 notFree
  | advance other =>
      have advanced : barrier.advance sysThreadCount other = some after := stepped
      by_cases same : other = thread
      · subst same
        unfold advance at advanced
        rw [isControl] at advanced
        dsimp only at advanced
        rw [if_pos short] at advanced
        cases advanced
        exact ⟨other, isControl, short, isHeld⟩
      · rw [advance_blocked locked isControl same] at advanced
        cases advanced

/-- It waits for ever. -/
theorem stuck_forever (reached : Reached sysThreadCount barrier)
    (stuck : Stuck sysThreadCount barrier)
    (run : Relation.ReflTransGen (Steps sysThreadCount) barrier after) :
    Stuck sysThreadCount after := by
  have both : Locked after ∧ Stuck sysThreadCount after := by
    induction run with
    | refl => exact ⟨locked_of_reached reached, stuck⟩
    | tail _ edge ih =>
        obtain ⟨action, stepped⟩ := edge
        exact ⟨locked_step ih.1 stepped, stuck_of_step ih.1 ih.2 ⟨action, stepped⟩⟩
  exact both.2

/-- The first call of `suspend_all_threads`. -/
theorem stuck_of_two (several : 2 ≤ sysThreadCount) :
    ∃ barrier, Reached sysThreadCount barrier ∧ Stuck sysThreadCount barrier := by
  let locked := (start.step sysThreadCount (.suspendAllThreads 0)).get rfl
  let comparing := (locked.step sysThreadCount (.advance 0)).get rfl
  have reachedStart : Reached sysThreadCount start := Transition.Reachable.start rfl
  have reachedLocked : Reached sysThreadCount locked :=
    reachedStart.next ⟨.suspendAllThreads 0, (Option.some_get _).symm⟩
  have reachedComparing : Reached sysThreadCount comparing :=
    reachedLocked.next ⟨.advance 0, (Option.some_get _).symm⟩
  refine ⟨comparing, reachedComparing, 0, rfl, ?_, rfl⟩
  show 0 + 1 < sysThreadCount
  omega

/-- No thread gets stuck exactly when there is one system thread at most. -/
theorem never_stuck_iff (sysThreadCount : ℕ) :
    (∀ barrier, Reached sysThreadCount barrier → ¬ Stuck sysThreadCount barrier) ↔
      sysThreadCount ≤ 1 := by
  constructor
  · intro never
    by_contra several
    obtain ⟨barrier, reached, stuck⟩ := stuck_of_two (show 2 ≤ sysThreadCount by omega)
    exact never barrier reached stuck
  · rintro few barrier - ⟨thread, -, short, -⟩
    omega

end Waiting

/-- With two system threads the first call waits for ever. -/
theorem stuck_two_threads : ¬ ∀ barrier, Reached 2 barrier → ¬ Stuck 2 barrier := by
  intro never
  obtain ⟨barrier, reached, stuck⟩ := stuck_of_two (le_refl 2)
  exact never barrier reached stuck

end Barrier

end Disvm.SuspendBarrier
