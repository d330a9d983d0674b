import Disvm.ChannelLocks

/-!
# The life cycle of a channel instruction

An instruction raises its thread's flag, and exactly one worker lowers it
again: its own worker, the worker of a peer that matched one of its requests,
or its own worker giving up.  Whoever lowers the flag also settles the
instruction.  This holds for all threads, whatever instructions they execute.
-/

namespace Disvm.ChannelSystem

open VmState

open Function (update)

/-- What a control point means for the thread's own instruction. -/
inductive Role where
  | idle
  | broken
  -- another worker may have lowered the flag
  | passive
  -- after the flag test, under the thread's request lock
  | searching
  -- after an operation that was handled at once
  | settling
  | withdrawing
  deriving DecidableEq, Repr

def Control.role : Control → Role
  | .idle => .idle
  | .broken => .broken
  | .blocked => .passive
  | .registering _ _ => .passive
  | .entered _ => .passive
  | .withdrawable => .passive
  | .scanning _ => .searching
  | .inspecting _ _ => .searching
  | .cancelling (.callback _ _) _ => .settling
  | .cancelling (.handled _) _ => .settling
  | .cancelling .nonBlocking _ => .withdrawing
  | .waking _ _ => .settling
  | .handled _ => .settling

/-- The thread a worker is about to make runnable. -/
def Control.serving : Control → Option ThreadId
  | .cancelling (.callback _ peer) _ => some peer.threadId
  | .waking _ peer => some peer.threadId
  | _ => none

/-- The flags and control points that occur in each phase. -/
def Fits : Phase → Bool → Role → Prop
  | .quiet, pending, role => pending = false ∧ (role = .idle ∨ role = .broken)
  | .offering, pending, role =>
      pending = true ∧ (role = .passive ∨ role = .searching ∨ role = .broken)
  | .completing, pending, role => pending = false ∧ role = .settling
  | .completedBy _, pending, role => pending = false ∧ (role = .passive ∨ role = .broken)
  | .withdrawn, pending, role => pending = false ∧ role = .withdrawing

variable {Value : Type*}

structure Lifecycle (system : VmState Value) : Prop where
  fits : ∀ threadId, Fits (system.phase threadId) (system.pendingRequest threadId)
    (system.control threadId).role
  served : ∀ threadId worker, system.phase threadId = .completedBy worker ↔
    (system.control worker).serving = some threadId

theorem role_of_serving {control : Control} {threadId : ThreadId}
    (serving : control.serving = some threadId) : control.role = .settling := by
  cases control with
  | cancelling owner pass => cases owner <;> trivial
  | _ => trivial

namespace Lifecycle

variable {system : VmState Value} {threadId worker : ThreadId}

theorem quiet_of_idle (cycle : Lifecycle system)
    (idle : system.control threadId = .idle) : system.phase threadId = .quiet := by
  have fits := cycle.fits threadId
  rw [idle] at fits
  cases phase : system.phase threadId <;> simp_all [Fits, Control.role]

theorem offering_of_pending (cycle : Lifecycle system)
    (pending : system.pendingRequest threadId = true) :
    system.phase threadId = .offering := by
  have fits := cycle.fits threadId
  rw [pending] at fits
  cases phase : system.phase threadId <;> simp_all [Fits]

theorem offering_of_searching (cycle : Lifecycle system)
    (searching : (system.control threadId).role = .searching) :
    system.phase threadId = .offering := by
  have fits := cycle.fits threadId
  rw [searching] at fits
  cases phase : system.phase threadId <;> simp_all [Fits]

theorem completing_of_settling (cycle : Lifecycle system)
    (settling : (system.control threadId).role = .settling) :
    system.phase threadId = .completing := by
  have fits := cycle.fits threadId
  rw [settling] at fits
  cases phase : system.phase threadId <;> simp_all [Fits]

theorem withdrawn_of_withdrawing (cycle : Lifecycle system)
    (withdrawing : (system.control threadId).role = .withdrawing) :
    system.phase threadId = .withdrawn := by
  have fits := cycle.fits threadId
  rw [withdrawing] at fits
  cases phase : system.phase threadId <;> simp_all [Fits]

/-- The flag tells the two phases of a passive control point apart. -/
theorem passive_cases (cycle : Lifecycle system)
    (passive : (system.control threadId).role = .passive) :
    (system.phase threadId = .offering ∧ system.pendingRequest threadId = true) ∨
      ∃ worker, system.phase threadId = .completedBy worker ∧
        system.pendingRequest threadId = false := by
  have fits := cycle.fits threadId
  rw [passive] at fits
  cases phase : system.phase threadId <;> simp_all [Fits]

/-- Steps that only concern the instruction of their own worker. -/
theorem move {after : VmState Value} (cycle : Lifecycle system) (next : Control)
    (phase : Phase) (pending : Bool)
    (control : after.control = update system.control worker next)
    (phases : after.phase = update system.phase worker phase)
    (pendings : after.pendingRequest = update system.pendingRequest worker pending)
    (serving : next.serving = (system.control worker).serving)
    (completer : ∀ other, phase = .completedBy other ↔
      system.phase worker = .completedBy other)
    (fits : Fits phase pending next.role) : Lifecycle after where
  fits other := by
    rw [control, phases, pendings]
    by_cases same : other = worker
    · subst same
      simpa using fits
    · simpa [same] using cycle.fits other
  served threadId other := by
    have servingOther : (after.control other).serving = (system.control other).serving := by
      by_cases same : other = worker
      · subst same
        simpa [control] using serving
      · simp [control, same]
    rw [servingOther, ← cycle.served threadId other, phases]
    by_cases same : threadId = worker
    · subst same
      simpa using completer other
    · simp [same]

/-- Steps between two control points that leave phases and flags alone. -/
theorem step {after : VmState Value} (cycle : Lifecycle system) {current next : Control}
    (isCurrent : system.control worker = current)
    (control : after.control = update system.control worker next)
    (phases : after.phase = system.phase)
    (pendings : after.pendingRequest = system.pendingRequest)
    (serving : next.serving = current.serving)
    (fits : Fits (system.phase worker) (system.pendingRequest worker) current.role →
      Fits (system.phase worker) (system.pendingRequest worker) next.role) :
    Lifecycle after := by
  refine cycle.move next (system.phase worker) (system.pendingRequest worker) control
    (by simp [phases]) (by simp [pendings]) (isCurrent ▸ serving) (fun _ => Iff.rfl) ?_
  exact fits (isCurrent ▸ cycle.fits worker)

/-- The worker returns to the interpreter loop. -/
theorem finish {after : VmState Value} (cycle : Lifecycle system)
    (control : after.control = update system.control worker .idle)
    (phases : after.phase = update system.phase worker .quiet)
    (pendings : after.pendingRequest = system.pendingRequest)
    (notServing : (system.control worker).serving = none)
    (settled : system.phase worker = .completing ∨ system.phase worker = .withdrawn) :
    Lifecycle after := by
  have lowered : system.pendingRequest worker = false := by
    have fits := cycle.fits worker
    rcases settled with completing | withdrawn
    · rw [completing] at fits
      exact fits.1
    · rw [withdrawn] at fits
      exact fits.1
  refine cycle.move .idle .quiet false control phases (by simp [pendings, ← lowered])
    notServing.symm ?_ ⟨rfl, Or.inl rfl⟩
  intro other
  rcases settled with completing | withdrawn
  · simp [completing]
  · simp [withdrawn]

end Lifecycle

theorem fits_passive {phase : Phase} {pending : Bool} {role : Role}
    (fits : Fits phase pending .passive) (stays : role = .passive ∨ role = .broken) :
    Fits phase pending role := by
  cases phase <;> simp_all [Fits]
  rcases stays with rfl | rfl <;> simp

theorem lifecycle_initial [Inhabited Value] {system : VmState Value}
    (initial : Initial system) : Lifecycle system where
  fits threadId := by
    rw [initial.phase, initial.notPending, initial.idle]
    exact ⟨rfl, Or.inl rfl⟩
  served threadId worker := by
    rw [initial.phase, initial.idle]
    simp [Control.serving]

theorem lifecycle_match {system : VmState Value} {worker : ThreadId} {visit : Visit}
    {peer : Request HandledCallback} (channel : Channel HandledCallback Value)
    (memory : Address → Value) (held : LocksHeld system) (cycle : Lifecycle system)
    (control : system.control worker = .inspecting visit peer)
    (raised : system.pendingRequest peer.threadId = true) :
    Lifecycle (system.matchPeer worker visit peer channel memory) := by
  have different := held.peerElse worker visit peer control
  have peerOffering := cycle.offering_of_pending raised
  have workerOffering : system.phase worker = .offering :=
    cycle.offering_of_searching (by rw [control]; rfl)
  -- the worker holds the peer's lock, so the peer's worker is not past its flag test
  have peerPassive : (system.control peer.threadId).role = .passive ∨
      (system.control peer.threadId).role = .broken := by
    have fits := cycle.fits peer.threadId
    rw [peerOffering] at fits
    rcases fits.2 with passive | searching | broken
    · exact Or.inl passive
    · have workerHolds : system.requestLock peer.threadId = some worker := by
        rw [held.request, control]
        exact Or.inr rfl
      have peerHolds : system.requestLock peer.threadId = some peer.threadId := by
        rw [held.request]
        cases peerControl : system.control peer.threadId <;>
          rw [peerControl] at searching <;> try cases searching
        · exact rfl
        · exact Or.inl rfl
        · next owner pass => cases owner <;> cases searching
      rw [workerHolds, Option.some.injEq] at peerHolds
      exact absurd peerHolds.symm different
    · exact Or.inr broken
  have serving : ((system.matchPeer worker visit peer channel memory).control
      worker).serving = some peer.threadId := by
    rcases matchPeer_control system worker visit peer channel memory with
      matched | matched <;>
    · rw [matched]
      rfl
  constructor
  · intro threadId
    by_cases isWorker : threadId = worker
    · subst isWorker
      rw [role_of_serving serving]
      simp [matchPeer, Fits, Ne.symm different]
    · by_cases isPeer : threadId = peer.threadId
      · subst isPeer
        simp [matchPeer, Fits, different, peerPassive]
      · simpa [matchPeer, isWorker, isPeer] using cycle.fits threadId
  · intro threadId other
    by_cases isWorker : other = worker
    · subst isWorker
      rw [serving, Option.some.injEq]
      by_cases isPeer : threadId = peer.threadId
      · simp [matchPeer, isPeer]
      · by_cases isSelf : threadId = other
        · subst isSelf
          simp [matchPeer, isPeer, Ne.symm isPeer]
        · have notServing : system.phase threadId ≠ .completedBy other := by
            intro completed
            have := (cycle.served threadId other).mp completed
            rw [control] at this
            cases this
          simp [matchPeer, isPeer, Ne.symm isPeer, isSelf, notServing]
    · have sameControl : (system.matchPeer worker visit peer channel memory).control other =
          system.control other := by
        simp [matchPeer, isWorker]
      rw [sameControl, ← cycle.served threadId other]
      by_cases isPeer : threadId = peer.threadId
      · subst isPeer
        simp [matchPeer, peerOffering, Ne.symm isWorker]
      · by_cases isSelf : threadId = worker
        · subst isSelf
          simp [matchPeer, isPeer, workerOffering]
        · simp [matchPeer, isPeer, isSelf]

/-- After the callback nobody serves the peer any more. -/
theorem lifecycle_served {system after : VmState Value} {worker : ThreadId} {visit : Visit}
    {peer : Request HandledCallback} (cycle : Lifecycle system)
    (control : system.control worker = .waking visit peer)
    (controlAfter : after.control worker = .handled visit)
    (others : ∀ other, other ≠ worker →
      (after.control other).serving = (system.control other).serving)
    (phase : after.phase = update system.phase peer.threadId .quiet)
    (threadId other : ThreadId) :
    after.phase threadId = .completedBy other ↔
      (after.control other).serving = some threadId := by
  have completed : system.phase peer.threadId = .completedBy worker :=
    (cycle.served peer.threadId worker).mpr (by rw [control]; rfl)
  rw [phase]
  by_cases isWorker : other = worker
  · subst isWorker
    rw [controlAfter]
    by_cases isPeer : threadId = peer.threadId
    · simp [isPeer, Control.serving]
    · have notServing : system.phase threadId ≠ .completedBy other := by
        intro served
        have := (cycle.served threadId other).mp served
        rw [control] at this
        exact isPeer (Option.some.inj this).symm
      simp [isPeer, notServing, Control.serving]
  · rw [others other isWorker, ← cycle.served threadId other]
    by_cases isPeer : threadId = peer.threadId
    · subst isPeer
      simp [completed, Ne.symm isWorker]
    · simp [isPeer]

theorem lifecycle_wake {system : VmState Value} {worker : ThreadId} {visit : Visit}
    {peer : Request HandledCallback} (cycle : Lifecycle system)
    (control : system.control worker = .waking visit peer)
    (blocked : system.control peer.threadId = .blocked) :
    Lifecycle (system.wake worker visit peer) := by
  have completed : system.phase peer.threadId = .completedBy worker :=
    (cycle.served peer.threadId worker).mpr (by rw [control]; rfl)
  have completing : system.phase worker = .completing :=
    cycle.completing_of_settling (by rw [control]; rfl)
  have different : worker ≠ peer.threadId := by
    rintro same
    rw [← same, control] at blocked
    cases blocked
  constructor
  · intro threadId
    by_cases isWorker : threadId = worker
    · subst isWorker
      have := (cycle.fits threadId)
      rw [completing, control] at this
      simpa [wake, different, completing, Control.role] using this
    · by_cases isPeer : threadId = peer.threadId
      · subst isPeer
        have := (cycle.fits peer.threadId)
        rw [completed] at this
        simp [wake, isWorker, Fits, Control.role, this.1]
      · simpa [wake, isWorker, isPeer] using cycle.fits threadId
  · refine lifecycle_served cycle control (by simp [wake]) ?_ rfl
    intro other isWorker
    by_cases isPeer : other = peer.threadId
    · subst isPeer
      rw [blocked]
      simp [wake, isWorker, Control.serving]
    · simp [wake, isWorker, isPeer]

theorem lifecycle_wakeMissed {system : VmState Value} {worker : ThreadId} {visit : Visit}
    {peer : Request HandledCallback} (cycle : Lifecycle system)
    (control : system.control worker = .waking visit peer)
    (stopped : system.control peer.threadId = .idle ∨
      system.control peer.threadId = .broken) :
    Lifecycle (system.wakeMissed worker visit peer) := by
  have completed : system.phase peer.threadId = .completedBy worker :=
    (cycle.served peer.threadId worker).mpr (by rw [control]; rfl)
  have completing : system.phase worker = .completing :=
    cycle.completing_of_settling (by rw [control]; rfl)
  have broken : system.control peer.threadId = .broken := by
    rcases stopped with idle | broken
    · rw [cycle.quiet_of_idle idle] at completed
      cases completed
    · exact broken
  have different : worker ≠ peer.threadId := by
    rintro same
    rw [← same, control] at broken
    cases broken
  constructor
  · intro threadId
    by_cases isWorker : threadId = worker
    · subst isWorker
      have := (cycle.fits threadId)
      rw [completing, control] at this
      simpa [wakeMissed, different, completing, Control.role] using this
    · by_cases isPeer : threadId = peer.threadId
      · subst isPeer
        have := (cycle.fits peer.threadId)
        rw [completed] at this
        simp [wakeMissed, isWorker, Fits, Control.role, broken, this.1]
      · simpa [wakeMissed, isWorker, isPeer] using cycle.fits threadId
  · refine lifecycle_served cycle control (by simp [wakeMissed]) ?_ rfl
    intro other isWorker
    simp [wakeMissed, isWorker]

section Steps

variable [IntCast Value]

theorem lifecycle_edge {system after : VmState Value} {worker : ThreadId}
    (held : LocksHeld system) (cycle : Lifecycle system)
    (edge : Edge system worker after) : Lifecycle after := by
  have passive {role : Role} (stays : role = .passive ∨ role = .broken)
      (fits : Fits (system.phase worker) (system.pendingRequest worker) .passive) :
      Fits (system.phase worker) (system.pendingRequest worker) role :=
    fits_passive fits stays
  cases edge with
  | matchPeer visit peer channel memory control raised =>
      exact lifecycle_match channel memory held cycle control raised
  | wake visit peer control blocked => exact lifecycle_wake cycle control blocked
  | wakeMissed visit peer control stopped => exact lifecycle_wakeMissed cycle control stopped
  | start instruction order idle =>
      have quiet := cycle.quiet_of_idle idle
      refine cycle.move _ _ _ rfl rfl rfl ?_ ?_ ?_
      · rw [idle]
        split <;> rfl
      · rw [quiet]
        intro other
        split <;> simp
      · generalize (!instruction.isAlt && (instruction.channelAt 0).isNone) = refused
        cases refused <;> simp [Fits, Control.role]
  | settleFromBuffer visit channel memory control =>
      have offering := cycle.offering_of_searching
        (by rw [control]; rfl : (system.control worker).role = .searching)
      refine cycle.move _ _ _ rfl rfl rfl ?_ (by simp [offering]) ⟨rfl, rfl⟩
      rw [control]
      rfl
  | withdraw control raised =>
      have offering := cycle.offering_of_pending raised
      refine cycle.move _ _ _ rfl rfl rfl ?_ (by simp [offering]) ⟨rfl, rfl⟩
      rw [control]
      rfl
  | passFinish owner handledIndex control =>
      cases owner with
      | callback visit peer => exact cycle.step control rfl rfl rfl rfl id
      | handled visit =>
          exact cycle.finish rfl rfl rfl (by rw [control]; rfl)
            (Or.inl (cycle.completing_of_settling (by rw [control]; rfl)))
      | nonBlocking =>
          exact cycle.finish rfl rfl rfl (by rw [control]; rfl)
            (Or.inr (cycle.withdrawn_of_withdrawing (by rw [control]; rfl)))
  | finishAlone visit control | finishPlain visit control =>
      exact cycle.finish rfl rfl rfl (by rw [control]; rfl)
        (Or.inl (cycle.completing_of_settling (by rw [control]; rfl)))
  | scan visit control raised =>
      refine cycle.step control rfl rfl rfl rfl ?_
      rw [cycle.offering_of_pending raised]
      exact fun fits => ⟨fits.1, Or.inr (Or.inl rfl)⟩
  | queueRequest visit control =>
      refine cycle.step control rfl rfl rfl rfl ?_
      rw [cycle.offering_of_searching (by rw [control]; rfl)]
      exact fun fits => ⟨fits.1, Or.inl rfl⟩
  | lockRequest queued control | suspend queued control
  | enter queued index todo channel control | leave visit control | giveUp control =>
      exact cycle.step control rfl rfl rfl rfl id
  | throwNil queued index todo control =>
      exact cycle.step control rfl rfl rfl rfl (passive (Or.inr rfl))
  | lockPeer visit peer rest control | skipPeer visit peer control
  | clear visit control =>
      exact cycle.step control rfl rfl rfl rfl id
  | passHandled owner index rest handledIndex channel control
  | passAsk owner index rest handledIndex channel control
  | passLock owner channel remaining handledIndex control
  | passCancel owner channel remaining handledIndex control =>
      cases owner <;> exact cycle.step control rfl rfl rfl rfl id

theorem lifecycle_of_reached [Inhabited Value]
    {allowed : VmState Value → ThreadId → Action → Prop} {system : VmState Value}
    (reached : Reached allowed system) : Lifecycle system := by
  refine Reached.invariant Lifecycle (fun _ initial => lifecycle_initial initial) ?_ reached
  intro before worker action after earlier cycle _ stepped
  exact lifecycle_edge (locksHeld_of_reached earlier) cycle (edge_of_step stepped)

end Steps

end Disvm.ChannelSystem
