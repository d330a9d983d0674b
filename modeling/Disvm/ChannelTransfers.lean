import Disvm.ChannelLifecycle

/-!
# Transfers and suspensions of an instruction

Each instruction makes at most one data transfer, and a thread it suspended is
made runnable once, after that transfer.  This holds for all threads.
-/

namespace Disvm.ChannelSystem

open VmState

open Function (update)

variable {Value : Type*}

/-- The logged transfers of a thread's instruction. -/
def madeDuring (log : List Transfer) (threadId : ThreadId) (serial : ℕ) : List Transfer :=
  log.filter fun entry => entry.threadId = threadId ∧ entry.during = some serial

/-- The transfers made during the current instruction of a thread. -/
def VmState.transfersOf (system : VmState Value) (threadId : ThreadId) : List Transfer :=
  madeDuring system.transfers threadId (system.serial threadId)

/-- The number of transfers in each phase of an instruction. -/
def Phase.Made : Phase → ℕ → Prop
  | .quiet, made => made ≤ 1
  | .offering, made => made = 0
  | .completing, made => made = 1
  | .completedBy _, made => made = 1
  | .withdrawn, made => made = 0

structure Tallied (system : VmState Value) : Prop where
  past : ∀ entry ∈ system.transfers,
    ∃ serial, entry.during = some serial ∧ serial ≤ system.serial entry.threadId
  made : ∀ threadId, (system.phase threadId).Made (system.transfersOf threadId).length
  active : ∀ threadId, system.control threadId ≠ .idle →
    system.wakeups threadId = 0 ∧
      system.suspensions threadId =
        if system.control threadId = .blocked then 1 else 0
  resumed : ∀ threadId, system.control threadId = .idle →
    system.wakeups threadId = system.suspensions threadId ∧
      system.wakeups threadId ≤ 1 ∧
      (system.wakeups threadId = 1 → (system.transfersOf threadId).length = 1)

theorem tallied_initial [Inhabited Value] {system : VmState Value}
    (initial : Initial system) : Tallied system where
  past entry member := by
    rw [initial.transfers] at member
    cases member
  made threadId := by
    simp [initial.phase, transfersOf, madeDuring, initial.transfers, Phase.Made]
  active threadId notIdle := absurd (initial.idle threadId) notIdle
  resumed threadId idle := by
    simp [initial.wakeups, initial.suspensions]

theorem transfersOf_eq {system after : VmState Value}
    (transfers : after.transfers = system.transfers)
    (serials : after.serial = system.serial) (threadId : ThreadId) :
    after.transfersOf threadId = system.transfersOf threadId := by
  simp only [transfersOf, transfers, serials]

/-- Steps that neither begin nor end a suspension. -/
theorem Tallied.advance {system after : VmState Value} {worker : ThreadId}
    (tallied : Tallied system) {next : Control}
    (control : after.control = update system.control worker next)
    (wakeups : after.wakeups = system.wakeups)
    (suspensions : after.suspensions = system.suspensions)
    (running : system.control worker ≠ .idle ∧ system.control worker ≠ .blocked)
    (notBlocked : next ≠ .blocked)
    (past : ∀ entry ∈ after.transfers,
      ∃ serial, entry.during = some serial ∧ serial ≤ after.serial entry.threadId)
    (made : ∀ threadId, (after.phase threadId).Made (after.transfersOf threadId).length)
    (idle : ∀ threadId, system.control threadId = .idle →
      after.transfersOf threadId = system.transfersOf threadId) : Tallied after where
  past := past
  made := made
  active threadId := by
    rw [control, wakeups, suspensions]
    by_cases same : threadId = worker
    · subst same
      have counted := tallied.active threadId running.1
      simpa [notBlocked, running.2] using fun _ => counted
    · simpa [same] using tallied.active threadId
  resumed threadId := by
    rw [control, wakeups, suspensions]
    by_cases same : threadId = worker
    · subst same
      have counted := tallied.active threadId running.1
      simp [counted.1, counted.2, running.2]
    · rw [Function.update_of_ne same]
      intro isIdle
      rw [idle threadId isIdle]
      exact tallied.resumed threadId isIdle

/-- Steps that make no transfer either. -/
theorem Tallied.move {system after : VmState Value} {worker : ThreadId}
    (tallied : Tallied system) {next : Control}
    (control : after.control = update system.control worker next)
    (transfers : after.transfers = system.transfers)
    (serials : after.serial = system.serial)
    (wakeups : after.wakeups = system.wakeups)
    (suspensions : after.suspensions = system.suspensions)
    (running : system.control worker ≠ .idle ∧ system.control worker ≠ .blocked)
    (notBlocked : next ≠ .blocked)
    (made : ∀ threadId, (system.phase threadId).Made (system.transfersOf threadId).length →
      (after.phase threadId).Made (system.transfersOf threadId).length) :
    Tallied after := by
  refine tallied.advance control wakeups suspensions running notBlocked ?_ ?_ ?_
  · rw [transfers, serials]
    exact tallied.past
  · intro threadId
    rw [transfersOf_eq transfers serials]
    exact made threadId (tallied.made threadId)
  · intro threadId _
    exact transfersOf_eq transfers serials threadId

/-- The worker returns to the interpreter loop. -/
theorem Tallied.finish {system after : VmState Value} {worker : ThreadId}
    (tallied : Tallied system)
    (control : after.control = update system.control worker .idle)
    (phases : after.phase = update system.phase worker .quiet)
    (transfers : after.transfers = system.transfers)
    (serials : after.serial = system.serial)
    (wakeups : after.wakeups = system.wakeups)
    (suspensions : after.suspensions = system.suspensions)
    (running : system.control worker ≠ .idle ∧ system.control worker ≠ .blocked)
    (settled : system.phase worker = .completing ∨ system.phase worker = .withdrawn) :
    Tallied after := by
  refine tallied.move control transfers serials wakeups suspensions running (by simp) ?_
  intro threadId made
  rw [phases]
  by_cases same : threadId = worker
  · subst same
    rw [Function.update_self]
    rcases settled with completing | withdrawn
    · rw [completing] at made
      exact made.le
    · rw [withdrawn] at made
      exact made.le.trans (Nat.zero_le 1)
  · simpa [same] using made

/-- The worker suspends its thread. -/
theorem Tallied.suspend {system after : VmState Value} {worker : ThreadId}
    (tallied : Tallied system)
    (control : after.control = update system.control worker .blocked)
    (transfers : after.transfers = system.transfers)
    (serials : after.serial = system.serial)
    (wakeups : after.wakeups = system.wakeups)
    (suspensions : after.suspensions =
      update system.suspensions worker (system.suspensions worker + 1))
    (phases : after.phase = system.phase)
    (running : system.control worker ≠ .idle ∧ system.control worker ≠ .blocked) :
    Tallied after where
  past := by
    rw [transfers, serials]
    exact tallied.past
  made threadId := by
    rw [transfersOf_eq transfers serials, phases]
    exact tallied.made threadId
  active threadId := by
    rw [control, wakeups, suspensions]
    by_cases same : threadId = worker
    · subst same
      have counted := tallied.active threadId running.1
      simp [counted.1, counted.2, running.2]
    · simpa [same] using tallied.active threadId
  resumed threadId := by
    rw [control, wakeups, suspensions, transfersOf_eq transfers serials]
    by_cases same : threadId = worker
    · subst same
      simp
    · simpa [same] using tallied.resumed threadId

theorem Tallied.start {system : VmState Value} {worker : ThreadId}
    (tallied : Tallied system) (idle : system.control worker = .idle)
    (instruction : Instruction) (order : List ℕ) :
    Tallied (system.startInstruction worker instruction order) := by
  have others (threadId : ThreadId) (different : threadId ≠ worker) :
      (system.startInstruction worker instruction order).transfersOf threadId =
        system.transfersOf threadId := by
    simp [transfersOf, startInstruction, different]
  have nothingYet :
      (system.startInstruction worker instruction order).transfersOf worker = [] := by
    simp only [transfersOf, startInstruction, Function.update_self, madeDuring,
      List.filter_eq_nil_iff, decide_eq_true_eq, not_and]
    intro entry member own now
    obtain ⟨serial, during, bound⟩ := tallied.past entry member
    rw [own] at bound
    rw [during, Option.some.injEq] at now
    omega
  constructor
  · intro entry member
    obtain ⟨serial, during, bound⟩ := tallied.past entry member
    refine ⟨serial, during, bound.trans ?_⟩
    by_cases same : entry.threadId = worker
    · simp [startInstruction, same]
    · simp [startInstruction, same]
  · intro threadId
    by_cases same : threadId = worker
    · subst same
      rw [nothingYet]
      simp only [startInstruction, Function.update_self]
      split <;> simp [Phase.Made]
    · rw [others threadId same]
      simpa [startInstruction, same] using tallied.made threadId
  · intro threadId
    by_cases same : threadId = worker
    · subst same
      simp only [startInstruction, Function.update_self]
      intro _
      split <;> simp
    · simpa [startInstruction, same] using tallied.active threadId
  · intro threadId
    by_cases same : threadId = worker
    · subst same
      intro _
      simp [startInstruction]
    · rw [others threadId same]
      simpa [startInstruction, same] using tallied.resumed threadId

/-- The thread of a transferred request is inside an instruction. -/
theorem transfer_during (system : VmState Value) (direction : Direction)
    (channel : ChannelId) {request : Request HandledCallback}
    (running : system.control request.threadId ≠ .idle) :
    (system.transfer direction channel request).during =
      some (system.serial request.threadId) := by
  simp [VmState.transfer, running]

theorem transfersOf_settle {system : VmState Value} {worker : ThreadId} (visit : Visit)
    (channel : Channel HandledCallback Value) (memory : Address → Value)
    (running : system.control worker ≠ .idle) (threadId : ThreadId) :
    (system.settleFromBuffer worker visit channel memory).transfersOf threadId =
      system.transfersOf threadId ++
        if threadId = worker then
          [system.transfer (system.direction worker visit) visit.channel
            (system.request worker visit)]
        else [] := by
  simp only [transfersOf, settleFromBuffer, madeDuring, List.filter_append]
  congr 1
  by_cases same : threadId = worker
  · subst same
    simp [running, VmState.transfer, VmState.request]
  · simp [same, VmState.transfer, VmState.request, Ne.symm same]

theorem transfersOf_match {system : VmState Value} {worker : ThreadId} (visit : Visit)
    {peer : Request HandledCallback} (channel : Channel HandledCallback Value)
    (memory : Address → Value) (running : system.control worker ≠ .idle)
    (peerRunning : system.control peer.threadId ≠ .idle)
    (different : peer.threadId ≠ worker) (threadId : ThreadId) :
    (system.matchPeer worker visit peer channel memory).transfersOf threadId =
      system.transfersOf threadId ++
        if threadId = worker then
          [system.transfer (system.direction worker visit) visit.channel
            (system.request worker visit)]
        else if threadId = peer.threadId then
          [system.transfer (system.direction worker visit).opposite visit.channel peer]
        else [] := by
  simp only [transfersOf, matchPeer, madeDuring, List.filter_append]
  congr 1
  by_cases same : threadId = worker
  · subst same
    simp [running, VmState.transfer, VmState.request, different]
  · by_cases isPeer : threadId = peer.threadId
    · subst isPeer
      simp [same, peerRunning, VmState.transfer, VmState.request, Ne.symm different]
    · simp [same, isPeer, VmState.transfer, VmState.request, Ne.symm same,
        Ne.symm isPeer]

theorem Tallied.settle {system : VmState Value} {worker : ThreadId} {visit : Visit}
    (tallied : Tallied system) (cycle : Lifecycle system)
    (channel : Channel HandledCallback Value) (memory : Address → Value)
    (control : system.control worker = .scanning visit) :
    Tallied (system.settleFromBuffer worker visit channel memory) := by
  have running : system.control worker ≠ .idle := by
    simp [control]
  have log := transfersOf_settle visit channel memory running
  refine tallied.advance rfl rfl rfl ⟨running, by simp [control]⟩ (by simp) ?_ ?_ ?_
  · intro entry member
    simp only [settleFromBuffer, List.mem_append, List.mem_singleton] at member
    rcases member with earlier | rfl
    · exact tallied.past entry earlier
    · exact ⟨_, transfer_during system _ _ running, le_rfl⟩
  · intro threadId
    have made := tallied.made threadId
    rw [log]
    by_cases same : threadId = worker
    · subst same
      rw [cycle.offering_of_searching (by rw [control]; rfl)] at made
      have none : (system.transfersOf threadId).length = 0 := made
      simp [settleFromBuffer, Phase.Made, none]
    · simpa [settleFromBuffer, same] using made
  · intro threadId idle
    have notWorker : threadId ≠ worker := by
      rintro rfl
      exact running idle
    rw [log]
    simp [notWorker]

theorem Tallied.match {system : VmState Value} {worker : ThreadId} {visit : Visit}
    {peer : Request HandledCallback} (tallied : Tallied system) (held : LocksHeld system)
    (cycle : Lifecycle system) (channel : Channel HandledCallback Value)
    (memory : Address → Value) (control : system.control worker = .inspecting visit peer)
    (raised : system.pendingRequest peer.threadId = true) :
    Tallied (system.matchPeer worker visit peer channel memory) := by
  have different := held.peerElse worker visit peer control
  have peerOffering := cycle.offering_of_pending raised
  have running : system.control worker ≠ .idle := by
    simp [control]
  have peerRunning : system.control peer.threadId ≠ .idle := by
    intro idle
    rw [cycle.quiet_of_idle idle] at peerOffering
    cases peerOffering
  have log := transfersOf_match visit channel memory running peerRunning different
  refine tallied.advance rfl rfl rfl ⟨running, by simp [control]⟩ ?_ ?_ ?_ ?_
  · split <;> simp
  · intro entry member
    simp only [matchPeer, List.mem_append, List.mem_cons, List.not_mem_nil, or_false]
      at member
    rcases member with earlier | rfl | rfl
    · exact tallied.past entry earlier
    · exact ⟨_, transfer_during system _ _ running, le_rfl⟩
    · exact ⟨_, transfer_during system _ _ peerRunning, le_rfl⟩
  · intro threadId
    have made := tallied.made threadId
    rw [log]
    by_cases same : threadId = worker
    · subst same
      rw [cycle.offering_of_searching (by rw [control]; rfl)] at made
      have none : (system.transfersOf threadId).length = 0 := made
      simp [matchPeer, Phase.Made, none, Ne.symm different]
    · by_cases isPeer : threadId = peer.threadId
      · subst isPeer
        rw [peerOffering] at made
        have none : (system.transfersOf peer.threadId).length = 0 := made
        simp [matchPeer, Phase.Made, none, same]
      · simpa [matchPeer, same, isPeer] using made
  · intro threadId idle
    have notWorker : threadId ≠ worker := by
      rintro rfl
      exact running idle
    have notPeer : threadId ≠ peer.threadId := by
      rintro rfl
      exact peerRunning idle
    rw [log]
    simp [notWorker, notPeer]

theorem Tallied.wake {system : VmState Value} {worker : ThreadId} {visit : Visit}
    {peer : Request HandledCallback} (tallied : Tallied system) (cycle : Lifecycle system)
    (control : system.control worker = .waking visit peer)
    (blocked : system.control peer.threadId = .blocked) :
    Tallied (system.wake worker visit peer) := by
  have completed : system.phase peer.threadId = .completedBy worker :=
    (cycle.served peer.threadId worker).mpr (by rw [control]; rfl)
  have oneMade : (system.transfersOf peer.threadId).length = 1 := by
    have made := tallied.made peer.threadId
    rwa [completed] at made
  have counted := tallied.active peer.threadId (by simp [blocked])
  have workerCounted := tallied.active worker (by simp [control])
  rw [blocked, if_pos rfl] at counted
  rw [control, if_neg (by simp)] at workerCounted
  have different : worker ≠ peer.threadId := by
    rintro same
    rw [← same, control] at blocked
    cases blocked
  have log (threadId : ThreadId) : (system.wake worker visit peer).transfersOf threadId =
      system.transfersOf threadId := transfersOf_eq rfl rfl threadId
  constructor
  · exact tallied.past
  · intro threadId
    rw [log]
    by_cases isPeer : threadId = peer.threadId
    · subst isPeer
      simp [VmState.wake, Phase.Made, oneMade]
    · simpa [VmState.wake, isPeer] using tallied.made threadId
  · intro threadId
    by_cases isWorker : threadId = worker
    · subst isWorker
      simp [VmState.wake, different, workerCounted]
    · by_cases isPeer : threadId = peer.threadId
      · subst isPeer
        simp [VmState.wake, isWorker]
      · simpa [VmState.wake, isWorker, isPeer] using tallied.active threadId
  · intro threadId
    rw [log]
    by_cases isWorker : threadId = worker
    · subst isWorker
      simp [VmState.wake]
    · by_cases isPeer : threadId = peer.threadId
      · subst isPeer
        simp [VmState.wake, counted, oneMade]
      · simpa [VmState.wake, isWorker, isPeer] using tallied.resumed threadId

section Steps

variable [IntCast Value]

theorem tallied_edge {system after : VmState Value} {worker : ThreadId}
    (held : LocksHeld system) (cycle : Lifecycle system) (tallied : Tallied system)
    (edge : Edge system worker after) : Tallied after := by
  cases edge with
  | start instruction order idle => exact tallied.start idle instruction order
  | suspend queued control | giveUp control =>
      exact tallied.suspend rfl rfl rfl rfl rfl rfl (by simp [control])
  | lockRequest queued control | enter queued index todo channel control
  | leave visit control | throwNil queued index todo control
  | scan visit control | queueRequest visit control
  | lockPeer visit peer rest control | skipPeer visit peer control
  | clear visit control
  | passHandled owner index rest handledIndex channel control
  | passAsk owner index rest handledIndex channel control
  | passLock owner channel remaining handledIndex control
  | passCancel owner channel remaining handledIndex control =>
      exact tallied.move rfl rfl rfl rfl rfl (by simp [control])
        (by simp) (fun _ => id)
  | settleFromBuffer visit channel memory control =>
      exact tallied.settle cycle channel memory control
  | matchPeer visit peer channel memory control raised =>
      exact tallied.match held cycle channel memory control raised
  | wake visit peer control blocked => exact tallied.wake cycle control blocked
  | wakeMissed visit peer control stopped =>
      refine tallied.move rfl rfl rfl rfl rfl (by simp [control])
        (by simp) ?_
      intro threadId made
      by_cases isPeer : threadId = peer.threadId
      · subst isPeer
        rw [(cycle.served peer.threadId worker).mpr (by rw [control]; rfl)] at made
        simpa [wakeMissed, Phase.Made] using made.le
      · simpa [wakeMissed, isPeer] using made
  | withdraw control raised =>
      refine tallied.move rfl rfl rfl rfl rfl (by simp [control])
        (by simp) ?_
      intro threadId
      by_cases same : threadId = worker
      · subst same
        rw [cycle.offering_of_pending raised]
        simp [withdraw, Phase.Made]
      · simp [withdraw, same]
  | passFinish owner handledIndex control =>
      have running : system.control worker ≠ .idle ∧ system.control worker ≠ .blocked := by
        simp [control]
      cases owner with
      | callback visit peer =>
          exact tallied.move rfl rfl rfl rfl rfl running (by simp) (fun _ => id)
      | handled visit =>
          exact tallied.finish rfl rfl rfl rfl rfl rfl running
            (Or.inl (cycle.completing_of_settling (by rw [control]; rfl)))
      | nonBlocking =>
          exact tallied.finish rfl rfl rfl rfl rfl rfl running
            (Or.inr (cycle.withdrawn_of_withdrawing (by rw [control]; rfl)))
  | finishAlone visit control | finishPlain visit control =>
      exact tallied.finish rfl rfl rfl rfl rfl rfl (by simp [control])
        (Or.inl (cycle.completing_of_settling (by rw [control]; rfl)))

theorem tallied_of_reached [Inhabited Value]
    {allowed : VmState Value → ThreadId → Action → Prop} {system : VmState Value}
    (reached : Reached allowed system) : Tallied system := by
  refine Reached.invariant Tallied (fun _ initial => tallied_initial initial) ?_ reached
  intro before worker action after earlier tallied _ stepped
  exact tallied_edge (locksHeld_of_reached earlier) (lifecycle_of_reached earlier) tallied
    (edge_of_step stepped)

end Steps

end Disvm.ChannelSystem
