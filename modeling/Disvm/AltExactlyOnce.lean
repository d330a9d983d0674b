import Disvm.ChannelMemory
import Disvm.DistinctAlternatives

/-!
# Alt performs exactly one alternative

A thread whose instructions name pairwise distinct channels, among any other
threads.  Its alt makes one transfer, for the alternative whose index it
stores, or it gives up as a non-blocking alt without a transfer.
-/

namespace Disvm.ChannelSystem

open VmState

open Function (update)

variable {Value : Type*}

/-- Control points that only alts reach. -/
def Control.AltOnly (instruction : Instruction) : Control → Prop
  | .withdrawable => instruction.isNonBlocking = true
  | .cancelling (.handled _) _ => instruction.isAlt = true
  | .cancelling .nonBlocking _ => instruction.isNonBlocking = true
  | _ => True

/-- The log entry of a transfer for one alternative of the current
instruction. -/
def VmState.transferFor (system : VmState Value) (threadId : ThreadId) (index : ℕ)
    (channel : ChannelId) : Transfer :=
  { threadId := threadId
    direction := directionOf (system.instruction threadId) index
    channel := channel
    data := (system.instruction threadId).dataAt index
    issuedBy := system.serial threadId
    during := some (system.serial threadId) }

/-- The index stored for a transfer.  Plain sends and receives store none. -/
def indexWritten (instruction : Instruction) (index : ℕ) : List Int :=
  if instruction.isAlt then [(index : Int)] else []

/-- A completed instruction made one transfer and stored its index, or gave up
and stored the number of alternatives. -/
def Outcome (threadId : ThreadId) (system : VmState Value) : Prop :=
  let instruction := system.instruction threadId
  (∃ index channel, instruction.channelAt index = some channel ∧
      system.transfersOf threadId = [system.transferFor threadId index channel] ∧
      system.written threadId = indexWritten instruction index) ∨
    (instruction.isNonBlocking = true ∧ system.transfersOf threadId = [] ∧
      system.written threadId = [(instruction.channelCount : Int)])

/-- The transfer made on behalf of a thread by the worker that serves it. -/
def ServedOutcome (threadId : ThreadId) (system : VmState Value) (control : Control) : Prop :=
  let instruction := system.instruction threadId
  ∃ visit peer index, instruction.channelAt index = some visit.channel ∧
    system.transfersOf threadId = [system.transferFor threadId index visit.channel] ∧
    ((∃ pass, control = .cancelling (.callback visit peer) pass ∧
        instruction.isAlt = true ∧ system.written threadId = [] ∧
        (index ∈ pass.remaining ∨ pass.handledIndex = index)) ∨
      (control = .waking visit peer ∧
        system.written threadId = indexWritten instruction index))

def Recorded (threadId : ThreadId) (system : VmState Value) : Prop :=
  match system.phase threadId with
  | .quiet =>
      if system.serial threadId = 0 then
        system.transfersOf threadId = [] ∧ system.written threadId = []
      else Outcome threadId system
  | .offering => system.written threadId = []
  | .completing =>
      ∃ visit, (system.control threadId).visit = some visit ∧
        system.written threadId = [] ∧
        system.transfersOf threadId =
          [system.transferFor threadId visit.index visit.channel]
  | .completedBy worker => ServedOutcome threadId system (system.control worker)
  | .withdrawn =>
      system.written threadId = [] ∧
        (system.instruction threadId).isNonBlocking = true

/-- A step that changes neither the phase nor the records of a thread. -/
theorem Recorded.congr {threadId : ThreadId} {system after : VmState Value}
    (recorded : Recorded threadId system)
    (phase : after.phase threadId = system.phase threadId)
    (instruction : after.instruction threadId = system.instruction threadId)
    (serial : after.serial threadId = system.serial threadId)
    (written : after.written threadId = system.written threadId)
    (transfers : after.transfersOf threadId = system.transfersOf threadId)
    (visit : system.phase threadId = .completing →
      (after.control threadId).visit = (system.control threadId).visit)
    (server : ∀ worker, system.phase threadId = .completedBy worker →
      ServedOutcome threadId system (system.control worker) →
        ServedOutcome threadId system (after.control worker)) :
    Recorded threadId after := by
  have entry (index : ℕ) (channel : ChannelId) :
      after.transferFor threadId index channel =
        system.transferFor threadId index channel := by
    simp only [VmState.transferFor, instruction, serial]
  unfold Recorded at recorded ⊢
  rw [phase]
  cases isPhase : system.phase threadId with
  | quiet =>
      rw [isPhase] at recorded
      simpa only [serial, transfers, written, Outcome, instruction, entry] using recorded
  | offering =>
      rw [isPhase] at recorded
      simpa only [written] using recorded
  | completing =>
      rw [isPhase] at recorded
      simpa only [visit isPhase, written, transfers, entry] using recorded
  | completedBy worker =>
      rw [isPhase] at recorded
      have served := server worker isPhase recorded
      simpa only [ServedOutcome, written, transfers, entry, instruction] using served
  | withdrawn =>
      rw [isPhase] at recorded
      simpa only [written, instruction] using recorded

/-- A worker that does not serve the thread. -/
theorem not_serving {threadId worker : ThreadId} {system : VmState Value} {now : Control}
    {conclusion : Prop} (control : system.control worker = now) (idle : now.serving = none)
    (serving : (system.control worker).serving = some threadId) : conclusion := by
  rw [control, idle] at serving
  cases serving

theorem transferFor_own (system : VmState Value) {worker : ThreadId} {visit : Visit}
    (running : system.control worker ≠ .idle) :
    system.transfer (system.direction worker visit) visit.channel
        (system.request worker visit) =
      system.transferFor worker visit.index visit.channel := by
  simp [VmState.transfer, VmState.transferFor, VmState.request, VmState.direction, running]

theorem transfersOf_nil {system : VmState Value} {threadId : ThreadId}
    (tallied : Tallied system) (offering : system.phase threadId = .offering) :
    system.transfersOf threadId = [] := by
  have made := tallied.made threadId
  rw [offering] at made
  exact List.length_eq_zero_iff.mp made

/-- The search for the handled index moves past an entry. -/
theorem servedOutcome_handled {threadId worker : ThreadId} {system : VmState Value}
    (distinct : (system.instruction threadId).Distinct) (current : Current threadId system)
    {visit : Visit} {peer : Request HandledCallback} {index : ℕ} {rest : List ℕ}
    {handledIndex : Int} {entry : ChannelId}
    (control : system.control worker =
      .cancelling (.callback visit peer) ⟨.asking, index :: rest, handledIndex⟩)
    (own : peer.threadId = threadId)
    (isChannel : peer.requestHandledCallback.instruction.channelAt index = some entry)
    (isHandled : visit.channel = entry)
    (served : ServedOutcome threadId system (system.control worker)) :
    ServedOutcome threadId system
      (.cancelling (.callback visit peer) ⟨.asking, rest, index⟩) := by
  rw [control] at served
  obtain ⟨otherVisit, otherPeer, target, isTarget, made, progress⟩ := served
  rcases progress with ⟨pass, cancelling, isAlt, written, found⟩ | ⟨waking, _⟩
  · rw [Control.cancelling.injEq, PassOwner.callback.injEq] at cancelling
    obtain ⟨⟨rfl, rfl⟩, rfl⟩ := cancelling
    rw [current.matched worker visit peer _ control own, ← isHandled] at isChannel
    have same : index = target := distinct.index_eq isChannel isTarget
    exact ⟨visit, peer, target, isTarget, made, Or.inl ⟨_, rfl, isAlt, written,
      Or.inr (congrArg Nat.cast same)⟩⟩
  · cases waking

/-- Cancelling in another channel does not lose the handled alternative. -/
theorem servedOutcome_cancelled {threadId worker : ThreadId} {system : VmState Value}
    (current : Current threadId system) {visit : Visit} {peer : Request HandledCallback}
    {index : ℕ} {rest : List ℕ} {handledIndex : Int} {entry : ChannelId}
    (control : system.control worker =
      .cancelling (.callback visit peer) ⟨.holding entry, index :: rest, handledIndex⟩)
    (own : peer.threadId = threadId)
    (isChannel : peer.requestHandledCallback.instruction.channelAt index = some entry)
    (notHandled : visit.channel ≠ entry)
    (served : ServedOutcome threadId system (system.control worker)) :
    ServedOutcome threadId system
      (.cancelling (.callback visit peer) ⟨.asking, rest, handledIndex⟩) := by
  rw [control] at served
  obtain ⟨otherVisit, otherPeer, target, isTarget, made, progress⟩ := served
  rcases progress with ⟨pass, cancelling, isAlt, written, found⟩ | ⟨waking, _⟩
  · rw [Control.cancelling.injEq, PassOwner.callback.injEq] at cancelling
    obtain ⟨⟨rfl, rfl⟩, rfl⟩ := cancelling
    have different : target ≠ index := by
      rintro rfl
      rw [current.matched worker visit peer _ control own, isTarget] at isChannel
      exact notHandled (Option.some.inj isChannel)
    simp only [List.mem_cons, different, false_or] at found
    exact ⟨visit, peer, target, isTarget, made, Or.inl ⟨_, rfl, isAlt, written, found⟩⟩
  · cases waking

theorem servedOutcome_stage {threadId : ThreadId} {system : VmState Value} {visit : Visit}
    {peer : Request HandledCallback} {before : Stage} (stage : Stage) {remaining : List ℕ}
    {handledIndex : Int}
    (served : ServedOutcome threadId system
      (.cancelling (.callback visit peer) ⟨before, remaining, handledIndex⟩)) :
    ServedOutcome threadId system
      (.cancelling (.callback visit peer) ⟨stage, remaining, handledIndex⟩) := by
  obtain ⟨otherVisit, otherPeer, target, isTarget, made, progress⟩ := served
  rcases progress with ⟨otherPass, cancelling, isAlt, written, found⟩ | ⟨waking, _⟩
  · rw [Control.cancelling.injEq, PassOwner.callback.injEq] at cancelling
    obtain ⟨⟨rfl, rfl⟩, rfl⟩ := cancelling
    exact ⟨visit, peer, target, isTarget, made, Or.inl ⟨_, rfl, isAlt, written, found⟩⟩
  · cases waking

section Records

variable [IntCast Value]

/-- A worker in a cancellation loop of its own executes an alt. -/
theorem altOnly_edge {system after : VmState Value} {worker : ThreadId}
    (edge : Edge system worker after)
    (altOnly : (system.control worker).AltOnly (system.instruction worker)) :
    (after.control worker).AltOnly (after.instruction worker) := by
  cases edge with
  | start instruction order idle =>
      rcases startInstruction_control system worker instruction order with
        started | started <;>
      · rw [started]
        trivial
  | lockRequest queued control nonBlocking =>
      simpa [VmState.lockRequest, Control.AltOnly] using nonBlocking
  | matchPeer visit peer settled memory control =>
      rcases matchPeer_control system worker visit peer settled memory with
        matched | matched <;>
      · rw [matched]
        trivial
  | clear visit control isAlt => simpa [setControl, Control.AltOnly] using isAlt
  | withdraw control =>
      rw [control] at altOnly
      simpa [VmState.withdraw, Control.AltOnly] using altOnly
  | passHandled owner index rest handledIndex channel control
  | passAsk owner index rest handledIndex channel control
  | passLock owner channel remaining handledIndex control
  | passCancel owner channel remaining handledIndex control =>
      rw [control] at altOnly
      cases owner with
      | callback visit peer => simp [setControl, lockChannel, cancelIn, Control.AltOnly]
      | handled visit =>
          simpa [setControl, lockChannel, cancelIn, Control.AltOnly] using altOnly
      | nonBlocking =>
          simpa [setControl, lockChannel, cancelIn, Control.AltOnly] using altOnly
  | passFinish owner handledIndex control =>
      cases owner <;>
        simp [finishPass, setControl, writeIndex, finish, unlockRequest, Control.AltOnly]
  | _ =>
      simp [VmState.suspend, setControl, VmState.enter, VmState.leave, VmState.lockPeer,
        VmState.queueRequest, VmState.settleFromBuffer, VmState.skipPeer, VmState.wake,
        VmState.wakeMissed, writeIndex, finish, unlockRequest, Control.AltOnly]

theorem altOnly_of_reached [Inhabited Value]
    {allowed : VmState Value → ThreadId → Action → Prop} {system : VmState Value}
    (reached : Reached allowed system) : ∀ threadId,
      (system.control threadId).AltOnly (system.instruction threadId) := by
  refine Reached.invariant (fun system => ∀ threadId,
    (system.control threadId).AltOnly (system.instruction threadId)) ?_ ?_ reached
  · intro initial isInitial threadId
    rw [isInitial.idle]
    trivial
  · intro before worker action after _ holds _ stepped threadId
    have edge := edge_of_step stepped
    by_cases own : threadId = worker
    · subst own
      exact altOnly_edge edge (holds threadId)
    · rcases control_others edge threadId own with same | ⟨_, idle⟩
      · rcases instruction_edge edge threadId with ⟨kept, _⟩ | ⟨isWorker, _⟩
        · rw [same, kept]
          exact holds threadId
        · exact absurd isWorker own
      · rw [idle]
        trivial

/-- Steps between two control points of the worker. -/
theorem Recorded.move {threadId worker : ThreadId} {system after : VmState Value}
    (cycle : Lifecycle system) (edge : Edge system worker after)
    (recorded : Recorded threadId system)
    (phase : after.phase = system.phase) (instruction : after.instruction = system.instruction)
    (serial : after.serial = system.serial) (written : after.written = system.written)
    (transfers : after.transfers = system.transfers)
    (visit : (system.control worker).role = .settling →
      (after.control worker).visit = (system.control worker).visit)
    (server : (system.control worker).serving = some threadId →
      ServedOutcome threadId system (system.control worker) →
        ServedOutcome threadId system (after.control worker)) :
    Recorded threadId after := by
  refine recorded.congr (congrFun phase _) (congrFun instruction _) (congrFun serial _)
    (congrFun written _) (transfersOf_eq transfers serial threadId) ?_ ?_
  · intro completing
    have fits := cycle.fits threadId
    rw [completing] at fits
    by_cases own : threadId = worker
    · subst own
      exact visit fits.2
    · rcases control_others edge threadId own with same | ⟨blocked, _⟩
      · rw [same]
      · rw [blocked] at fits
        cases fits.2
  · intro other completed served
    have serving := (cycle.served threadId other).mp completed
    by_cases isWorker : other = worker
    · subst isWorker
      exact server serving served
    · rwa [serving_others edge isWorker serving]

theorem recorded_start {threadId worker : ThreadId} {system : VmState Value}
    (cycle : Lifecycle system) (recorded : Recorded threadId system)
    (instruction : Instruction) (order : List ℕ)
    (edge : Edge system worker (system.startInstruction worker instruction order))
    (idle : system.control worker = .idle)
    (undisturbed : Undisturbed threadId (system.startInstruction worker instruction order)) :
    Recorded threadId (system.startInstruction worker instruction order) := by
  by_cases own : threadId = worker
  · subst own
    have registering : (system.startInstruction threadId instruction order).control threadId =
        .registering [] order := by
      rcases startInstruction_control system threadId instruction order with broken | started
      · exact absurd broken undisturbed.running
      · exact started
    have offering : (system.startInstruction threadId instruction order).phase threadId =
        .offering := by
      simp only [startInstruction, Function.update_self] at registering ⊢
      split at registering
      · cases registering
      · next accepted => rw [if_neg accepted]
    unfold Recorded
    rw [offering]
    simp [startInstruction]
  · refine recorded.congr ?_ ?_ ?_ ?_ ?_ ?_ ?_
    · simp [startInstruction, own]
    · simp [startInstruction, own]
    · simp [startInstruction, own]
    · simp [startInstruction, own]
    · simp [transfersOf, startInstruction, own]
    · intro _
      simp [startInstruction, own]
    · intro other completed served
      have serving := (cycle.served threadId other).mp completed
      have isOther : other ≠ worker := by
        rintro rfl
        exact not_serving idle rfl serving
      rwa [serving_others edge isOther serving]

theorem recorded_settle {threadId worker : ThreadId} {system : VmState Value}
    (cycle : Lifecycle system) (tallied : Tallied system)
    (recorded : Recorded threadId system) {visit : Visit}
    {settled : Channel HandledCallback Value} {memory : Address → Value}
    (edge : Edge system worker (system.settleFromBuffer worker visit settled memory))
    (control : system.control worker = .scanning visit) :
    Recorded threadId (system.settleFromBuffer worker visit settled memory) := by
  have running : system.control worker ≠ .idle := by
    simp [control]
  have log := transfersOf_settle visit settled memory running
  have offering := cycle.offering_of_searching
    (by rw [control]; rfl : (system.control worker).role = .searching)
  by_cases own : threadId = worker
  · subst own
    have written : system.written threadId = [] := by
      unfold Recorded at recorded
      rwa [offering] at recorded
    have made := log threadId
    rw [transfersOf_nil tallied offering, if_pos rfl, List.nil_append,
      transferFor_own system running] at made
    have completing : (system.settleFromBuffer threadId visit settled memory).phase
        threadId = .completing := by
      simp [VmState.settleFromBuffer]
    unfold Recorded
    rw [completing]
    exact ⟨visit, by simp [VmState.settleFromBuffer, Control.visit], written, made⟩
  · have made := log threadId
    rw [if_neg own, List.append_nil] at made
    refine recorded.congr ?_ rfl rfl rfl made ?_ ?_
    · simp [VmState.settleFromBuffer, own]
    · intro _
      simp [VmState.settleFromBuffer, own]
    · intro other completed served
      have serving := (cycle.served threadId other).mp completed
      have isOther : other ≠ worker := by
        rintro rfl
        exact not_serving control rfl serving
      rwa [serving_others edge isOther serving]

theorem recorded_match {threadId worker : ThreadId} {system : VmState Value}
    (held : LocksHeld system) (cycle : Lifecycle system) (shaped : Shaped system)
    (tallied : Tallied system) (current : Current threadId system)
    (recorded : Recorded threadId system) {visit : Visit}
    {peer : Request HandledCallback} {settled : Channel HandledCallback Value}
    {memory : Address → Value}
    (edge : Edge system worker (system.matchPeer worker visit peer settled memory))
    (control : system.control worker = .inspecting visit peer)
    (raised : system.pendingRequest peer.threadId = true) :
    Recorded threadId (system.matchPeer worker visit peer settled memory) := by
  have different := held.peerElse worker visit peer control
  have running : system.control worker ≠ .idle := by
    simp [control]
  have peerOffering := cycle.offering_of_pending raised
  have peerRunning : system.control peer.threadId ≠ .idle := by
    intro idle
    rw [cycle.quiet_of_idle idle] at peerOffering
    cases peerOffering
  have log := transfersOf_match visit settled memory running peerRunning different
  have offering := cycle.offering_of_searching
    (by rw [control]; rfl : (system.control worker).role = .searching)
  by_cases own : threadId = worker
  · subst own
    have written : system.written threadId = [] := by
      unfold Recorded at recorded
      rwa [offering] at recorded
    have made := log threadId
    rw [transfersOf_nil tallied offering, if_pos rfl, List.nil_append,
      transferFor_own system running] at made
    have completing : (system.matchPeer threadId visit peer settled memory).phase
        threadId = .completing := by
      simp [VmState.matchPeer, Ne.symm different]
    unfold Recorded
    rw [completing]
    refine ⟨visit, ?_, written, made⟩
    rcases matchPeer_control system threadId visit peer settled memory with
      matched | matched <;>
    · rw [matched]
      rfl
  · by_cases isPeer : threadId = peer.threadId
    · subst isPeer
      have written : system.written peer.threadId = [] := by
        unfold Recorded at recorded
        rwa [peerOffering] at recorded
      obtain ⟨rest, front⟩ := shaped.front worker visit peer control
      have member : peer ∈ queue (system.direction worker visit).opposite
          (system.channels visit.channel) := by
        change peer ∈ peers _ _
        rw [front]
        exact List.mem_cons_self
      obtain ⟨callback, index, isChannel, towards, data⟩ :=
        current.issued visit.channel _ peer member rfl
      have entry : system.transfer (system.direction worker visit).opposite visit.channel
          peer = system.transferFor peer.threadId index visit.channel := by
        simp [VmState.transfer, VmState.transferFor, peerRunning, callback, ← towards, data]
      have made := log peer.threadId
      rw [transfersOf_nil tallied peerOffering, if_neg own, if_pos rfl, List.nil_append,
        entry] at made
      have completed : (system.matchPeer worker visit peer settled memory).phase
          peer.threadId = .completedBy worker := by
        simp [VmState.matchPeer]
      unfold Recorded
      rw [completed]
      refine ⟨visit, peer, index, isChannel, made, ?_⟩
      cases isAlt : (system.instruction peer.threadId).isAlt with
      | true =>
          left
          refine ⟨CancelPass.start (system.instruction peer.threadId), ?_, isAlt, written,
            Or.inl ?_⟩
          · simp [VmState.matchPeer, callback, isAlt]
          · exact List.mem_range.mpr (index_lt_of_channelAt isChannel)
      | false =>
          right
          refine ⟨by simp [VmState.matchPeer, callback, isAlt], ?_⟩
          have plain : (system.matchPeer worker visit peer settled memory).instruction =
              system.instruction := rfl
          rw [indexWritten, plain, isAlt]
          exact written
    · have made := log threadId
      rw [if_neg own, if_neg isPeer, List.append_nil] at made
      refine recorded.congr ?_ rfl rfl rfl made ?_ ?_
      · simp [VmState.matchPeer, own, isPeer]
      · intro _
        simp [VmState.matchPeer, own]
      · intro other completed served
        have serving := (cycle.served threadId other).mp completed
        have isOther : other ≠ worker := by
          rintro rfl
          exact not_serving control rfl serving
        rwa [serving_others edge isOther serving]

/-- The worker stores an index, if it does, and returns. -/
theorem recorded_finish {threadId worker : ThreadId} {system after : VmState Value}
    (cycle : Lifecycle system) (edge : Edge system worker after)
    (recorded : Recorded threadId system)
    (phase : after.phase = update system.phase worker .quiet)
    (instruction : after.instruction = system.instruction)
    (serial : after.serial = system.serial)
    (transfers : after.transfers = system.transfers)
    (written : ∀ other, other ≠ worker → after.written other = system.written other)
    (notServing : (system.control worker).serving = none)
    (outcome : threadId = worker → Outcome worker after)
    (started : threadId = worker → system.serial worker ≠ 0) :
    Recorded threadId after := by
  by_cases own : threadId = worker
  · subst own
    have quiet : after.phase threadId = .quiet := by simp [phase]
    unfold Recorded
    rw [quiet]
    simp only [serial, if_neg (started rfl)]
    exact outcome rfl
  · refine recorded.congr ?_ (congrFun instruction _) (congrFun serial _)
      (written threadId own) (transfersOf_eq transfers serial threadId) ?_ ?_
    · simp [phase, own]
    · intro completing
      have fits := cycle.fits threadId
      rw [completing] at fits
      rcases control_others edge threadId own with same | ⟨blocked, _⟩
      · rw [same]
      · rw [blocked] at fits
        cases fits.2
    · intro other completed served
      have serving := (cycle.served threadId other).mp completed
      have isOther : other ≠ worker := by
        rintro rfl
        rw [notServing] at serving
        cases serving
      rwa [serving_others edge isOther serving]

/-- The callback of an alt stores the index and goes on to wake the thread. -/
theorem recorded_callback {threadId worker : ThreadId} {system : VmState Value}
    (cycle : Lifecycle system) (recorded : Recorded threadId system) {visit : Visit}
    {peer : Request HandledCallback} {handledIndex : Int}
    (edge : Edge system worker
      (system.finishPass worker (.callback visit peer) ⟨.asking, [], handledIndex⟩))
    (control : system.control worker =
      .cancelling (.callback visit peer) ⟨.asking, [], handledIndex⟩) :
    Recorded threadId
      (system.finishPass worker (.callback visit peer) ⟨.asking, [], handledIndex⟩) := by
  have completedPeer : system.phase peer.threadId = .completedBy worker :=
    (cycle.served peer.threadId worker).mpr (by rw [control]; rfl)
  by_cases isPeer : threadId = peer.threadId
  · subst isPeer
    unfold Recorded at recorded ⊢
    have after : (system.finishPass worker (.callback visit peer)
        ⟨.asking, [], handledIndex⟩).phase peer.threadId = .completedBy worker := completedPeer
    rw [completedPeer] at recorded
    rw [after]
    obtain ⟨otherVisit, otherPeer, index, isChannel, made, progress⟩ := recorded
    rcases progress with ⟨pass, cancelling, isAlt, written, found⟩ | ⟨waking, _⟩
    · rw [control, Control.cancelling.injEq, PassOwner.callback.injEq] at cancelling
      obtain ⟨⟨rfl, rfl⟩, rfl⟩ := cancelling
      simp only [List.not_mem_nil, false_or] at found
      refine ⟨visit, peer, index, isChannel, made, Or.inr ⟨?_, ?_⟩⟩
      · simp [finishPass, setControl, writeIndex]
      · have kept : (system.finishPass worker (.callback visit peer)
            ⟨.asking, [], handledIndex⟩).instruction = system.instruction := rfl
        rw [indexWritten, kept, if_pos isAlt]
        simp [finishPass, setControl, writeIndex, written, found]
    · rw [control] at waking
      cases waking
  · refine recorded.congr rfl rfl rfl ?_ rfl ?_ ?_
    · simp [finishPass, setControl, writeIndex, isPeer]
    · intro completing
      by_cases own : threadId = worker
      · subst own
        simp [finishPass, setControl, writeIndex, control, Control.visit]
      · simp [finishPass, setControl, writeIndex, own]
    · intro other completed served
      have serving := (cycle.served threadId other).mp completed
      have isOther : other ≠ worker := by
        rintro rfl
        rw [control] at serving
        exact isPeer (Option.some.inj serving).symm
      rwa [serving_others edge isOther serving]

theorem recorded_wake {threadId worker : ThreadId} {system : VmState Value}
    (cycle : Lifecycle system) (recorded : Recorded threadId system) {visit : Visit}
    {peer : Request HandledCallback} (edge : Edge system worker (system.wake worker visit peer))
    (control : system.control worker = .waking visit peer)
    (blocked : system.control peer.threadId = .blocked)
    (undisturbed : Undisturbed threadId system) :
    Recorded threadId (system.wake worker visit peer) := by
  have completedPeer : system.phase peer.threadId = .completedBy worker :=
    (cycle.served peer.threadId worker).mpr (by rw [control]; rfl)
  by_cases isPeer : threadId = peer.threadId
  · subst isPeer
    have started := undisturbed.started (by simp [blocked])
    have quiet : (system.wake worker visit peer).phase peer.threadId = .quiet := by
      simp [VmState.wake]
    unfold Recorded at recorded ⊢
    rw [completedPeer] at recorded
    rw [quiet]
    obtain ⟨otherVisit, otherPeer, index, isChannel, made, progress⟩ := recorded
    rcases progress with ⟨pass, cancelling, _⟩ | ⟨_, written⟩
    · rw [control] at cancelling
      cases cancelling
    · have serial : (system.wake worker visit peer).serial = system.serial := rfl
      simp only [serial, if_neg started]
      exact Or.inl ⟨index, otherVisit.channel, isChannel, made, written⟩
  · refine recorded.congr ?_ rfl rfl rfl rfl ?_ ?_
    · simp [VmState.wake, isPeer]
    · intro completing
      by_cases own : threadId = worker
      · subst own
        simp [VmState.wake, control, Control.visit]
      · simp [VmState.wake, own, isPeer]
    · intro other completed served
      have serving := (cycle.served threadId other).mp completed
      have isOther : other ≠ worker := by
        rintro rfl
        rw [control] at serving
        exact isPeer (Option.some.inj serving).symm
      rwa [serving_others edge isOther serving]

theorem recorded_wakeMissed {threadId worker : ThreadId} {system : VmState Value}
    (cycle : Lifecycle system) (recorded : Recorded threadId system) {visit : Visit}
    {peer : Request HandledCallback}
    (edge : Edge system worker (system.wakeMissed worker visit peer))
    (control : system.control worker = .waking visit peer)
    (stopped : system.control peer.threadId = .idle ∨
      system.control peer.threadId = .broken)
    (undisturbed : Undisturbed threadId system) :
    Recorded threadId (system.wakeMissed worker visit peer) := by
  have completedPeer : system.phase peer.threadId = .completedBy worker :=
    (cycle.served peer.threadId worker).mpr (by rw [control]; rfl)
  have notPeer : threadId ≠ peer.threadId := by
    rintro rfl
    rcases stopped with idle | broken
    · rw [cycle.quiet_of_idle idle] at completedPeer
      cases completedPeer
    · exact undisturbed.running broken
  refine recorded.congr ?_ rfl rfl rfl rfl ?_ ?_
  · simp [VmState.wakeMissed, notPeer]
  · intro completing
    by_cases own : threadId = worker
    · subst own
      simp [VmState.wakeMissed, control, Control.visit]
    · simp [VmState.wakeMissed, own]
  · intro other completed served
    have serving := (cycle.served threadId other).mp completed
    have isOther : other ≠ worker := by
      rintro rfl
      rw [control] at serving
      exact notPeer (Option.some.inj serving).symm
    rwa [serving_others edge isOther serving]

omit [IntCast Value] in
/-- The settled alternative of the worker's own instruction. -/
theorem completing_record {worker : ThreadId} {system : VmState Value}
    (cycle : Lifecycle system) (shaped : Shaped system) (recorded : Recorded worker system)
    {now : Control} (control : system.control worker = now) (role : now.role = .settling)
    {visit : Visit} (isVisit : now.visit = some visit) :
    (system.instruction worker).channelAt visit.index = some visit.channel ∧
      system.written worker = [] ∧
      system.transfersOf worker = [system.transferFor worker visit.index visit.channel] := by
  have completing := cycle.completing_of_settling
    (by rw [control]; exact role : (system.control worker).role = .settling)
  unfold Recorded at recorded
  rw [completing] at recorded
  obtain ⟨recordedVisit, isRecorded, written, made⟩ := recorded
  rw [control, isVisit, Option.some.injEq] at isRecorded
  subst isRecorded
  exact ⟨(shaped.visit worker visit (by rw [control]; exact isVisit)).2, written, made⟩

theorem recorded_edge {threadId worker : ThreadId} {system after : VmState Value}
    (held : LocksHeld system) (cycle : Lifecycle system) (shaped : Shaped system)
    (tallied : Tallied system) (current : Current threadId system)
    (altOnly : ∀ other, (system.control other).AltOnly (system.instruction other))
    (undisturbed : Undisturbed threadId system) (undisturbedAfter : Undisturbed threadId after)
    (recorded : Recorded threadId system) (edge : Edge system worker after) :
    Recorded threadId after := by
  have step := edge
  have started {now : Control} (control : system.control worker = now) (notIdle : now ≠ .idle)
      (own : threadId = worker) : system.serial worker ≠ 0 := by
    subst own
    exact undisturbed.started (by rw [control]; exact notIdle)
  have distinct {server : ThreadId}
      (serving : (system.control server).serving = some threadId) :
      (system.instruction threadId).Distinct := by
    apply undisturbed.distinct
    apply undisturbed.started
    intro idle
    have completed := (cycle.served threadId server).mpr serving
    rw [cycle.quiet_of_idle idle] at completed
    cases completed
  cases edge with
  | start instruction order idle =>
      exact recorded_start cycle recorded instruction order step idle undisturbedAfter
  | settleFromBuffer visit settled memory control =>
      exact recorded_settle cycle tallied recorded step control
  | matchPeer visit peer settled memory control raised =>
      exact recorded_match held cycle shaped tallied current recorded step control raised
  | wake visit peer control blocked =>
      exact recorded_wake cycle recorded step control blocked undisturbed
  | wakeMissed visit peer control stopped =>
      exact recorded_wakeMissed cycle recorded step control stopped undisturbed
  | lockRequest queued control | suspend queued control | throwNil queued index todo control
  | enter queued index todo channel control | scan visit control | leave visit control
  | lockPeer visit peer rest control | queueRequest visit control
  | skipPeer visit peer control | giveUp control =>
      refine recorded.move cycle step rfl rfl rfl rfl rfl ?_ (not_serving control rfl)
      intro settling
      rw [control] at settling
      cases settling
  | clear visit control =>
      refine recorded.move cycle step rfl rfl rfl rfl rfl ?_ (not_serving control rfl)
      intro _
      simp [setControl, control, Control.visit]
  | passHandled owner index rest handledIndex entry control isChannel isHandled =>
      refine recorded.move cycle step rfl rfl rfl rfl rfl ?_ ?_
      · intro _
        cases owner <;> simp [setControl, control, Control.visit]
      · intro serving served
        have distinctTable := distinct serving
        rw [control] at serving
        obtain ⟨visit, peer, rfl, own⟩ := callback_of_serving serving
        simpa [setControl] using servedOutcome_handled distinctTable current control own
          isChannel (Option.some.inj isHandled) served
  | passAsk owner index rest handledIndex entry control =>
      refine recorded.move cycle step rfl rfl rfl rfl rfl ?_ ?_
      · intro _
        cases owner <;> simp [setControl, control, Control.visit]
      · intro serving served
        rw [control] at serving served
        obtain ⟨visit, peer, rfl, own⟩ := callback_of_serving serving
        simpa [setControl] using servedOutcome_stage (.waiting entry) served
  | passLock owner entry remaining handledIndex control =>
      refine recorded.move cycle step rfl rfl rfl rfl rfl ?_ ?_
      · intro _
        cases owner <;> simp [lockChannel, control, Control.visit]
      · intro serving served
        rw [control] at serving served
        obtain ⟨visit, peer, rfl, own⟩ := callback_of_serving serving
        simpa [lockChannel] using servedOutcome_stage (.holding entry) served
  | passCancel owner entry remaining handledIndex control =>
      refine recorded.move cycle step rfl rfl rfl rfl rfl ?_ ?_
      · intro _
        cases owner <;> simp [cancelIn, control, Control.visit]
      · intro serving served
        rw [control] at serving
        obtain ⟨visit, peer, rfl, own⟩ := callback_of_serving serving
        obtain ⟨notHandled, index, rest, rfl, isChannel⟩ :=
          shaped.pass worker _ _ _ _ entry control (Or.inr rfl)
        simpa [cancelIn] using servedOutcome_cancelled current control own isChannel
          (fun same => notHandled (congrArg some same)) served
  | passFinish owner handledIndex control =>
      have isAlt := altOnly worker
      rw [control] at isAlt
      cases owner with
      | callback visit peer => exact recorded_callback cycle recorded step control
      | handled visit =>
          refine recorded_finish cycle step recorded rfl rfl rfl rfl ?_ (by rw [control]; rfl)
            ?_ (started control (by simp))
          · intro other different
            simp [finishPass, writeIndex, finish, different]
          · rintro rfl
            obtain ⟨isChannel, written, made⟩ :=
              completing_record cycle shaped recorded control rfl rfl
            refine Or.inl ⟨visit.index, visit.channel, isChannel, made, ?_⟩
            have kept : (system.finishPass threadId (.handled visit)
                ⟨.asking, [], handledIndex⟩).instruction = system.instruction := rfl
            have alt : (system.instruction threadId).isAlt = true := isAlt
            rw [indexWritten, kept, if_pos alt]
            simp [finishPass, writeIndex, finish, written]
      | nonBlocking =>
          refine recorded_finish cycle step recorded rfl rfl rfl rfl ?_ (by rw [control]; rfl)
            ?_ (started control (by simp))
          · intro other different
            simp [finishPass, writeIndex, finish, unlockRequest, different]
          · rintro rfl
            have withdrawn := cycle.withdrawn_of_withdrawing
              (by rw [control]; rfl : (system.control threadId).role = .withdrawing)
            have made := tallied.made threadId
            rw [withdrawn] at made
            unfold Recorded at recorded
            rw [withdrawn] at recorded
            refine Or.inr ⟨isAlt, List.length_eq_zero_iff.mp made, ?_⟩
            simp [finishPass, writeIndex, finish, unlockRequest, recorded]
  | finishAlone visit control isAlt alone =>
      refine recorded_finish cycle step recorded rfl rfl rfl rfl ?_ (by rw [control]; rfl)
        ?_ (started control (by simp))
      · intro other different
        simp [writeIndex, finish, different]
      · rintro rfl
        obtain ⟨isChannel, written, made⟩ :=
          completing_record cycle shaped recorded control rfl rfl
        refine Or.inl ⟨visit.index, visit.channel, isChannel, made, ?_⟩
        have kept : ((system.writeIndex threadId visit.index).finish threadId).instruction =
            system.instruction := rfl
        rw [indexWritten, kept, if_pos isAlt]
        simp [writeIndex, finish, written]
  | finishPlain visit control notAlt =>
      refine recorded_finish cycle step recorded rfl rfl rfl rfl ?_ (by rw [control]; rfl)
        ?_ (started control (by simp))
      · intro other _
        rfl
      · rintro rfl
        obtain ⟨isChannel, written, made⟩ :=
          completing_record cycle shaped recorded control rfl rfl
        refine Or.inl ⟨visit.index, visit.channel, isChannel, made, ?_⟩
        have kept : (system.finish threadId).instruction = system.instruction := rfl
        rw [indexWritten, kept, notAlt]
        exact written
  | withdraw control raised =>
      have isAlt := altOnly worker
      rw [control] at isAlt
      by_cases own : threadId = worker
      · subst own
        have offering := cycle.offering_of_pending raised
        have withdrawn : (system.withdraw threadId).phase threadId = .withdrawn := by
          simp [VmState.withdraw]
        unfold Recorded at recorded ⊢
        rw [offering] at recorded
        rw [withdrawn]
        exact ⟨recorded, isAlt⟩
      · refine recorded.congr ?_ rfl rfl rfl rfl ?_ ?_
        · simp [VmState.withdraw, own]
        · intro _
          simp [VmState.withdraw, own]
        · intro other completed served
          have serving := (cycle.served threadId other).mp completed
          have isOther : other ≠ worker := by
            rintro rfl
            exact not_serving control rfl serving
          rwa [serving_others step isOther serving]

theorem recorded_of_reached [Inhabited Value] {threadId : ThreadId} {system : VmState Value}
    (reached : Reached (DistinctAlternatives threadId) system) :
    Recorded threadId system := by
  refine Reached.invariant (Recorded threadId) ?_ ?_ reached
  · intro initial isInitial
    unfold Recorded
    rw [isInitial.phase]
    simp [isInitial.serial, isInitial.written, transfersOf, madeDuring, isInitial.transfers]
  · intro before worker action after earlier recorded allowed stepped
    obtain ⟨sole, undisturbed⟩ := undisturbed_of_reached earlier
    exact recorded_edge (locksHeld_of_reached earlier) (lifecycle_of_reached earlier)
      (shaped_of_reached earlier) (tallied_of_reached earlier) (current_of_reached sole)
      (altOnly_of_reached earlier) undisturbed
      (undisturbed_step (shaped_of_reached earlier) undisturbed allowed stepped) recorded
      (edge_of_step stepped)

end Records

/-- Thread 2 gives up a non-blocking alt on channel 2.  Thread 1 offers to receive
from channel 0 or from channel 1 and is suspended, and thread 2 sends on channel 1
the index that its first alt has stored. -/
def selecting : List (ThreadId × Action) :=
  [(2, .start (.alt false (.ofAlternatives [⟨some 2, 20⟩] []) 21) [0]) ::
      List.replicate 9 (2, .proceed),
    (1, .start (.alt true (.ofAlternatives [] [⟨some 0, 10⟩, ⟨some 1, 11⟩]) 12) [1, 0]) ::
      List.replicate 7 (1, .proceed),
    (2, .start (.alt true (.ofAlternatives [⟨some 1, 21⟩] []) 22) [0]) ::
      List.replicate 11 (2, .proceed)].flatten

/-- The actions up to the one that makes the transfer. -/
def offering : List (ThreadId × Action) :=
  selecting.take 22

end Disvm.ChannelSystem
